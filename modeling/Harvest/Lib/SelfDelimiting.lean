import Mathlib.Data.List.Basic
import Mathlib.Data.Nat.Basic
import Mathlib.Algebra.Group.Nat.Defs

/-!
# Self-delimiting encodings

An encoding is self-delimiting when a reader always knows where an encoded value
ends: two encoded values followed by anything agree only if the values and the rests
do. Such encodings can be concatenated without separators.

Proved here:
* `SelfDelimiting.flatMap_inj`: a fixed number of fields one after another.
* `fixedWidth_inj`, `beBytes_inj`: numbers of a fixed width.
-/

namespace Harvest.Lib

section SelfDelimiting

variable {α β γ : Type*}

def SelfDelimiting (enc : α → List β) : Prop :=
  ∀ a b x y, enc a ++ x = enc b ++ y → a = b ∧ x = y

theorem SelfDelimiting.comp {enc : β → List γ} (henc : SelfDelimiting enc) {f : α → β}
    (hf : ∀ a b, f a = f b → a = b) : SelfDelimiting fun a => enc (f a) := by
  intro a b x y h
  obtain ⟨hab, hxy⟩ := henc _ _ x y h
  exact ⟨hf a b hab, hxy⟩

theorem SelfDelimiting.flatMap_inj {enc : α → List β} (h : SelfDelimiting enc) :
    ∀ {as bs : List α} {x y : List β}, as.length = bs.length →
      as.flatMap enc ++ x = bs.flatMap enc ++ y → as = bs ∧ x = y := by
  intro as
  induction as with
  | nil =>
    intro bs x y hlength heq
    obtain rfl := List.eq_nil_of_length_eq_zero hlength.symm
    exact ⟨rfl, heq⟩
  | cons a as ih =>
    intro bs x y hlength heq
    cases bs with
    | nil => simp at hlength
    | cons b bs =>
      simp only [List.flatMap_cons, List.append_assoc] at heq
      obtain ⟨rfl, hrest⟩ := h a b _ _ heq
      obtain ⟨rfl, rfl⟩ := ih (by simpa using hlength) hrest
      exact ⟨rfl, rfl⟩

end SelfDelimiting

/-! ## Numbers of a fixed width -/

section FixedWidth

variable {β : Type*} (base : Nat) (digit : Nat → β)

/-- The low `width` digits of a number, the most significant first. -/
def fixedWidth : Nat → Nat → List β
  | 0, _ => []
  | width + 1, n => fixedWidth width (n / base) ++ [digit (n % base)]

theorem length_fixedWidth (width n : Nat) : (fixedWidth base digit width n).length = width := by
  induction width generalizing n with
  | zero => rfl
  | succ width ih => simp [fixedWidth, ih]

variable {base digit}

theorem fixedWidth_inj (hbase : 0 < base)
    (hdigit : ∀ i < base, ∀ j < base, digit i = digit j → i = j) {width m n : Nat}
    (hm : m < base ^ width) (hn : n < base ^ width)
    (h : fixedWidth base digit width m = fixedWidth base digit width n) : m = n := by
  induction width generalizing m n with
  | zero => simp only [Nat.pow_zero] at hm hn; omega
  | succ width ih =>
    rw [Nat.pow_succ, Nat.mul_comm] at hm hn
    obtain ⟨hhigh, hlow⟩ := List.append_inj' h rfl
    have hdiv : m / base = n / base :=
      ih (Nat.div_lt_of_lt_mul hm) (Nat.div_lt_of_lt_mul hn) hhigh
    have hmod : m % base = n % base :=
      hdigit _ (Nat.mod_lt m hbase) _ (Nat.mod_lt n hbase) (List.singleton_inj.mp hlow)
    rw [← Nat.div_add_mod m base, ← Nat.div_add_mod n base, hdiv, hmod]

end FixedWidth

/-- A number in big-endian bytes. -/
def beBytes (width n : Nat) : List UInt8 := fixedWidth 256 UInt8.ofNat width n

theorem length_beBytes (width n : Nat) : (beBytes width n).length = width :=
  length_fixedWidth 256 UInt8.ofNat width n

theorem beBytes_inj {width m n : Nat} (hm : m < 256 ^ width) (hn : n < 256 ^ width)
    (h : beBytes width m = beBytes width n) : m = n := by
  refine fixedWidth_inj (by omega) ?_ hm hn h
  intro i hi j hj heq
  have hbyte := congrArg UInt8.toNat heq
  simp only [UInt8.toNat_ofNat'] at hbyte
  omega

end Harvest.Lib
