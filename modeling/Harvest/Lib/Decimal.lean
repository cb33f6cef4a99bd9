import Mathlib.Algebra.Order.Field.Rat
import Mathlib.Data.List.DropRight
import Mathlib.Data.Nat.Digits.Defs
import Mathlib.Tactic.FieldSimp
import Mathlib.Tactic.Ring

/-!
# Decimal texts

A plain decimal is an optional sign, digits and an optional fraction, without an exponent. Its value
is an exact rational number. Leading zeros, trailing zeros of the fraction and the sign of zero do
not change the value, and a text without them is the only one of its value, and its shortest.

Proved here:
* `value_eq_iff`: digits around a point have the same value when they differ in such zeros only.
* `Plain.canonical_eq_iff`: so the texts without them are equal when their values are.
* `Plain.isShortest_canonical`: every other text of the value is longer.
-/

namespace Harvest.Lib.Decimal

/-! ## Digits -/

def Digits (ds : List Char) : Prop := ∀ c ∈ ds, c.isDigit = true

instance (ds : List Char) : Decidable (Digits ds) :=
  decidable_of_iff (ds.all Char.isDigit = true) List.all_eq_true

def digitValue (c : Char) : ℕ := c.toNat - 48

/-- The number that digits write. -/
def natValue (ds : List Char) : ℕ := Nat.ofDigits 10 (ds.reverse.map digitValue)

def zeros (n : ℕ) : List Char := List.replicate n '0'

/-- Without leading zeros. -/
def trimStart (ds : List Char) : List Char := ds.dropWhile (· == '0')

/-- Without trailing zeros. -/
def trimEnd (ds : List Char) : List Char := ds.rdropWhile (· == '0')

theorem toNat_of_isDigit {c : Char} (h : c.isDigit = true) : 48 ≤ c.toNat ∧ c.toNat ≤ 57 := by
  simp only [Char.isDigit, Bool.and_eq_true, decide_eq_true_eq] at h
  exact ⟨UInt32.le_iff_toNat_le.mp h.1, UInt32.le_iff_toNat_le.mp h.2⟩

theorem digitValue_lt {c : Char} (h : c.isDigit = true) : digitValue c < 10 := by
  have hbounds := toNat_of_isDigit h
  unfold digitValue
  omega

theorem digitValue_inj {a b : Char} (ha : a.isDigit = true) (hb : b.isDigit = true)
    (h : digitValue a = digitValue b) : a = b := by
  have hbounds := toNat_of_isDigit ha
  have hbounds' := toNat_of_isDigit hb
  unfold digitValue at h
  exact Char.toNat_inj.mp (by omega)

theorem Digits.append {a b : List Char} (ha : Digits a) (hb : Digits b) : Digits (a ++ b) :=
  List.forall_mem_append.mpr ⟨ha, hb⟩

theorem digits_zeros (n : ℕ) : Digits (zeros n) := fun c hc => by
  rw [List.eq_of_mem_replicate hc]
  rfl

theorem Digits.trimStart {ds : List Char} (h : Digits ds) : Digits (trimStart ds) :=
  fun c hc => h c ((List.dropWhile_suffix _).subset hc)

theorem Digits.trimEnd {ds : List Char} (h : Digits ds) : Digits (trimEnd ds) :=
  fun c hc => h c ((List.rdropWhile_prefix _ ds).subset hc)

theorem natValue_append (a b : List Char) :
    natValue (a ++ b) = natValue a * 10 ^ b.length + natValue b := by
  rw [natValue, List.reverse_append, List.map_append, Nat.ofDigits_append, List.length_map,
    List.length_reverse, natValue, natValue]
  ring

theorem natValue_zeros (n : ℕ) : natValue (zeros n) = 0 := by
  have hzeros : (zeros n).reverse.map digitValue = List.replicate n 0 := by
    rw [zeros, List.reverse_replicate, List.map_replicate]
    rfl
  rw [natValue, hzeros, Nat.ofDigits_replicate_zero]

/-- Zeros in front do nothing, zeros behind multiply. -/
theorem natValue_padded (lead trail : ℕ) (a b : List Char) :
    natValue ((zeros lead ++ a) ++ (b ++ zeros trail)) = natValue (a ++ b) * 10 ^ trail := by
  rw [List.append_assoc, natValue_append, natValue_zeros, Nat.zero_mul, Nat.zero_add,
    ← List.append_assoc, natValue_append, natValue_zeros, Nat.add_zero, zeros,
    List.length_replicate]

/-- Digits of one length are told apart by their number. -/
theorem eq_of_natValue_eq {a b : List Char} (ha : Digits a) (hb : Digits b)
    (hlength : a.length = b.length) (h : natValue a = natValue b) : a = b := by
  have hsmall : ∀ {ds : List Char}, Digits ds → ∀ d ∈ ds.reverse.map digitValue, d < 10 := by
    intro ds hds d hd
    obtain ⟨c, hc, rfl⟩ := List.mem_map.mp hd
    exact digitValue_lt (hds c (List.mem_reverse.mp hc))
  have hvalues : a.reverse.map digitValue = b.reverse.map digitValue :=
    Nat.ofDigits_inj_of_len_eq (by decide) (by simpa using hlength) (hsmall ha) (hsmall hb) h
  rw [List.map_reverse, List.map_reverse, List.reverse_inj] at hvalues
  clear h hsmall
  induction a generalizing b with
  | nil => exact (List.eq_nil_of_length_eq_zero hlength.symm).symm
  | cons x a ih =>
    cases b with
    | nil => exact absurd hlength (Nat.succ_ne_zero _)
    | cons y b =>
      obtain ⟨hx, ha⟩ := List.forall_mem_cons.mp ha
      obtain ⟨hy, hb⟩ := List.forall_mem_cons.mp hb
      obtain ⟨hhead, htail⟩ := List.cons.inj hvalues
      rw [digitValue_inj hx hy hhead, ih ha hb (Nat.succ.inj hlength) htail]

/-! ## Zeros at the ends -/

theorem exists_zeros_append (ds : List Char) : ∃ n, ds = zeros n ++ trimStart ds := by
  have hzeros : ds.takeWhile (· == '0') = zeros (ds.takeWhile (· == '0')).length := by
    refine List.eq_replicate_of_mem fun c hc => ?_
    simpa using List.mem_takeWhile_imp hc
  refine ⟨(ds.takeWhile (· == '0')).length, ?_⟩
  rw [← hzeros]
  exact List.takeWhile_append_dropWhile.symm

theorem exists_append_zeros (ds : List Char) : ∃ n, ds = trimEnd ds ++ zeros n := by
  have hzeros : ds.rtakeWhile (· == '0') = zeros (ds.rtakeWhile (· == '0')).length := by
    refine List.eq_replicate_of_mem fun c hc => ?_
    simpa using List.mem_rtakeWhile_imp hc
  refine ⟨(ds.rtakeWhile (· == '0')).length, ?_⟩
  rw [← hzeros]
  exact List.rdropWhile_append_rtakeWhile.symm

theorem trimStart_zeros_append (n : ℕ) (ds : List Char) : trimStart (zeros n ++ ds) = trimStart ds := by
  induction n with
  | zero => rfl
  | succ n ih => exact ih

theorem trimEnd_append_zeros (ds : List Char) (n : ℕ) : trimEnd (ds ++ zeros n) = trimEnd ds := by
  have hreverse : ∀ xs : List Char, trimEnd xs = (trimStart xs.reverse).reverse := fun _ => rfl
  rw [hreverse, hreverse, List.reverse_append, zeros, List.reverse_replicate]
  exact congrArg List.reverse (trimStart_zeros_append n ds.reverse)

/-! ## Digits around a point -/

/-- The value of digits with a point between them. -/
def value (whole fraction : List Char) : ℚ :=
  (natValue (whole ++ fraction) : ℚ) / 10 ^ fraction.length

theorem value_trim (whole fraction : List Char) :
    value (trimStart whole) (trimEnd fraction) = value whole fraction := by
  obtain ⟨lead, hlead⟩ := exists_zeros_append whole
  obtain ⟨trail, htrail⟩ := exists_append_zeros fraction
  have hnumber : natValue (whole ++ fraction) =
      natValue (trimStart whole ++ trimEnd fraction) * 10 ^ trail := by
    conv_lhs => rw [hlead, htrail]
    exact natValue_padded _ _ _ _
  have hlength : fraction.length = (trimEnd fraction).length + trail := by
    conv_lhs => rw [htrail]
    rw [List.length_append, zeros, List.length_replicate]
  rw [value, value, hnumber, hlength, pow_add]
  push_cast
  field_simp

/-- Equal values leave equal digits between the zeros. -/
theorem value_eq_iff {whole fraction whole' fraction' : List Char} (hw : Digits whole)
    (hf : Digits fraction) (hw' : Digits whole') (hf' : Digits fraction') :
    value whole fraction = value whole' fraction' ↔
      trimStart whole = trimStart whole' ∧ trimEnd fraction = trimEnd fraction' := by
  constructor
  · intro h
    -- Zeros make the whole parts equally long, and the fractions.
    let first := (zeros whole'.length ++ whole) ++ (fraction ++ zeros fraction'.length)
    let second := (zeros whole.length ++ whole') ++ (fraction' ++ zeros fraction.length)
    have hnumber : natValue (whole ++ fraction) * 10 ^ fraction'.length =
        natValue (whole' ++ fraction') * 10 ^ fraction.length := by
      unfold value at h
      rw [div_eq_div_iff (by positivity) (by positivity)] at h
      exact_mod_cast h
    have hsame : first = second := by
      refine eq_of_natValue_eq
        (((digits_zeros _).append hw).append (hf.append (digits_zeros _)))
        (((digits_zeros _).append hw').append (hf'.append (digits_zeros _))) ?_ ?_
      · simp only [first, second, zeros, List.length_append, List.length_replicate]
        omega
      · rw [natValue_padded, natValue_padded, hnumber]
    have hparts := List.append_inj hsame (by simp [zeros, Nat.add_comm])
    refine ⟨?_, ?_⟩
    · have htrim := congrArg trimStart hparts.1
      rwa [trimStart_zeros_append, trimStart_zeros_append] at htrim
    · have htrim := congrArg trimEnd hparts.2
      rwa [trimEnd_append_zeros, trimEnd_append_zeros] at htrim
  · rintro ⟨hwhole, hfraction⟩
    rw [← value_trim whole fraction, ← value_trim whole' fraction', hwhole, hfraction]

theorem value_nonneg (whole fraction : List Char) : 0 ≤ value whole fraction :=
  div_nonneg (Nat.cast_nonneg _) (pow_nonneg (by decide) _)

/-- Only zeros have the value zero. -/
theorem value_eq_zero_iff {whole fraction : List Char} (hw : Digits whole) (hf : Digits fraction) :
    value whole fraction = 0 ↔ trimStart whole = [] ∧ trimEnd fraction = [] := by
  have hempty : value [] [] = 0 := by
    simp [value, natValue]
  have hnone : Digits [] := fun _ hc => absurd hc List.not_mem_nil
  rw [← hempty, value_eq_iff hw hf hnone hnone]
  rfl

/-! ## Plain decimals -/

/-- An optional sign, digits, and an optional fraction. -/
structure Plain where
  negative : Bool
  whole : List Char
  fraction : List Char
  whole_ne_nil : whole ≠ []
  whole_digits : Digits whole
  fraction_digits : Digits fraction

def sign (negative : Bool) : List Char := if negative then ['-'] else []

/-- The point and the digits behind it, if there are any. -/
def pointed (fraction : List Char) : List Char :=
  if fraction = [] then [] else '.' :: fraction

def signed (negative : Bool) (magnitude : ℚ) : ℚ := if negative then -magnitude else magnitude

theorem signed_eq_zero_iff (negative : Bool) (magnitude : ℚ) :
    signed negative magnitude = 0 ↔ magnitude = 0 := by
  cases negative with
  | false => exact Iff.rfl
  | true => exact neg_eq_zero

/-- The sign and the magnitude of a number other than zero can be told from it. -/
theorem signed_inj {m n : Bool} {x y : ℚ} (hx : 0 < x) (hy : 0 ≤ y) (h : signed m x = signed n y) :
    m = n ∧ x = y := by
  cases m <;> cases n
  · exact ⟨rfl, h⟩
  · exact absurd h (ne_of_gt (lt_of_le_of_lt (neg_nonpos.mpr hy) hx))
  · exact absurd h (ne_of_lt (lt_of_lt_of_le (neg_neg_iff_pos.mpr hx) hy))
  · exact ⟨rfl, neg_injective h⟩

namespace Plain

def text (p : Plain) : List Char := sign p.negative ++ (p.whole ++ pointed p.fraction)

def value (p : Plain) : ℚ := signed p.negative (Decimal.value p.whole p.fraction)

/-- No leading zeros, no trailing zeros of the fraction and no sign of zero. -/
def canonical (negative : Bool) (whole fraction : List Char) (hw : Digits whole)
    (hf : Digits fraction) : Plain where
  negative := negative && !(trimStart whole == [] && trimEnd fraction == [])
  whole := if trimStart whole = [] then ['0'] else trimStart whole
  fraction := trimEnd fraction
  whole_ne_nil := by
    split_ifs with h
    · exact List.cons_ne_nil _ _
    · exact h
  whole_digits := by
    split_ifs
    · exact fun c hc => by rw [List.mem_singleton.mp hc]; rfl
    · exact hw.trimStart
  fraction_digits := hf.trimEnd

section Canonical

variable {negative : Bool} {whole fraction : List Char} (hw : Digits whole) (hf : Digits fraction)

theorem trim_canonical :
    trimStart (canonical negative whole fraction hw hf).whole = trimStart whole ∧
      trimEnd (canonical negative whole fraction hw hf).fraction = trimEnd fraction := by
  refine ⟨?_, List.rdropWhile_idempotent _ _⟩
  show trimStart (if trimStart whole = [] then ['0'] else trimStart whole) = trimStart whole
  split_ifs with h
  · rw [h]
    rfl
  · exact List.dropWhile_idempotent _ _

theorem value_canonical :
    (canonical negative whole fraction hw hf).value =
      signed negative (Decimal.value whole fraction) := by
  have hmagnitude : Decimal.value (canonical negative whole fraction hw hf).whole
      (canonical negative whole fraction hw hf).fraction = Decimal.value whole fraction :=
    (value_eq_iff (whole_digits _) (fraction_digits _) hw hf).mpr (trim_canonical hw hf)
  rw [value, hmagnitude]
  by_cases hzero : trimStart whole = [] ∧ trimEnd fraction = []
  · rw [(value_eq_zero_iff hw hf).mpr hzero, (signed_eq_zero_iff _ 0).mpr rfl,
      (signed_eq_zero_iff _ 0).mpr rfl]
  · have hsign : (canonical negative whole fraction hw hf).negative = negative := by
      rw [not_and_or] at hzero
      simp [canonical, hzero]
    rw [hsign]

/-- Texts of one value have one canonical form. -/
theorem canonical_eq_iff {negative' : Bool} {whole' fraction' : List Char} (hw' : Digits whole')
    (hf' : Digits fraction') :
    canonical negative whole fraction hw hf = canonical negative' whole' fraction' hw' hf' ↔
      signed negative (Decimal.value whole fraction) =
        signed negative' (Decimal.value whole' fraction') := by
  constructor
  · intro h
    rw [← value_canonical hw hf, h, value_canonical hw' hf']
  · intro h
    have hparts : Decimal.value whole fraction = Decimal.value whole' fraction' ∧
        (negative = negative' ∨ trimStart whole = [] ∧ trimEnd fraction = []) := by
      rcases (value_nonneg whole fraction).eq_or_lt with hzero | hpos
      · have hzero' : Decimal.value whole' fraction' = 0 := by
          rw [← signed_eq_zero_iff negative', ← h, ← hzero]
          exact (signed_eq_zero_iff negative 0).mpr rfl
        exact ⟨hzero.symm.trans hzero'.symm, .inr ((value_eq_zero_iff hw hf).mp hzero.symm)⟩
      · obtain ⟨hsign, hmagnitude⟩ := signed_inj hpos (value_nonneg _ _) h
        exact ⟨hmagnitude, .inl hsign⟩
    obtain ⟨hwhole, hfraction⟩ := (value_eq_iff hw hf hw' hf').mp hparts.1
    unfold canonical
    simp only [hwhole, hfraction, Plain.mk.injEq, and_true]
    rcases hparts.2 with rfl | hzero
    · rfl
    · rw [hwhole, hfraction] at hzero
      simp [hzero]

end Canonical

/-! ## The shortest text -/

/-- A text that writes `v`, shorter than all others that do. -/
def IsShortest (v : ℚ) (text : List Char) : Prop :=
  (∃ p : Plain, p.text = text ∧ p.value = v) ∧
    ∀ p : Plain, p.value = v → p.text = text ∨ text.length < p.text.length

/-- The same list, or a shorter one. -/
def Within (a b : List Char) : Prop := a = b ∨ a.length < b.length

theorem Within.append {a b a' b' : List Char} (ha : Within a a') (hb : Within b b') :
    Within (a ++ b) (a' ++ b') := by
  unfold Within
  rw [List.length_append, List.length_append]
  rcases ha with rfl | ha <;> rcases hb with rfl | hb
  · exact .inl rfl
  · exact .inr (by omega)
  · exact .inr (by omega)
  · exact .inr (by omega)

theorem within_of_le {a b : List Char} (h : a.length ≤ b.length)
    (hsame : a.length = b.length → a = b) : Within a b := by
  rcases h.eq_or_lt with heq | hlt
  · exact .inl (hsame heq)
  · exact .inr hlt

theorem within_trimStart (ds : List Char) : Within (trimStart ds) ds :=
  within_of_le (List.dropWhile_suffix _).length_le (List.dropWhile_suffix _).eq_of_length

theorem within_trimEnd (ds : List Char) : Within (trimEnd ds) ds :=
  within_of_le (List.rdropWhile_prefix _ ds).length_le (List.rdropWhile_prefix _ ds).eq_of_length

theorem within_pointed {a b : List Char} (h : Within a b) : Within (pointed a) (pointed b) := by
  rcases h with rfl | h
  · exact .inl rfl
  · have hb : b ≠ [] := fun hnil => by simp [hnil] at h
    refine .inr ?_
    unfold pointed
    rw [if_neg hb]
    split_ifs
    · exact Nat.succ_pos _
    · exact Nat.succ_lt_succ h

/-- Trimming a plain decimal makes it shorter, if it changes it. -/
theorem canonical_within (p : Plain) :
    Within (canonical p.negative p.whole p.fraction p.whole_digits p.fraction_digits).text
      p.text := by
  refine Within.append ?_ (Within.append ?_ (within_pointed (within_trimEnd _)))
  · show Within (sign (p.negative && _)) (sign p.negative)
    generalize (!(trimStart p.whole == [] && trimEnd p.fraction == [])) = nonzero
    cases p.negative with
    | false => exact .inl rfl
    | true =>
      cases nonzero with
      | false => exact .inr Nat.one_pos
      | true => exact .inl rfl
  · show Within (if trimStart p.whole = [] then ['0'] else trimStart p.whole) p.whole
    split_ifs with h
    · obtain ⟨n, hn⟩ := exists_zeros_append p.whole
      rw [h, List.append_nil] at hn
      have hpos : p.whole.length ≠ 0 := fun hnil =>
        p.whole_ne_nil (List.eq_nil_of_length_eq_zero hnil)
      rw [hn, zeros, List.length_replicate] at hpos
      refine within_of_le ?_ ?_
      · rw [hn, zeros, List.length_replicate]
        exact Nat.one_le_iff_ne_zero.mpr hpos
      · intro hone
        rw [hn, zeros, List.length_replicate] at hone
        rw [hn, ← hone]
        rfl
    · exact within_trimStart _

/-- The canonical form is the shortest text of its value. -/
theorem isShortest_canonical {negative : Bool} {whole fraction : List Char} (hw : Digits whole)
    (hf : Digits fraction) :
    IsShortest (signed negative (Decimal.value whole fraction))
      (canonical negative whole fraction hw hf).text := by
  refine ⟨⟨_, rfl, value_canonical hw hf⟩, fun p hp => ?_⟩
  have hsame := (canonical_eq_iff p.whole_digits p.fraction_digits hw hf).mpr hp
  rw [← hsame]
  exact (canonical_within p).imp_left Eq.symm

theorem isShortest_unique {v : ℚ} {a b : List Char} (ha : IsShortest v a) (hb : IsShortest v b) :
    a = b := by
  obtain ⟨⟨p, rfl, hp⟩, hafter⟩ := ha
  obtain ⟨⟨q, rfl, hq⟩, hbafter⟩ := hb
  rcases hafter q hq with hsame | hlonger
  · exact hsame.symm
  · rcases hbafter p hp with hsame | hshorter
    · exact hsame
    · exact absurd hshorter (Nat.lt_asymm hlonger)

/-! ## Texts and values -/

theorem not_isDigit_pointed (fraction : List Char) :
    ∀ c ∈ (pointed fraction).head?, c.isDigit = false := by
  unfold pointed
  split_ifs
  · exact fun c hc => absurd hc (by simp)
  · intro c hc
    rw [← Option.some.inj hc]
    rfl

/-- A run of characters up to one that ends it. -/
theorem span_of_forall {p : Char → Bool} {run rest : List Char} (hrun : ∀ c ∈ run, p c = true)
    (hrest : ∀ c ∈ rest.head?, p c = false) :
    (run ++ rest).takeWhile p = run ∧ (run ++ rest).dropWhile p = rest := by
  rw [List.takeWhile_append_of_pos hrun, List.dropWhile_append_of_pos hrun]
  cases rest with
  | nil => exact ⟨List.append_nil _, rfl⟩
  | cons c rest =>
    have hc := hrest c rfl
    simp [hc]

theorem pointed_injective {a b : List Char} (h : pointed a = pointed b) : a = b := by
  unfold pointed at h
  split_ifs at h with ha hb hb
  · rw [ha, hb]
  · exact (List.cons.inj h).2

theorem head_digits_ne_minus {ds rest : List Char} (hne : ds ≠ []) (hds : Digits ds) :
    (ds ++ rest).head? ≠ some '-' := by
  cases ds with
  | nil => exact absurd rfl hne
  | cons c ds =>
    intro h
    have hc := hds c List.mem_cons_self
    rw [Option.some.inj h] at hc
    exact absurd hc (by decide)

/-- A text has one value. -/
theorem value_eq_of_text_eq {p q : Plain} (h : p.text = q.text) : p.value = q.value := by
  have hsign : p.negative = q.negative ∧
      p.whole ++ pointed p.fraction = q.whole ++ pointed q.fraction := by
    have hp := @head_digits_ne_minus _ (pointed p.fraction) p.whole_ne_nil p.whole_digits
    have hq := @head_digits_ne_minus _ (pointed q.fraction) q.whole_ne_nil q.whole_digits
    unfold text sign at h
    cases hpn : p.negative <;> cases hqn : q.negative <;> rw [hpn, hqn] at h
    · exact ⟨rfl, h⟩
    · exact absurd (congrArg List.head? h) hp
    · exact absurd (congrArg List.head? h).symm hq
    · exact ⟨rfl, (List.cons.inj h).2⟩
  obtain ⟨hnegative, hrest⟩ := hsign
  obtain ⟨htake, hdrop⟩ := span_of_forall p.whole_digits (not_isDigit_pointed p.fraction)
  obtain ⟨htake', hdrop'⟩ := span_of_forall q.whole_digits (not_isDigit_pointed q.fraction)
  rw [hrest] at htake hdrop
  rw [value, value, hnegative, htake.symm.trans htake',
    pointed_injective (hdrop.symm.trans hdrop')]

theorem value_eq_of_isShortest {u v : ℚ} {text : List Char} (hu : IsShortest u text)
    (hv : IsShortest v text) : u = v := by
  obtain ⟨⟨p, hp, hpu⟩, -⟩ := hu
  obtain ⟨⟨q, hq, hqv⟩, -⟩ := hv
  rw [← hpu, ← hqv]
  exact value_eq_of_text_eq (hp.trans hq.symm)

end Plain

end Harvest.Lib.Decimal
