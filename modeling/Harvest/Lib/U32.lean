import Mathlib.Algebra.GroupWithZero.Nat
import Mathlib.Data.Fin.Basic

/-!
# Saturating 32-bit counters

Unsigned 32-bit values with the saturating operations of the standard library.
Every operation is read back as a number by a `simp` lemma, so that `omega`
finishes what is left.
-/

namespace Harvest.Lib

abbrev U32 := Fin 4294967296

instance U32.neZero : NeZero 4294967296 := ⟨by decide⟩

/-- `u32::try_from(n).unwrap_or(u32::MAX)`. -/
def U32.ofNatSat (n : Nat) : U32 := ⟨min n 4294967295, by omega⟩

/-- `a.saturating_add(b)`. -/
def U32.satAdd (a b : U32) : U32 := U32.ofNatSat (a.val + b.val)

/-- `a.saturating_sub(b)`. -/
def U32.satSub (a b : U32) : U32 := ⟨a.val - b.val, by omega⟩

@[simp] theorem U32.ofNatSat_val (n : Nat) : (U32.ofNatSat n).val = min n 4294967295 := rfl

@[simp] theorem U32.satAdd_val (a b : U32) :
    (U32.satAdd a b).val = min (a.val + b.val) 4294967295 := rfl

@[simp] theorem U32.satSub_val (a b : U32) : (U32.satSub a b).val = a.val - b.val := rfl

theorem U32.val_le (a : U32) : a.val ≤ 4294967295 := by
  have := a.isLt
  omega

end Harvest.Lib
