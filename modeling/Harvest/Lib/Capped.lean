import Mathlib.Algebra.Order.Group.MinMax

/-!
# Capped counters

A counter with a cap: an addition is cut at the cap, a withdrawal is not. Two counters that see the
same operations keep their distance until the higher one is cut.

Proved here:
* `applyAll_gap`: the distance of two counters after the same operations.
* `refund_eq_iff`: when an addition to the lower counter reaches the higher one.
-/

namespace Harvest.Lib

variable {α : Type*} [AddCommGroup α] [LinearOrder α]

inductive CapOp (α : Type*)
  | add (amount : α)
  | take (amount : α)

namespace CapOp

def apply (cap : α) : CapOp α → α → α
  | add amount, x => min (x + amount) cap
  | take amount, x => x - amount

def applyAll (cap : α) (ops : List (CapOp α)) (x : α) : α :=
  ops.foldl (fun x op => op.apply cap x) x

/-- The operation is an addition that the cap cuts. -/
def Spills (cap : α) : CapOp α → α → Prop
  | add amount, x => cap < x + amount
  | take _, _ => False

/-- The cap cuts one of the operations. -/
def SomeSpills (cap : α) : List (CapOp α) → α → Prop
  | [], _ => False
  | op :: ops, x => op.Spills cap x ∨ SomeSpills cap ops (op.apply cap x)

variable {cap x y : α}

theorem applyAll_append (ops more : List (CapOp α)) (x : α) :
    applyAll cap (ops ++ more) x = applyAll cap more (applyAll cap ops x) :=
  List.foldl_append

variable [IsOrderedAddMonoid α]

/-- One operation on two counters. -/
theorem apply_gap (op : CapOp α) (hle : x ≤ y) :
    op.apply cap x ≤ op.apply cap y ∧ op.apply cap y - op.apply cap x ≤ y - x ∧
      (¬ op.Spills cap y → op.apply cap y - op.apply cap x = y - x) ∧
      (op.Spills cap y → x < y → op.apply cap y - op.apply cap x < y - x) := by
  cases op with
  | take amount =>
    have hgap : y - amount - (x - amount) = y - x := sub_sub_sub_cancel_right y x amount
    exact ⟨sub_le_sub_right hle amount, hgap.le, fun _ => hgap, nofun⟩
  | add amount =>
    have hgap : y + amount - (x + amount) = y - x := add_sub_add_right_eq_sub y x amount
    change min (x + amount) cap ≤ min (y + amount) cap ∧
      min (y + amount) cap - min (x + amount) cap ≤ y - x ∧
      (¬ cap < y + amount → min (y + amount) cap - min (x + amount) cap = y - x) ∧
      (cap < y + amount → x < y → min (y + amount) cap - min (x + amount) cap < y - x)
    have hsum : x + amount ≤ y + amount := add_le_add_left hle amount
    refine ⟨min_le_min_right cap hsum, ?_, fun hfits => ?_, fun hcut hlt => ?_⟩
    · rcases le_total (x + amount) cap with hx | hx
      · rw [min_eq_left hx, ← hgap]
        exact sub_le_sub_right (min_le_left _ _) _
      · rw [min_eq_right hx, min_eq_right (hx.trans hsum), sub_self]
        exact sub_nonneg.mpr hle
    · have hy : y + amount ≤ cap := not_lt.mp hfits
      rw [min_eq_left hy, min_eq_left (hsum.trans hy), hgap]
    · rw [min_eq_right hcut.le]
      rcases le_total (x + amount) cap with hx | hx
      · rw [min_eq_left hx, ← hgap]
        exact sub_lt_sub_right hcut _
      · rw [min_eq_right hx, sub_self]
        exact sub_pos.mpr hlt

/-- **The distance of two counters** after the same operations: it never grows, and it is kept
exactly when the cap never cuts the higher counter. -/
theorem applyAll_gap (ops : List (CapOp α)) (hle : x ≤ y) :
    applyAll cap ops x ≤ applyAll cap ops y ∧
      applyAll cap ops y - applyAll cap ops x ≤ y - x ∧
      (¬ SomeSpills cap ops y → applyAll cap ops y - applyAll cap ops x = y - x) ∧
      (SomeSpills cap ops y → x < y → applyAll cap ops y - applyAll cap ops x < y - x) := by
  induction ops generalizing x y with
  | nil => exact ⟨hle, le_rfl, fun _ => rfl, nofun⟩
  | cons op ops ih =>
    obtain ⟨horder, hgap, hkept, hcut⟩ := @apply_gap α _ _ cap x y _ op hle
    obtain ⟨horder', hgap', hkept', hcut'⟩ := ih horder
    refine ⟨horder', hgap'.trans hgap, fun hnone => ?_, fun hsome hlt => ?_⟩
    · obtain ⟨hfits, hfits'⟩ := not_or.mp hnone
      exact (hkept' hfits').trans (hkept hfits)
    · by_cases hnow : op.Spills cap y
      · exact hgap'.trans_lt (hcut hnow hlt)
      · -- not cut here, so the distance is the old one
        have hsame := hkept hnow
        have hlater : SomeSpills cap ops (op.apply cap y) := hsome.resolve_left hnow
        have hlt' : op.apply cap x < op.apply cap y := sub_pos.mp (hsame ▸ sub_pos.mpr hlt)
        exact hsame ▸ hcut' hlater hlt'

end CapOp

/-- An addition takes the lower counter to the higher one when it is their distance, or when the
higher one is at the cap. -/
theorem refund_eq_iff [IsOrderedAddMonoid α] {cap x y amount : α} (hy : y ≤ cap) (hgap : y - x ≤ amount) :
    min (x + amount) cap = y ↔ y - x = amount ∨ y = cap := by
  have hreach : y ≤ x + amount := sub_le_iff_le_add'.mp hgap
  constructor
  · intro heq
    rcases le_total (x + amount) cap with hx | hx
    · rw [min_eq_left hx] at heq
      exact .inl (sub_eq_iff_eq_add'.mpr heq.symm)
    · rw [min_eq_right hx] at heq
      exact .inr heq.symm
  · rintro (heq | rfl)
    · have hsum : x + amount = y := by rw [← heq, add_sub_cancel]
      rw [hsum, min_eq_left hy]
    · exact min_eq_right hreach

end Harvest.Lib
