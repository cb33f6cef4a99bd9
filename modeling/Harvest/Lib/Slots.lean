import Mathlib.Data.List.DropRight

/-!
# Numbered slots

A list whose slots can be empty. The slots are numbered in order, from a first number on; the
filled ones, each with its number, are what the list holds. Emptying a slot removes one number,
and dropping empty slots at either end changes nothing.
-/

namespace Harvest.Lib

variable {α : Type*}

/-- The filled slots in order, each with its number. -/
def numbered : Nat → List (Option α) → List (Nat × α)
  | _, [] => []
  | n, none :: slots => numbered (n + 1) slots
  | n, some a :: slots => (n, a) :: numbered (n + 1) slots

@[simp] theorem numbered_nil (n : Nat) : numbered n ([] : List (Option α)) = [] := rfl

@[simp] theorem numbered_none (n : Nat) (slots : List (Option α)) :
    numbered n (none :: slots) = numbered (n + 1) slots := rfl

@[simp] theorem numbered_some (n : Nat) (a : α) (slots : List (Option α)) :
    numbered n (some a :: slots) = (n, a) :: numbered (n + 1) slots := rfl

theorem numbered_append (n : Nat) (slots more : List (Option α)) :
    numbered n (slots ++ more) = numbered n slots ++ numbered (n + slots.length) more := by
  induction slots generalizing n with
  | nil => rfl
  | cons slot slots ih =>
    have hlen : n + 1 + slots.length = n + (slot :: slots).length := by
      rw [List.length_cons]
      omega
    cases slot with
    | none => rw [List.cons_append, numbered_none, numbered_none, ih, hlen]
    | some a => rw [List.cons_append, numbered_some, numbered_some, ih, hlen, List.cons_append]

theorem mem_numbered {n k : Nat} {a : α} {slots : List (Option α)} :
    (k, a) ∈ numbered n slots ↔ n ≤ k ∧ slots[k - n]? = some (some a) := by
  induction slots generalizing n with
  | nil => simp
  | cons slot slots ih =>
    have hnext : (n + 1 ≤ k ∧ slots[k - (n + 1)]? = some (some a)) ↔
        n < k ∧ (slot :: slots)[k - n]? = some (some a) := by
      refine and_congr_right fun hlt => ?_
      rw [show k - n = (k - (n + 1)) + 1 by omega, List.getElem?_cons_succ]
    cases slot with
    | none =>
      rw [numbered_none, ih, hnext]
      constructor
      · exact fun h => ⟨h.1.le, h.2⟩
      · rintro ⟨hle, hslot⟩
        refine ⟨lt_of_le_of_ne hle ?_, hslot⟩
        rintro rfl
        simp at hslot
    | some b =>
      rw [numbered_some, List.mem_cons, ih, hnext]
      constructor
      · rintro (h | h)
        · cases h
          simp
        · exact ⟨h.1.le, h.2⟩
      · rintro ⟨hle, hslot⟩
        rcases Nat.eq_or_lt_of_le hle with rfl | hlt
        · left
          simpa using hslot.symm
        · exact Or.inr ⟨hlt, hslot⟩

theorem le_of_mem_numbered {n : Nat} {row : Nat × α} {slots : List (Option α)}
    (h : row ∈ numbered n slots) : n ≤ row.1 :=
  (mem_numbered.mp h).1

theorem lt_of_mem_numbered {n : Nat} {row : Nat × α} {slots : List (Option α)}
    (h : row ∈ numbered n slots) : row.1 < n + slots.length := by
  obtain ⟨hle, hslot⟩ := mem_numbered.mp h
  have := (List.getElem?_eq_some_iff.mp hslot).1
  omega

/-- The numbers grow. -/
theorem numbered_pairwise (n : Nat) (slots : List (Option α)) :
    (numbered n slots).Pairwise (·.1 < ·.1) := by
  induction slots generalizing n with
  | nil => exact List.Pairwise.nil
  | cons slot slots ih =>
    cases slot with
    | none => exact ih (n + 1)
    | some a => exact List.pairwise_cons.mpr ⟨fun row h => le_of_mem_numbered h, ih (n + 1)⟩

/-- What a list holds, without the numbers. -/
theorem map_snd_numbered (n : Nat) (slots : List (Option α)) :
    (numbered n slots).map Prod.snd = slots.filterMap id := by
  induction slots generalizing n with
  | nil => rfl
  | cons slot slots ih =>
    cases slot with
    | none => exact ih (n + 1)
    | some a => simp [ih]

/-- Emptying a slot removes its number. -/
theorem numbered_set_none (n i : Nat) (slots : List (Option α)) :
    numbered n (slots.set i none) = (numbered n slots).filter (·.1 ≠ n + i) := by
  have hkeep (m : Nat) (slots : List (Option α)) (h : m > n + i) :
      (numbered m slots).filter (·.1 ≠ n + i) = numbered m slots := by
    refine List.filter_eq_self.mpr fun row hrow => ?_
    have := le_of_mem_numbered hrow
    simp
    omega
  induction slots generalizing n i with
  | nil => rfl
  | cons slot slots ih =>
    cases i with
    | zero =>
      cases slot with
      | none => exact (hkeep (n + 1) slots (by omega)).symm
      | some a =>
        rw [List.set_cons_zero, numbered_none, numbered_some, List.filter_cons_of_neg (by simp)]
        exact (hkeep (n + 1) slots (by omega)).symm
    | succ i =>
      have hrest : numbered (n + 1) (slots.set i none) =
          (numbered (n + 1) slots).filter (·.1 ≠ n + (i + 1)) := by
        rw [show n + (i + 1) = n + 1 + i by omega]
        refine ih (n + 1) i fun m slots hm => ?_
        rw [show n + 1 + i = n + (i + 1) by omega]
        exact hkeep m slots (by omega)
      cases slot with
      | none => exact hrest
      | some a =>
        rw [List.set_cons_succ, numbered_some, numbered_some, hrest, List.filter_cons_of_pos]
        simp

/-- The slots from a position on. -/
theorem numbered_drop (n k : Nat) (slots : List (Option α)) :
    numbered (n + k) (slots.drop k) = (numbered n slots).filter (n + k ≤ ·.1) := by
  rcases Nat.lt_or_ge slots.length k with hlt | hle
  · rw [List.drop_eq_nil_of_le hlt.le, numbered_nil]
    symm
    refine List.filter_eq_nil_iff.mpr fun row hrow => ?_
    have := lt_of_mem_numbered hrow
    simp
    omega
  · conv_rhs => rw [← List.take_append_drop k slots]
    have hlen : (slots.take k).length = k := List.length_take_of_le hle
    have hbefore : (numbered n (slots.take k)).filter (n + k ≤ ·.1) = [] := by
      refine List.filter_eq_nil_iff.mpr fun row hrow => ?_
      have := lt_of_mem_numbered hrow
      simp
      omega
    have hafter : (numbered (n + k) (slots.drop k)).filter (n + k ≤ ·.1) =
        numbered (n + k) (slots.drop k) := by
      refine List.filter_eq_self.mpr fun row hrow => ?_
      simpa using le_of_mem_numbered hrow
    rw [numbered_append, hlen, List.filter_append, hbefore, hafter, List.nil_append]

/-- Drops the empty slots at the front. -/
def trimFront : Nat → List (Option α) → Nat × List (Option α)
  | n, none :: slots => trimFront (n + 1) slots
  | n, slots => (n, slots)

theorem numbered_trimFront (n : Nat) (slots : List (Option α)) :
    numbered (trimFront n slots).1 (trimFront n slots).2 = numbered n slots := by
  induction slots generalizing n with
  | nil => rfl
  | cons slot slots ih =>
    cases slot with
    | none => exact ih (n + 1)
    | some a => rfl

/-- Drops the empty slots at the back. -/
def trimBack (slots : List (Option α)) : List (Option α) := slots.rdropWhile Option.isNone

theorem numbered_trimBack (n : Nat) (slots : List (Option α)) :
    numbered n (trimBack slots) = numbered n slots := by
  unfold trimBack
  induction slots using List.reverseRecOn with
  | nil => rfl
  | append_singleton slots slot ih =>
    cases slot with
    | none =>
      rw [List.rdropWhile_concat_pos _ _ _ (by rfl), ih, numbered_append]
      simp
    | some a => rw [List.rdropWhile_concat_neg _ _ _ (by simp)]

theorem getLast?_trimBack (slots : List (Option α)) : (trimBack slots).getLast? ≠ some none := by
  intro h
  have hne : trimBack slots ≠ [] := by
    rintro hnil
    rw [hnil] at h
    cases h
  have hlast := List.rdropWhile_last_not Option.isNone slots hne
  rw [List.getLast?_eq_some_getLast hne] at h
  exact hlast (by rw [show (slots.rdropWhile Option.isNone).getLast hne = none from
    Option.some.inj h]; rfl)

end Harvest.Lib
