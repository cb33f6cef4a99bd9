import Mathlib.Algebra.BigOperators.Group.Finset.Basic
import Mathlib.Logic.Relation

/-!
# A worklist search

A search pops an item, skips it when it was marked before, and otherwise marks it and pushes all its
successors. Every pop is paid for: by the items it starts with, and by the edges of the items that
are not marked yet.

Proved here:
* `mem_search`: with enough fuel the search marks what the start reaches, and nothing else.
-/

namespace Harvest.Lib

variable {α : Type*} [DecidableEq α]

/-- Pop, mark and push. The last successor is on top. -/
def search (next : α → List α) : Nat → List α → Finset α → Finset α
  | 0, _, seen => seen
  | _ + 1, [], seen => seen
  | fuel + 1, x :: stack, seen =>
    if x ∈ seen then search next fuel stack seen
    else search next fuel ((next x).reverse ++ stack) (insert x seen)

/-- `y` can be reached from `x`. -/
abbrev Leads (next : α → List α) : α → α → Prop := Relation.ReflTransGen fun x y => y ∈ next x

variable {next : α → List α} {field : Finset α}

theorem search_induction {Holds : α → Prop} (hnext : ∀ x, Holds x → ∀ y ∈ next x, Holds y) :
    ∀ (fuel : Nat) (stack : List α) (seen : Finset α), (∀ x ∈ stack, Holds x) →
      (∀ x ∈ seen, Holds x) → ∀ x ∈ search next fuel stack seen, Holds x := by
  intro fuel
  induction fuel with
  | zero => exact fun _ _ _ hseen => hseen
  | succ fuel ih =>
    intro stack seen hstack hseen
    cases stack with
    | nil => exact hseen
    | cons x stack =>
      have hx := hstack x List.mem_cons_self
      have hrest : ∀ y ∈ stack, Holds y := fun y hy => hstack y (List.mem_cons_of_mem x hy)
      unfold search
      split
      · exact ih stack seen hrest hseen
      · refine ih _ _ (fun y hy => ?_) fun y hy => ?_
        · rcases List.mem_append.mp hy with hy | hy
          · exact hnext x hx y (List.mem_reverse.mp hy)
          · exact hrest y hy
        · rcases Finset.mem_insert.mp hy with rfl | hy
          · exact hx
          · exact hseen y hy

/-- The edges of the items that are not marked yet. -/
def unseenEdges (next : α → List α) (field seen : Finset α) : Nat :=
  ∑ x ∈ field \ seen, (next x).length

/-- Marking an item pays for its own edges. -/
theorem unseenEdges_insert {seen : Finset α} {x : α} (hx : x ∈ field) (hnew : x ∉ seen) :
    unseenEdges next field (insert x seen) + (next x).length =
      unseenEdges next field seen := by
  have hsplit : field \ seen = insert x (field \ insert x seen) := by
    ext y
    simp only [Finset.mem_sdiff, Finset.mem_insert, not_or]
    constructor
    · rintro ⟨hy, hout⟩
      by_cases heq : y = x
      · exact .inl heq
      · exact .inr ⟨hy, heq, hout⟩
    · rintro (rfl | ⟨hy, -, hout⟩)
      · exact ⟨hx, hnew⟩
      · exact ⟨hy, hout⟩
  have hout : x ∉ field \ insert x seen := fun h =>
    (Finset.mem_sdiff.mp h).2 (Finset.mem_insert_self x seen)
  rw [unseenEdges, unseenEdges, hsplit, Finset.sum_insert hout, Nat.add_comm]

/-- With enough fuel the marked items contain what was marked and what was on the stack, and are
closed under successors. -/
theorem search_closed (hfield : ∀ x ∈ field, ∀ y ∈ next x, y ∈ field) :
    ∀ (fuel : Nat) (stack : List α) (seen : Finset α), (∀ x ∈ stack, x ∈ field) →
      (∀ x ∈ seen, ∀ y ∈ next x, y ∈ seen ∨ y ∈ stack) →
      stack.length + unseenEdges next field seen ≤ fuel →
      seen ⊆ search next fuel stack seen ∧ (∀ x ∈ stack, x ∈ search next fuel stack seen) ∧
        ∀ x ∈ search next fuel stack seen, ∀ y ∈ next x, y ∈ search next fuel stack seen := by
  intro fuel
  induction fuel with
  | zero =>
    intro stack seen _ hseen hfuel
    obtain rfl : stack = [] := List.length_eq_zero_iff.mp (by omega)
    refine ⟨fun x hx => hx, fun x hx => absurd hx List.not_mem_nil, fun x hx y hy => ?_⟩
    exact (hseen x hx y hy).resolve_right List.not_mem_nil
  | succ fuel ih =>
    intro stack seen hstack hseen hfuel
    cases stack with
    | nil =>
      refine ⟨fun x hx => hx, fun x hx => absurd hx List.not_mem_nil, fun x hx y hy => ?_⟩
      exact (hseen x hx y hy).resolve_right List.not_mem_nil
    | cons x stack =>
      have hx := hstack x List.mem_cons_self
      have hrest : ∀ y ∈ stack, y ∈ field := fun y hy => hstack y (List.mem_cons_of_mem x hy)
      rw [List.length_cons] at hfuel
      unfold search
      split
      case isTrue hold =>
        have hseen' : ∀ z ∈ seen, ∀ y ∈ next z, y ∈ seen ∨ y ∈ stack := by
          intro z hz y hy
          rcases hseen z hz y hy with hin | hin
          · exact .inl hin
          · rcases List.mem_cons.mp hin with rfl | hin
            · exact .inl hold
            · exact .inr hin
        obtain ⟨hkeep, hpopped, hclosed⟩ := ih stack seen hrest hseen' (by omega)
        refine ⟨hkeep, fun y hy => ?_, hclosed⟩
        rcases List.mem_cons.mp hy with rfl | hy
        · exact hkeep hold
        · exact hpopped y hy
      case isFalse hnew =>
        have hpaid : unseenEdges next field (insert x seen) + (next x).length =
            unseenEdges next field seen := unseenEdges_insert hx hnew
        have hstack' : ∀ y ∈ (next x).reverse ++ stack, y ∈ field := by
          intro y hy
          rcases List.mem_append.mp hy with hy | hy
          · exact hfield x hx y (List.mem_reverse.mp hy)
          · exact hrest y hy
        have hseen' : ∀ z ∈ insert x seen, ∀ y ∈ next z,
            y ∈ insert x seen ∨ y ∈ (next x).reverse ++ stack := by
          intro z hz y hy
          rcases Finset.mem_insert.mp hz with rfl | hz
          · exact .inr (List.mem_append_left _ (List.mem_reverse.mpr hy))
          · rcases hseen z hz y hy with hin | hin
            · exact .inl (Finset.mem_insert_of_mem hin)
            · rcases List.mem_cons.mp hin with rfl | hin
              · exact .inl (Finset.mem_insert_self _ _)
              · exact .inr (List.mem_append_right _ hin)
        obtain ⟨hkeep, hpopped, hclosed⟩ := ih _ _ hstack' hseen' (by
          rw [List.length_append, List.length_reverse]
          omega)
        refine ⟨fun y hy => hkeep (Finset.mem_insert_of_mem hy), fun y hy => ?_, hclosed⟩
        rcases List.mem_cons.mp hy with rfl | hy
        · exact hkeep (Finset.mem_insert_self _ _)
        · exact hpopped y (List.mem_append_right _ hy)

/-- **The search marks exactly what its start reaches.** -/
theorem mem_search {stack : List α} {fuel : Nat} {y : α}
    (hfield : ∀ x ∈ field, ∀ y ∈ next x, y ∈ field) (hstack : ∀ x ∈ stack, x ∈ field)
    (hfuel : stack.length + ∑ x ∈ field, (next x).length ≤ fuel) :
    y ∈ search next fuel stack ∅ ↔ ∃ x ∈ stack, Leads next x y := by
  constructor
  · have hnext : ∀ x, (∃ start ∈ stack, Leads next start x) → ∀ y ∈ next x,
        ∃ start ∈ stack, Leads next start y := by
      rintro x ⟨start, hstart, hpath⟩ y hy
      exact ⟨start, hstart, hpath.tail hy⟩
    exact search_induction hnext fuel stack ∅ (fun x hx => ⟨x, hx, .refl⟩)
      (fun x hx => absurd hx (Finset.notMem_empty x)) y
  · rintro ⟨x, hx, hpath⟩
    obtain ⟨-, hpopped, hclosed⟩ := search_closed hfield fuel stack ∅ hstack
      (fun z hz => absurd hz (Finset.notMem_empty z)) (by
        rw [unseenEdges, Finset.sdiff_empty]
        exact hfuel)
    induction hpath with
    | refl => exact hpopped x hx
    | tail _ hedge ih => exact hclosed _ ih _ hedge

end Harvest.Lib
