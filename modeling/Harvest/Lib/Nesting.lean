import Mathlib.Data.List.Basic

/-!
# Chains of nested scopes

A nesting gives each scope the scopes around it, innermost first. A chain is a scope with everything
around it.

Proved here:
* `Line.subset`: a chain holds everything around each of its scopes.
* `Line.comparable`: of two scopes of a chain, one is around the other.
-/

namespace Harvest.Lib

variable {α : Type} {path : α → List α}

/-- Scopes from the inside out: each is followed by exactly the scopes around it. -/
inductive Line (path : α → List α) : List α → Prop
  | nil : Line path []
  | cons {a : α} {around : List α} (h : path a = around) (hline : Line path around) :
      Line path (a :: around)

theorem Line.subset {chain : List α} (h : Line path chain) {a b : α} (ha : a ∈ chain)
    (hb : b ∈ path a) : b ∈ chain := by
  induction h with
  | nil => cases ha
  | @cons first around hpath _ ih =>
    rcases List.mem_cons.mp ha with rfl | ha
    · rw [hpath] at hb
      exact List.mem_cons_of_mem _ hb
    · exact List.mem_cons_of_mem _ (ih ha)

theorem Line.comparable {chain : List α} (h : Line path chain) {a b : α} (ha : a ∈ chain)
    (hb : b ∈ chain) : a = b ∨ a ∈ path b ∨ b ∈ path a := by
  induction h with
  | nil => cases ha
  | @cons first around hpath _ ih =>
    rcases List.mem_cons.mp ha with rfl | haround
    · rcases List.mem_cons.mp hb with rfl | hbaround
      · exact .inl rfl
      · exact .inr (.inr (hpath ▸ hbaround))
    · rcases List.mem_cons.mp hb with rfl | hbaround
      · exact .inr (.inl (hpath ▸ haround))
      · exact ih haround hbaround

end Harvest.Lib
