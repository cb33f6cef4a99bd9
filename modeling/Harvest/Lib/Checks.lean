import Mathlib.Init

/-!
# Checks in sequence

Proved here:
* `forM_eq_ok`, `seq_eq_ok`: a sequence of checks passes when each of them does.
* `refuseIf_eq_ok`: a single check passes when its condition fails.
-/

namespace Harvest.Lib

theorem forM_eq_ok {ε α : Type} {check : α → Except ε Unit} {items : List α} :
    forM items check = .ok () ↔ ∀ item ∈ items, check item = .ok () := by
  induction items with
  | nil => exact ⟨fun _ item hitem => absurd hitem List.not_mem_nil, fun _ => rfl⟩
  | cons first rest ih =>
    rw [List.forM_cons, List.forall_mem_cons, ← ih]
    cases hfirst : check first with
    | error error =>
      constructor
      · intro h
        cases h
      · intro h
        cases h.1
    | ok _ => exact ⟨fun h => ⟨rfl, h⟩, fun h => h.2⟩

theorem seq_eq_ok {ε : Type} {first rest : Except ε Unit} :
    (do first; rest) = .ok () ↔ first = .ok () ∧ rest = .ok () := by
  cases first with
  | error error =>
    constructor
    · intro h
      cases h
    · intro h
      cases h.1
  | ok _ => exact ⟨fun h => ⟨rfl, h⟩, fun h => h.2⟩

/-- Refuse with this message when the condition holds. -/
def refuseIf (refused : Bool) (message : String) : Except String Unit :=
  if refused then .error message else .ok ()

theorem refuseIf_eq_ok {refused : Bool} {message : String} :
    refuseIf refused message = .ok () ↔ refused = false := by
  cases refused with
  | false => exact ⟨fun _ => rfl, fun _ => rfl⟩
  | true =>
    constructor
    · intro h
      cases h
    · intro h
      cases h

end Harvest.Lib
