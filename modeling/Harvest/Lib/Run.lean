import Mathlib.Data.List.Basic

/-!
# Runs of a guarded state machine

A machine is a total step function with a guard that says which actions a state
allows. `exec` runs a list of actions, `Legal` says that every action was allowed
where it happened.

Proved here:
* `legal_append`: a run is legal iff its two halves are.
* `invariant`: what every allowed step preserves, a legal run preserves.
* `foldlM_invariant`: the same for a fold that can fail.
-/

namespace Harvest.Lib

section Run

variable {σ α : Type*} (step : σ → α → σ) (allowed : σ → α → Prop)

/-- The state after a list of actions. -/
def exec (s : σ) (acts : List α) : σ := acts.foldl step s

/-- Every action of the list was allowed in the state it found. -/
def Legal : σ → List α → Prop
  | _, [] => True
  | s, act :: rest => allowed s act ∧ Legal (step s act) rest

instance decidableLegal [∀ s act, Decidable (allowed s act)] :
    (s : σ) → (acts : List α) → Decidable (Legal step allowed s acts)
  | _, [] => isTrue trivial
  | s, act :: rest =>
    have := decidableLegal (step s act) rest
    inferInstanceAs (Decidable (allowed s act ∧ Legal step allowed (step s act) rest))

@[simp] theorem exec_nil (s : σ) : exec step s [] = s := rfl

@[simp] theorem exec_cons (s : σ) (act : α) (rest : List α) :
    exec step s (act :: rest) = exec step (step s act) rest := rfl

theorem exec_append (s : σ) (xs ys : List α) :
    exec step s (xs ++ ys) = exec step (exec step s xs) ys := by
  simp [exec, List.foldl_append]

theorem legal_append (s : σ) (xs ys : List α) :
    Legal step allowed s (xs ++ ys) ↔
      Legal step allowed s xs ∧ Legal step allowed (exec step s xs) ys := by
  induction xs generalizing s with
  | nil => simp [Legal]
  | cons act xs ih => simp [Legal, ih, and_assoc]

theorem legal_concat (s : σ) (xs : List α) (act : α) :
    Legal step allowed s (xs ++ [act]) ↔
      Legal step allowed s xs ∧ allowed (exec step s xs) act := by
  simp [legal_append, Legal]

variable {step allowed}

/-- **Invariant rule.** -/
theorem invariant {P : σ → Prop} (hstep : ∀ s act, P s → allowed s act → P (step s act))
    {s : σ} {acts : List α} (hs : P s) (hrun : Legal step allowed s acts) :
    P (exec step s acts) := by
  induction acts generalizing s with
  | nil => exact hs
  | cons act rest ih => exact ih (hstep s act hs hrun.1) hrun.2

/-- **Invariant rule** for a fold that can fail: the invariant speaks about what was taken so
far. -/
theorem foldlM_invariant {ε : Type*} {step : σ → α → Except ε σ} {items : List α}
    {P : List α → σ → Prop} {s s' : σ} (hinit : P [] s)
    (hstep : ∀ done x rest s s', items = done ++ x :: rest → P done s → step s x = .ok s' →
      P (done ++ [x]) s')
    (h : items.foldlM step s = .ok s') : P items s' := by
  suffices hrest : ∀ rest done s, items = done ++ rest → P done s →
      rest.foldlM step s = .ok s' → P items s' from hrest items [] s rfl hinit h
  intro rest
  induction rest with
  | nil =>
    intro done s hitems hP hfold
    rw [List.append_nil] at hitems
    rw [hitems]
    cases hfold
    exact hP
  | cons x rest ih =>
    intro done s hitems hP hfold
    rw [List.foldlM_cons] at hfold
    cases hx : step s x with
    | error error =>
      rw [hx] at hfold
      cases hfold
    | ok next =>
      rw [hx] at hfold
      refine ih (done ++ [x]) next ?_ (hstep done x rest s next hitems hP hx) hfold
      rw [hitems, List.append_assoc, List.singleton_append]

end Run
end Harvest.Lib
