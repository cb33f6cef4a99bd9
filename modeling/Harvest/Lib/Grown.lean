import Mathlib.Data.List.Induction

/-!
# Append-only logs

A log that only grows at its end. Each entry was checked against the log in front of it when it was
appended.

Proved here:
* `Grown.next_at`: every entry still passes its check against the entries in front of it.
* `Grown.of_prefix`: every earlier state of the log was grown the same way.
* `Grown.number_at`, `Grown.number_inj`: where the check gives an entry the next number, the entries
  are numbered from 1 without gaps, and no two share a number.
-/

namespace Harvest.Lib

variable {α : Type*} {next : List α → α → Prop}

/-- The log was grown entry by entry. -/
inductive Grown (next : List α → α → Prop) : List α → Prop
  | nil : Grown next []
  | concat {log : List α} {entry : α} : Grown next log → next log entry →
      Grown next (log ++ [entry])

namespace Grown

theorem of_concat {log : List α} {entry : α} (h : Grown next (log ++ [entry])) :
    Grown next log ∧ next log entry := by
  generalize hall : log ++ [entry] = all at h
  cases h with
  | nil => simp at hall
  | concat hgrown hnext =>
    obtain ⟨rfl, hentry⟩ := List.append_inj' hall rfl
    obtain rfl := List.singleton_inj.mp hentry
    exact ⟨hgrown, hnext⟩

/-- **Earlier states.** -/
theorem of_prefix {log earlier : List α} (h : Grown next log) (hfront : earlier <+: log) :
    Grown next earlier := by
  induction h with
  | nil =>
    obtain rfl := List.prefix_nil.mp hfront
    exact .nil
  | concat hgrown hnext ih =>
    rcases List.prefix_concat_iff.mp hfront with rfl | hshorter
    · exact .concat hgrown hnext
    · exact ih hshorter

/-- **Every entry passed its check.** -/
theorem next_at {log : List α} {entry : α} {i : ℕ} (h : Grown next log)
    (hentry : log[i]? = some entry) : next (log.take i) entry := by
  obtain ⟨hlt, rfl⟩ := List.getElem?_eq_some_iff.mp hentry
  have hshort : Grown next (log.take (i + 1)) := h.of_prefix (List.take_prefix _ _)
  rw [List.take_succ_eq_append_getElem hlt] at hshort
  exact hshort.of_concat.2

/-- Entries are numbered from 1 without gaps. -/
theorem number_at {number : α → ℕ} {log : List α} {entry : α} {i : ℕ} (h : Grown next log)
    (hnumber : ∀ log entry, next log entry → number entry = log.length + 1)
    (hentry : log[i]? = some entry) : number entry = i + 1 := by
  have hlt := (List.getElem?_eq_some_iff.mp hentry).1
  rw [hnumber _ _ (h.next_at hentry), List.length_take, Nat.min_eq_left (Nat.le_of_lt hlt)]

/-- No two entries have the same number. -/
theorem number_inj {number : α → ℕ} {log : List α} {a b : α} (h : Grown next log)
    (hnumber : ∀ log entry, next log entry → number entry = log.length + 1) (ha : a ∈ log)
    (hb : b ∈ log) (heq : number a = number b) : a = b := by
  obtain ⟨i, hi⟩ := List.getElem?_of_mem ha
  obtain ⟨j, hj⟩ := List.getElem?_of_mem hb
  have hij : i = j := by
    have hia := h.number_at hnumber hi
    have hjb := h.number_at hnumber hj
    omega
  subst hij
  exact Option.some.inj (hi.symm.trans hj)

/-- The last entry has the length of the log as its number. -/
theorem number_getLast? {number : α → ℕ} {log : List α} (h : Grown next log)
    (hnumber : ∀ log entry, next log entry → number entry = log.length + 1) :
    log.getLast?.map number = if log = [] then none else some log.length := by
  cases h with
  | nil => rfl
  | concat hgrown hnext => simp [hnumber _ _ hnext]

end Grown

end Harvest.Lib
