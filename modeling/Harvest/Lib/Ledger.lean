import Mathlib.Data.List.Induction

/-!
# Ledgers of open items

A log whose entries open and close items. The ledger of a log is kept entry by entry; an item that
is closed can be opened again, an item that is open can be opened once more.

Proved here:
* `ledger_eq_some`: the ledger holds an item with the entry that opened it last.
* `exists_ledger_iff`: the ledger holds exactly the items that some entry opened and no later one
  closed.
-/

namespace Harvest.Lib

section Ledger

variable {ε κ ν : Type*} (opens : ε → κ → Option ν) (closes : ε → κ → Bool)

/-- The ledger after the entry at position `n`. -/
def post (book : κ → Option (ν × ℕ)) (n : ℕ) (entry : ε) (k : κ) : Option (ν × ℕ) :=
  match opens entry k with
  | some v => some (v, n)
  | none => if closes entry k then none else book k

def ledger (log : List ε) : κ → Option (ν × ℕ) :=
  log.zipIdx.foldl (fun book entry => post opens closes book entry.2 entry.1) fun _ => none

/-- Some entry opened the item, and no later one closed it. -/
def Open (log : List ε) (k : κ) : Prop :=
  ∃ (i : ℕ) (v : ν), (∃ entry, log[i]? = some entry ∧ opens entry k = some v) ∧
    ∀ j entry, i < j → log[j]? = some entry → closes entry k = false

/-- The entry at `i` opened the item, and no later one touched it. -/
def LastOpened (log : List ε) (k : κ) (v : ν) (i : ℕ) : Prop :=
  (∃ entry, log[i]? = some entry ∧ opens entry k = some v) ∧
    ∀ j entry, i < j → log[j]? = some entry → opens entry k = none ∧ closes entry k = false

variable {opens closes}

@[simp] theorem ledger_nil (k : κ) : ledger opens closes [] k = none := rfl

theorem ledger_concat (log : List ε) (entry : ε) : ledger opens closes (log ++ [entry]) =
    post opens closes (ledger opens closes log) log.length entry := by
  simp only [ledger, List.zipIdx_append, List.foldl_append]
  rw [Nat.zero_add]
  rfl

/-- A log that grows by one entry has the old positions and the new one. -/
theorem getElem?_concat_eq_some {log : List ε} {entry x : ε} {i : ℕ} :
    (log ++ [entry])[i]? = some x ↔ log[i]? = some x ∨ i = log.length ∧ x = entry := by
  rcases Nat.lt_trichotomy i log.length with h | h | h
  · rw [List.getElem?_append_left h]
    exact ⟨Or.inl, fun hx => hx.resolve_right fun hi => absurd hi.1 (Nat.ne_of_lt h)⟩
  · subst h
    simp [eq_comm]
  · have hnone : log[i]? = none := List.getElem?_eq_none (Nat.le_of_lt h)
    have hnone' : (log ++ [entry])[i]? = none := by
      refine List.getElem?_eq_none ?_
      rw [List.length_append]
      exact h
    rw [hnone, hnone']
    simp [Nat.ne_of_gt h]

theorem lt_length_of_getElem?_eq_some {log : List ε} {x : ε} {i : ℕ} (h : log[i]? = some x) :
    i < log.length :=
  (List.getElem?_eq_some_iff.mp h).1

theorem lastOpened_concat {log : List ε} {entry : ε} {k : κ} {v : ν} {i : ℕ} :
    LastOpened opens closes (log ++ [entry]) k v i ↔
      (i = log.length ∧ opens entry k = some v) ∨
      (opens entry k = none ∧ closes entry k = false ∧ LastOpened opens closes log k v i) := by
  constructor
  · rintro ⟨⟨x, hx, hopens⟩, hlater⟩
    rcases getElem?_concat_eq_some.mp hx with hold | ⟨rfl, rfl⟩
    · have hlt := lt_length_of_getElem?_eq_some hold
      obtain ⟨hnot, hopen⟩ := hlater _ entry hlt (getElem?_concat_eq_some.mpr (.inr ⟨rfl, rfl⟩))
      refine .inr ⟨hnot, hopen, ⟨x, hold, hopens⟩, fun j y hj hy => ?_⟩
      exact hlater j y hj (getElem?_concat_eq_some.mpr (.inl hy))
    · exact .inl ⟨rfl, hopens⟩
  · rintro (⟨rfl, hopens⟩ | ⟨hnot, hopen, ⟨x, hx, hopens⟩, hlater⟩)
    · refine ⟨⟨entry, getElem?_concat_eq_some.mpr (.inr ⟨rfl, rfl⟩), hopens⟩, fun j y hj hy => ?_⟩
      have hlt := lt_length_of_getElem?_eq_some hy
      rw [List.length_append, List.length_singleton] at hlt
      omega
    · refine ⟨⟨x, getElem?_concat_eq_some.mpr (.inl hx), hopens⟩, fun j y hj hy => ?_⟩
      rcases getElem?_concat_eq_some.mp hy with hold | ⟨-, rfl⟩
      · exact hlater j y hj hold
      · exact ⟨hnot, hopen⟩

/-- **The ledger is what was opened last and not touched since.** -/
theorem ledger_eq_some {log : List ε} {k : κ} {v : ν} {i : ℕ} :
    ledger opens closes log k = some (v, i) ↔ LastOpened opens closes log k v i := by
  induction log using List.reverseRecOn with
  | nil => simp [LastOpened]
  | append_singleton log entry ih =>
    rw [ledger_concat, lastOpened_concat, ← ih, post]
    cases hopens : opens entry k with
    | some w =>
      simp only [Option.some.injEq, Prod.mk.injEq, reduceCtorEq, false_and, or_false]
      exact ⟨fun h => ⟨h.2.symm, h.1⟩, fun h => ⟨h.2, h.1.symm⟩⟩
    | none => cases closes entry k <;> simp

theorem open_concat {log : List ε} {entry : ε} {k : κ} : Open opens closes (log ++ [entry]) k ↔
    (∃ v, opens entry k = some v) ∨ (closes entry k = false ∧ Open opens closes log k) := by
  constructor
  · rintro ⟨i, v, ⟨x, hx, hopens⟩, hlater⟩
    rcases getElem?_concat_eq_some.mp hx with hold | ⟨rfl, rfl⟩
    · have hlt := lt_length_of_getElem?_eq_some hold
      refine .inr ⟨hlater _ entry hlt (getElem?_concat_eq_some.mpr (.inr ⟨rfl, rfl⟩)), i, v,
        ⟨x, hold, hopens⟩, fun j y hj hy => ?_⟩
      exact hlater j y hj (getElem?_concat_eq_some.mpr (.inl hy))
    · exact .inl ⟨v, hopens⟩
  · rintro (⟨v, hopens⟩ | ⟨hopen, i, v, ⟨x, hx, hopens⟩, hlater⟩)
    · refine ⟨log.length, v, ⟨entry, getElem?_concat_eq_some.mpr (.inr ⟨rfl, rfl⟩), hopens⟩,
        fun j y hj hy => ?_⟩
      have hlt := lt_length_of_getElem?_eq_some hy
      rw [List.length_append, List.length_singleton] at hlt
      omega
    · refine ⟨i, v, ⟨x, getElem?_concat_eq_some.mpr (.inl hx), hopens⟩, fun j y hj hy => ?_⟩
      rcases getElem?_concat_eq_some.mp hy with hold | ⟨-, rfl⟩
      · exact hlater j y hj hold
      · exact hopen

/-- **The ledger holds exactly the open items.** -/
theorem exists_ledger_iff {log : List ε} {k : κ} :
    (∃ v i, ledger opens closes log k = some (v, i)) ↔ Open opens closes log k := by
  induction log using List.reverseRecOn with
  | nil => simp [Open]
  | append_singleton log entry ih =>
    rw [ledger_concat, open_concat, ← ih, post]
    cases hopens : opens entry k with
    | some w => simp
    | none => cases closes entry k <;> simp

end Ledger

end Harvest.Lib
