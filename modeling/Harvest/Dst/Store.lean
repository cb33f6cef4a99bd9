import Mathlib.Data.List.Basic
import Mathlib.Algebra.Order.Group.Int
import Mathlib.Tactic.SplitIfs

/-!
# The activity claim store

Model of the in-memory oracle in `dst/store.rs`. A worker claims a task row, writes to it under
its claim, releases or completes it; a scan finds the rows of dead workers and a requeue takes
them back. A claim is the pair of a worker and an attempt number, and a release lowers that
number, so a pair can be granted again.

Proved here:
* `apply_moves`: what one operation does to the row of a task.
* `Tallied.run`: the row follows from the operations that took effect.
* `Lost.run`: an attempt that a requeue took stays out of reach.
* `claim_epoch_fences_every_stale_owner`: the contract of the fence.
-/

namespace Harvest.Dst

/-- The predicate that guards an owner write. -/
inductive Fencing
  | claimEpoch
  | stateOnly
deriving DecidableEq, Repr

inductive TaskState
  | pending
  | running
  | completed
deriving DecidableEq, Repr

/-- One claim of a task row. It is the fencing token. -/
structure Claim where
  task : Nat
  worker : String
  attempt : Int
deriving DecidableEq, Repr

/-- A row that the orphan scan found. -/
structure Orphan where
  task : Nat
  worker : String
  crashStrikes : Int
deriving DecidableEq, Repr

structure Row where
  state : TaskState
  worker : Option String
  attempt : Int
  crashStrikes : Int
  started : Bool
  heartbeatStamped : Bool
  heartbeat : Option UInt64
  output : Option UInt64
deriving DecidableEq, Repr

namespace Row

def pending : Row := ⟨.pending, none, 0, 0, false, false, none, none⟩

/-- The columns that a claim sets. -/
def claimed (row : Row) (worker : String) : Row :=
  { row with
    state := .running, worker := some worker, attempt := row.attempt + 1, started := true }

/-- The columns that a requeue sets. It keeps `attempt` and `heartbeat`. -/
def requeued (row : Row) (crashStrikes : Int) : Row :=
  { row with
    state := .pending, worker := none, crashStrikes := crashStrikes + 1, started := false,
    heartbeatStamped := false }

end Row

inductive Op
  | beat (worker : String) (atMs : Nat)
  | claim (worker : String) (task : Nat)
  | start (claim : Claim)
  | heartbeat (claim : Claim) (tag : UInt64)
  | release (claim : Claim)
  | complete (claim : Claim) (tag : UInt64)
  | scan (nowMs : Nat)
  | requeue (orphan : Orphan) (nowMs : Nat)
deriving DecidableEq, Repr

inductive WriteOutcome
  | applied
  | leaseLost
deriving DecidableEq, Repr

inductive Outcome
  | beat
  | claimed (claim : Option Claim)
  | write (outcome : WriteOutcome)
  | orphans (found : List Orphan)
  | requeued (moved : Bool)
deriving DecidableEq, Repr

structure OracleStore where
  fencing : Fencing
  staleAfterMs : Nat
  rows : List Row
  beats : String → Option Nat

def u64Max : Nat := 18446744073709551615

def i32Max : Int := 2147483647

namespace OracleStore

def new (tasks : Nat) (fencing : Fencing) (staleAfterMs : Nat) : OracleStore :=
  ⟨fencing, staleAfterMs, List.replicate tasks .pending, fun _ => none⟩

/-- No liveness row is newer than `nowMs - staleAfterMs`. -/
def isDead (s : OracleStore) (worker : String) (nowMs : Nat) : Bool :=
  match s.beats worker with
  | none => true
  | some beat => min (beat + s.staleAfterMs) u64Max ≤ nowMs

/-- The guard of an owner write. -/
def accepts (s : OracleStore) (row : Row) (claim : Claim) : Bool :=
  match s.fencing with
  | .claimEpoch =>
    row.state = .running && row.worker = some claim.worker && row.attempt = claim.attempt
  | .stateOnly => row.state = .running

/-- `none` is a panic: an index outside the rows, or an `i32` that overflows. -/
def claim (s : OracleStore) (worker : String) (task : Nat) : Option (Outcome × OracleStore) :=
  (s.rows[task]?).bind fun row =>
    if row.state ≠ .pending then some (.claimed none, s)
    else if row.attempt = i32Max then none
    else
      some (.claimed (some ⟨task, worker, row.attempt + 1⟩),
        { s with rows := s.rows.set task (row.claimed worker) })

def ownerWrite (s : OracleStore) (claim : Claim) (write : Row → Row) :
    Option (Outcome × OracleStore) :=
  (s.rows[claim.task]?).map fun row =>
    if ! s.accepts row claim then (.write .leaseLost, s)
    else (.write .applied, { s with rows := s.rows.set claim.task (write row) })

/-- The running rows of dead workers, in task order. -/
def scan (s : OracleStore) (nowMs : Nat) : Outcome :=
  .orphans (s.rows.zipIdx.filterMap fun (row, task) =>
    if row.state = .running then
      row.worker.bind fun worker =>
        if s.isDead worker nowMs then some ⟨task, worker, row.crashStrikes⟩ else none
    else none)

def requeue (s : OracleStore) (orphan : Orphan) (nowMs : Nat) : Option (Outcome × OracleStore) :=
  (s.rows[orphan.task]?).bind fun row =>
    if row.state = .running ∧ row.worker = some orphan.worker ∧
        row.crashStrikes = orphan.crashStrikes ∧ s.isDead orphan.worker nowMs then
      if orphan.crashStrikes = i32Max then none
      else
        some (.requeued true,
          { s with rows := s.rows.set orphan.task (row.requeued orphan.crashStrikes) })
    else some (.requeued false, s)

/-- What an owner write does to the row. -/
def write : Op → Row → Row
  | .heartbeat _ tag, row => { row with heartbeat := some tag, heartbeatStamped := true }
  | .release _, row =>
    { row with
      state := .pending, worker := none, attempt := max (row.attempt - 1) 0, started := false,
      heartbeatStamped := false }
  | .complete _ tag, row => { row with state := .completed, output := some tag, heartbeat := none }
  | _, row => row

def apply (s : OracleStore) (op : Op) : Option (Outcome × OracleStore) :=
  match op with
  | .beat worker atMs => some (.beat, { s with beats := Function.update s.beats worker (some atMs) })
  | .claim worker task => s.claim worker task
  | .start claim => s.ownerWrite claim (write (.start claim))
  | .heartbeat claim tag => s.ownerWrite claim (write (.heartbeat claim tag))
  | .release claim => s.ownerWrite claim (write (.release claim))
  | .complete claim tag => s.ownerWrite claim (write (.complete claim tag))
  | .scan nowMs => some (s.scan nowMs, s)
  | .requeue orphan nowMs => s.requeue orphan nowMs

/-- A run: the operations with their outcomes, and the store they leave. -/
def run (s : OracleStore) : List Op → Option (List (Op × Outcome) × OracleStore)
  | [] => some ([], s)
  | op :: rest =>
    (s.apply op).bind fun (outcome, next) =>
      (run next rest).map fun (trace, last) => ((op, outcome) :: trace, last)

end OracleStore

/-! ## What took effect on a row -/

/-- How an operation that took effect moved the row. -/
inductive Kind
  | granted
  | wrote
  | released
  | completed
  | requeued
deriving DecidableEq, Repr

namespace Op

/-- The claim an owner write is made with. -/
def owner : Op → Option Claim
  | .start c | .heartbeat c _ | .release c | .complete c _ => some c
  | _ => none

/-- How an applied owner write moves its row. -/
def kind : Op → Kind
  | .release _ => .released
  | .complete _ _ => .completed
  | _ => .wrote

end Op

/-- What an operation with this outcome did to the row of `task`, if it did anything. -/
def effect (task : Nat) (op : Op) (outcome : Outcome) : Option Kind :=
  match op, outcome with
  | .claim _ t, .claimed (some _) => if t = task then some .granted else none
  | .requeue orphan _, .requeued true => if orphan.task = task then some .requeued else none
  | op, .write .applied =>
    op.owner.bind fun claim => if claim.task = task then some op.kind else none
  | _, _ => none

/-- How the columns that the fence reads change. -/
def Moves (row row' : Row) : Option Kind → Prop
  | none => row' = row
  | some .granted => row.state = .pending ∧ row'.state = .running ∧
      row'.attempt = row.attempt + 1 ∧ row'.crashStrikes = row.crashStrikes
  | some .wrote => row.state = .running ∧ row'.state = .running ∧
      row'.attempt = row.attempt ∧ row'.crashStrikes = row.crashStrikes
  | some .released => row.state = .running ∧ row'.state = .pending ∧
      row'.attempt = max (row.attempt - 1) 0 ∧ row'.crashStrikes = row.crashStrikes
  | some .completed => row.state = .running ∧ row'.state = .completed ∧
      row'.attempt = row.attempt ∧ row'.crashStrikes = row.crashStrikes
  | some .requeued => row.state = .running ∧ row'.state = .pending ∧
      row'.attempt = row.attempt ∧ row'.crashStrikes = row.crashStrikes + 1

namespace OracleStore

variable {s s' : OracleStore} {op : Op} {outcome : Outcome}

/-- An owner write is lost and changes nothing, or it is applied under its guard. -/
theorem apply_owner {c : Claim} (howner : op.owner = some c)
    (h : s.apply op = some (outcome, s')) :
    ∃ row, s.rows[c.task]? = some row ∧
      (s.accepts row c = false ∧ outcome = .write .leaseLost ∧ s' = s ∨
        s.accepts row c = true ∧ outcome = .write .applied ∧
          s' = { s with rows := s.rows.set c.task (write op row) }) := by
  have hwrite : s.ownerWrite c (write op) = some (outcome, s') := by
    cases op <;> cases howner <;> exact h
  obtain ⟨row, hrow, heq⟩ := Option.map_eq_some_iff.mp hwrite
  refine ⟨row, hrow, ?_⟩
  cases haccepts : s.accepts row c with
  | false =>
    rw [haccepts] at heq
    obtain ⟨rfl, rfl⟩ := Prod.mk.inj heq
    exact Or.inl ⟨rfl, rfl, rfl⟩
  | true =>
    rw [haccepts] at heq
    obtain ⟨rfl, rfl⟩ := Prod.mk.inj heq
    exact Or.inr ⟨rfl, rfl, rfl⟩

theorem running_of_accepts {row : Row} {c : Claim} (h : s.accepts row c = true) :
    row.state = .running := by
  unfold accepts at h
  cases hfencing : s.fencing with
  | claimEpoch =>
    simp only [hfencing, Bool.and_eq_true, decide_eq_true_eq] at h
    exact h.1.1
  | stateOnly => simpa [hfencing] using h

theorem moves_write (howner : op.owner.isSome) {row : Row} (hrunning : row.state = .running) :
    Moves row (write op row) (some op.kind) := by
  cases op <;> simp_all [Moves, write, Op.kind, Op.owner]

/-- What an operation did to the rows: nothing, or one move of one row. -/
inductive Applied (s s' : OracleStore) (op : Op) (outcome : Outcome) : Prop
  | kept (hrows : s'.rows = s.rows) (heffect : ∀ task, effect task op outcome = none)
  | moved (t : Nat) (old new : Row) (kind : Kind) (hold : s.rows[t]? = some old)
      (hrows : s'.rows = s.rows.set t new) (hmoves : Moves old new (some kind))
      (heffect : ∀ task, effect task op outcome = if t = task then some kind else none)

theorem apply_cases (h : s.apply op = some (outcome, s')) :
    s'.fencing = s.fencing ∧ Applied s s' op outcome := by
  cases howner : op.owner with
  | some c =>
    obtain ⟨old, hold, ⟨-, rfl, rfl⟩ | ⟨haccepts, rfl, rfl⟩⟩ := apply_owner howner h
    · refine ⟨rfl, .kept rfl fun task => ?_⟩
      cases op <;> rfl
    · refine ⟨rfl, .moved c.task old _ op.kind hold rfl
        (moves_write (by simp [howner]) (running_of_accepts haccepts)) fun task => ?_⟩
      cases op <;> cases howner <;> rfl
  | none =>
    cases op with
    | beat worker atMs =>
      cases h
      exact ⟨rfl, .kept rfl fun _ => rfl⟩
    | claim worker t =>
      obtain ⟨old, hold, h⟩ := Option.bind_eq_some_iff.mp h
      split_ifs at h with hstate
      · cases h
        exact ⟨rfl, .kept rfl fun _ => rfl⟩
      · cases h
        exact ⟨rfl, .moved t old _ .granted hold rfl ⟨not_not.mp hstate, rfl, rfl, rfl⟩
          fun _ => rfl⟩
    | scan nowMs =>
      cases h
      exact ⟨rfl, .kept rfl fun _ => rfl⟩
    | requeue orphan nowMs =>
      obtain ⟨old, hold, h⟩ := Option.bind_eq_some_iff.mp h
      split_ifs at h with hmatch
      · cases h
        exact ⟨rfl, .moved orphan.task old _ .requeued hold rfl
          ⟨hmatch.1, rfl, rfl, by rw [hmatch.2.2.1]; rfl⟩ fun _ => rfl⟩
      · cases h
        exact ⟨rfl, .kept rfl fun _ => rfl⟩
    | _ => cases howner

/-- **One operation** moves the row of a task as its effect says. -/
theorem apply_moves (h : s.apply op = some (outcome, s')) {task : Nat} {row : Row}
    (hrow : s.rows[task]? = some row) :
    ∃ row', s'.rows[task]? = some row' ∧ Moves row row' (effect task op outcome) := by
  cases (apply_cases h).2 with
  | kept hrows heffect =>
    rw [hrows, heffect]
    exact ⟨row, hrow, rfl⟩
  | moved t old new kind hold hrows hmoves heffect =>
    rw [hrows, heffect]
    by_cases ht : t = task
    · subst ht
      cases hold.symm.trans hrow
      have hlt := (List.getElem?_eq_some_iff.mp hrow).1
      refine ⟨new, by simp [hlt], ?_⟩
      rwa [if_pos rfl]
    · refine ⟨row, by rw [List.getElem?_set_ne ht]; exact hrow, ?_⟩
      rw [if_neg ht]
      rfl

/-! ## Runs -/

/-- How often an operation of this kind took effect on the row of `task`. -/
def count (task : Nat) (kind : Kind) (trace : List (Op × Outcome)) : Nat :=
  trace.countP fun (op, outcome) => effect task op outcome = some kind

theorem run_cons {rest : List Op} {trace : List (Op × Outcome)} {last : OracleStore}
    (h : s.run (op :: rest) = some (trace, last)) :
    ∃ outcome next tail, s.apply op = some (outcome, next) ∧ next.run rest = some (tail, last) ∧
      trace = (op, outcome) :: tail := by
  obtain ⟨⟨outcome, next⟩, happly, h⟩ := Option.bind_eq_some_iff.mp h
  obtain ⟨⟨tail, last'⟩, hrest, heq⟩ := Option.map_eq_some_iff.mp h
  obtain ⟨rfl, rfl⟩ := Prod.mk.inj heq
  exact ⟨outcome, next, tail, happly, hrest, rfl⟩

theorem run_fencing {ops : List Op} {trace : List (Op × Outcome)} {last : OracleStore}
    (h : s.run ops = some (trace, last)) : last.fencing = s.fencing := by
  induction ops generalizing s trace with
  | nil =>
    cases h
    rfl
  | cons op rest ih =>
    obtain ⟨outcome, next, tail, happly, hrest, -⟩ := run_cons h
    exact (ih hrest).trans (apply_cases happly).1

/-- **Run rule.** What every move of a row preserves, a run preserves. -/
theorem run_invariant {P : Row → Prop}
    (hmoves : ∀ row row' kind, Moves row row' kind → P row → P row') {task : Nat}
    {ops : List Op} {trace : List (Op × Outcome)} {last : OracleStore} {row : Row}
    (hrun : s.run ops = some (trace, last)) (hrow : s.rows[task]? = some row) (hP : P row) :
    ∃ row', last.rows[task]? = some row' ∧ P row' := by
  induction ops generalizing s trace row with
  | nil =>
    cases hrun
    exact ⟨row, hrow, hP⟩
  | cons op rest ih =>
    obtain ⟨outcome, next, tail, happly, hrest, -⟩ := run_cons hrun
    obtain ⟨row', hrow', hmove⟩ := apply_moves happly hrow
    exact ih hrest hrow' (hmoves row row' _ hmove hP)

/-- An attempt is never negative, and the attempt of a running row counts its claim. -/
structure Counted (row : Row) : Prop where
  nonneg : 0 ≤ row.attempt
  running : row.state = .running → 1 ≤ row.attempt

theorem Counted.moves {row row' : Row} {kind : Option Kind} (h : Counted row)
    (hmoves : Moves row row' kind) : Counted row' := by
  have hnonneg := h.nonneg
  have hrunning := h.running
  match kind, hmoves with
  | none, hmoves => exact hmoves ▸ h
  | some .granted, ⟨_, _, hattempt, _⟩ => exact ⟨by omega, fun _ => by omega⟩
  | some .wrote, ⟨hstate, _, hattempt, _⟩ =>
    have := hrunning hstate
    exact ⟨by omega, fun _ => by omega⟩
  | some .released, ⟨_, hstate, hattempt, _⟩ =>
    exact ⟨by omega, fun h => by rw [hstate] at h; cases h⟩
  | some .completed, ⟨_, hstate, hattempt, _⟩ =>
    exact ⟨by omega, fun h => by rw [hstate] at h; cases h⟩
  | some .requeued, ⟨_, hstate, hattempt, _⟩ =>
    exact ⟨by omega, fun h => by rw [hstate] at h; cases h⟩

/-- The row follows from the operations that took effect since `row`. -/
structure Tallied (task : Nat) (trace : List (Op × Outcome)) (row row' : Row) : Prop where
  attempt : row'.attempt = row.attempt + count task .granted trace - count task .released trace
  strikes : row'.crashStrikes = row.crashStrikes + count task .requeued trace
  completes : (if row.state = .completed then 1 else 0) + count task .completed trace =
    if row'.state = .completed then 1 else 0

theorem count_cons (task : Nat) (kind : Kind) (op : Op) (outcome : Outcome)
    (trace : List (Op × Outcome)) :
    count task kind ((op, outcome) :: trace) =
      count task kind trace + if effect task op outcome = some kind then 1 else 0 := by
  simp [count, List.countP_cons]

/-- One operation, then the rest. -/
theorem Tallied.cons {task : Nat} {trace : List (Op × Outcome)} {row mid row' : Row}
    (hcounted : Counted row) (hmoves : Moves row mid (effect task op outcome))
    (h : Tallied task trace mid row') : Tallied task ((op, outcome) :: trace) row row' := by
  obtain ⟨hattempt, hstrikes, hcompletes⟩ := h
  have hrunning := hcounted.running
  constructor <;> simp only [count_cons]
  all_goals generalize effect task op outcome = kind at hmoves
  case attempt =>
    match kind, hmoves with
    | none, hmoves =>
      obtain rfl : mid = row := hmoves
      simpa using hattempt
    | some .granted, ⟨_, _, h, _⟩ => simp [hattempt, h]; omega
    | some .wrote, ⟨_, _, h, _⟩ => simpa [h] using hattempt
    | some .released, ⟨hold, _, h, _⟩ =>
      have := hrunning hold
      simp [hattempt, h]
      omega
    | some .completed, ⟨_, _, h, _⟩ => simpa [h] using hattempt
    | some .requeued, ⟨_, _, h, _⟩ => simpa [h] using hattempt
  case strikes =>
    match kind, hmoves with
    | none, hmoves =>
      obtain rfl : mid = row := hmoves
      simpa using hstrikes
    | some .granted, ⟨_, _, _, h⟩ => simpa [h] using hstrikes
    | some .wrote, ⟨_, _, _, h⟩ => simpa [h] using hstrikes
    | some .released, ⟨_, _, _, h⟩ => simpa [h] using hstrikes
    | some .completed, ⟨_, _, _, h⟩ => simpa [h] using hstrikes
    | some .requeued, ⟨_, _, _, h⟩ => simp [hstrikes, h]; omega
  case completes =>
    match kind, hmoves with
    | none, hmoves =>
      obtain rfl : mid = row := hmoves
      simpa using hcompletes
    | some .granted, ⟨hold, hnew, _, _⟩ => simpa [hold, hnew] using hcompletes
    | some .wrote, ⟨hold, hnew, _, _⟩ => simpa [hold, hnew] using hcompletes
    | some .released, ⟨hold, hnew, _, _⟩ => simpa [hold, hnew] using hcompletes
    | some .completed, ⟨hold, hnew, _, _⟩ =>
      simp only [hnew, if_true] at hcompletes
      simpa [hold, Nat.add_comm] using hcompletes
    | some .requeued, ⟨hold, hnew, _, _⟩ => simpa [hold, hnew] using hcompletes

theorem Tallied.run {task : Nat} {ops : List Op} {trace : List (Op × Outcome)}
    {last : OracleStore} {row : Row} (hcounted : Counted row)
    (hrun : s.run ops = some (trace, last)) (hrow : s.rows[task]? = some row) :
    ∃ row', last.rows[task]? = some row' ∧ Tallied task trace row row' := by
  induction ops generalizing s trace row with
  | nil =>
    cases hrun
    exact ⟨row, hrow, by simp [count], by simp [count], by simp [count]⟩
  | cons op rest ih =>
    obtain ⟨outcome, next, tail, happly, hrest, rfl⟩ := run_cons hrun
    obtain ⟨mid, hmid, hmoves⟩ := apply_moves happly hrow
    obtain ⟨row', hrow', htallied⟩ := ih (hcounted.moves hmoves) hrest hmid
    exact ⟨row', hrow', htallied.cons hcounted hmoves⟩

/-! ## The fence -/

/-- A requeue took the row from attempt `n`: the row is past it once it runs again. -/
structure Lost (n : Int) (row : Row) : Prop where
  le : n ≤ row.attempt
  running : row.state = .running → n < row.attempt

theorem Lost.moves {n : Int} {row row' : Row} {kind : Option Kind} (hmoves : Moves row row' kind)
    (h : Lost n row) : Lost n row' := by
  have hle := h.le
  have hrunning := h.running
  match kind, hmoves with
  | none, hmoves => exact hmoves ▸ h
  | some .granted, ⟨_, _, hattempt, _⟩ => exact ⟨by omega, fun _ => by omega⟩
  | some .wrote, ⟨hstate, _, hattempt, _⟩ =>
    have := hrunning hstate
    exact ⟨by omega, fun _ => by omega⟩
  | some .released, ⟨hold, hstate, hattempt, _⟩ =>
    -- A release gives back only what a later claim took.
    have := hrunning hold
    exact ⟨by omega, fun h => by rw [hstate] at h; cases h⟩
  | some .completed, ⟨_, hstate, hattempt, _⟩ =>
    exact ⟨by omega, fun h => by rw [hstate] at h; cases h⟩
  | some .requeued, ⟨_, hstate, hattempt, _⟩ =>
    exact ⟨by omega, fun h => by rw [hstate] at h; cases h⟩

/-- A completed row never changes. -/
theorem completed_run {task : Nat} {ops : List Op} {trace : List (Op × Outcome)}
    {last : OracleStore} {row : Row} (hcompleted : row.state = .completed)
    (hrun : s.run ops = some (trace, last)) (hrow : s.rows[task]? = some row) :
    last.rows[task]? = some row := by
  have hstays : ∀ old new kind, Moves old new kind → old = row → new = row := by
    rintro _ new kind hmoves rfl
    match kind, hmoves with
    | none, hmoves => exact hmoves
    | some .granted, ⟨hold, _⟩ | some .wrote, ⟨hold, _⟩ | some .released, ⟨hold, _⟩
    | some .completed, ⟨hold, _⟩ | some .requeued, ⟨hold, _⟩ =>
      rw [hcompleted] at hold
      cases hold
  obtain ⟨row', hrow', rfl⟩ := run_invariant hstays hrun hrow rfl
  exact hrow'

/-- A write with an attempt that a requeue took is rejected. -/
theorem leaseLost_of_lost {c : Claim} (hfencing : s.fencing = .claimEpoch) {row : Row}
    (hrow : s.rows[c.task]? = some row) (hlost : Lost c.attempt row) (howner : op.owner = some c) :
    s.apply op = some (.write .leaseLost, s) := by
  have hrejects : s.accepts row c = false := by
    cases haccepts : s.accepts row c with
    | false => rfl
    | true =>
      have hrunning := running_of_accepts haccepts
      simp only [accepts, hfencing, Bool.and_eq_true, decide_eq_true_eq] at haccepts
      have := hlost.running hrunning
      omega
  have hwrite : s.ownerWrite c (write op) = some (.write .leaseLost, s) := by
    simp [ownerWrite, hrow, hrejects]
  cases op <;> cases howner <;> exact hwrite

/-- A requeue that took effect while a claim held the row takes the row from that claim. -/
theorem lost_of_requeue {c : Claim} {orphan : Orphan} {nowMs : Nat}
    (hfencing : s.fencing = .claimEpoch) {row : Row} (hrow : s.rows[c.task]? = some row)
    (hheld : s.accepts row c = true) (htask : orphan.task = c.task)
    (h : s.apply (.requeue orphan nowMs) = some (.requeued true, s')) :
    s'.fencing = .claimEpoch ∧ ∃ row', s'.rows[c.task]? = some row' ∧ Lost c.attempt row' := by
  obtain ⟨row', hrow', hmoves⟩ := apply_moves h hrow
  have heffect : effect c.task (.requeue orphan nowMs) (.requeued true) = some .requeued := by
    simp [effect, htask]
  rw [heffect] at hmoves
  obtain ⟨-, hstate, hattempt, -⟩ := hmoves
  simp only [accepts, hfencing, Bool.and_eq_true, decide_eq_true_eq] at hheld
  refine ⟨(apply_cases h).1.trans hfencing, row', hrow', by omega, fun hrunning => ?_⟩
  rw [hstate] at hrunning
  cases hrunning

/-- **The claim epoch fences every stale owner.** In every run of a store with the claim epoch:
once a requeue took a row from a claim, each later write with that claim is rejected and changes
nothing; a row is completed at most once and then never changes; its attempt is the claims
granted less the releases applied, and its strikes are the requeues applied. -/
theorem claim_epoch_fences_every_stale_owner (tasks staleAfterMs : Nat) (ops : List Op)
    (trace : List (Op × Outcome)) (store : OracleStore)
    (hrun : (new tasks .claimEpoch staleAfterMs).run ops = some (trace, store)) :
    (∀ (c : Claim) row orphan nowMs taken later trace' last write,
      store.rows[c.task]? = some row → store.accepts row c = true → orphan.task = c.task →
      store.apply (.requeue orphan nowMs) = some (.requeued true, taken) →
      taken.run later = some (trace', last) → write.owner = some c →
      last.apply write = some (.write .leaseLost, last)) ∧
    (∀ task < tasks, count task .completed trace ≤ 1) ∧
    (∀ (task : Nat) (row : Row), store.rows[task]? = some row → row.state = .completed →
      ∀ later trace' last, store.run later = some (trace', last) → last.rows[task]? = some row) ∧
    ∀ task < tasks, ∃ row, store.rows[task]? = some row ∧
      row.attempt = count task .granted trace - count task .released trace ∧
      row.crashStrikes = count task .requeued trace := by
  have hinit (task : Nat) (htask : task < tasks) :
      (new tasks .claimEpoch staleAfterMs).rows[task]? = some .pending := by
    simp [new, htask]
  have hcounted : Counted .pending := ⟨by decide, by simp [Row.pending]⟩
  have hfencing : store.fencing = .claimEpoch := run_fencing hrun
  refine ⟨?_, ?_, ?_, ?_⟩
  · intro c row orphan nowMs taken later trace' last write hrow hheld htask hrequeue hlater howner
    obtain ⟨htaken, row', hrow', hlost⟩ := lost_of_requeue hfencing hrow hheld htask hrequeue
    obtain ⟨row'', hrow'', hlost⟩ := run_invariant
      (fun old new kind hmoves => Lost.moves hmoves) hlater hrow' hlost
    exact leaseLost_of_lost ((run_fencing hlater).trans htaken) hrow'' hlost howner
  · intro task htask
    obtain ⟨row, -, htallied⟩ := Tallied.run hcounted hrun (hinit task htask)
    have := htallied.completes
    simp only [Row.pending, reduceCtorEq, if_false] at this
    split_ifs at this <;> omega
  · intro task row hrow hcompleted later trace' last hlater
    exact completed_run hcompleted hlater hrow
  · intro task htask
    obtain ⟨row, hrow, htallied⟩ := Tallied.run hcounted hrun (hinit task htask)
    refine ⟨row, hrow, ?_, ?_⟩
    · simpa [Row.pending] using htallied.attempt
    · simpa [Row.pending] using htallied.strikes

/-- A worker loses its claim, then claims the row again, releases it and claims it once more.
The first claim stays lost. -/
theorem claim_epoch_fences_every_stale_owner_same_worker :
    let row (state : TaskState) (worker : Option String) (attempt strikes : Int) (started : Bool) :
      Row := ⟨state, worker, attempt, strikes, started, false, none, none⟩
    let at' (row : Row) : OracleStore := ⟨.claimEpoch, 0, [row], fun _ => none⟩
    let last := at' (row .running (some "w") 2 1 true)
    (at' (row .pending none 1 1 false)).run
        [.claim "w" 0, .release ⟨0, "w", 2⟩, .claim "w" 0] =
      some ([(.claim "w" 0, .claimed (some ⟨0, "w", 2⟩)),
        (.release ⟨0, "w", 2⟩, .write .applied),
        (.claim "w" 0, .claimed (some ⟨0, "w", 2⟩))], last) ∧
      last.apply (.complete ⟨0, "w", 1⟩ 7) = some (.write .leaseLost, last) := by
  intro row at' last
  have hlater : (at' (row .pending none 1 1 false)).run
      [.claim "w" 0, .release ⟨0, "w", 2⟩, .claim "w" 0] =
        some ([(.claim "w" 0, .claimed (some ⟨0, "w", 2⟩)),
          (.release ⟨0, "w", 2⟩, .write .applied),
          (.claim "w" 0, .claimed (some ⟨0, "w", 2⟩))], last) := rfl
  have hrun : (new 1 .claimEpoch 0).run [.claim "w" 0] =
      some ([(.claim "w" 0, .claimed (some ⟨0, "w", 1⟩))], at' (row .running (some "w") 1 0 true)) :=
    rfl
  exact ⟨hlater, (claim_epoch_fences_every_stale_owner 1 0 _ _ _ hrun).1 ⟨0, "w", 1⟩ _
    ⟨0, "w", 0⟩ 5 _ _ _ _ (.complete ⟨0, "w", 1⟩ 7) rfl rfl rfl rfl hlater rfl⟩

end OracleStore
end Harvest.Dst
