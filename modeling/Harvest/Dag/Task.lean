import Harvest.Json
import Harvest.Lib.Checks

/-!
# DAG tasks

Model of the task records of `dag.rs`, of the rules that decide whether a task runs, and of what
`DagBuilder::build` checks before it orders the tasks.

Proved here:
* `validate_ok`: what every accepted task satisfies.
-/

namespace Harvest.Dag

open Harvest.Lib

/-- `std::time::Duration` -/
structure Duration where
  secs : Nat
  nanos : Nat
  secs_lt : secs < 2 ^ 64
  nanos_lt : nanos < 1000000000
deriving DecidableEq

namespace Duration

def asNanos (d : Duration) : Nat := d.secs * 1000000000 + d.nanos

def maxNanos : Nat := (2 ^ 64 - 1) * 1000000000 + 999999999

protected def zero : Duration := ⟨0, 0, by decide, by decide⟩

protected def max : Duration := ⟨2 ^ 64 - 1, 999999999, by decide, by decide⟩

theorem asNanos_max : Duration.max.asNanos = maxNanos := by
  simp [asNanos, Duration.max, maxNanos]

end Duration

inductive TaskStatus
  | succeeded
  | failed
  | skipped
deriving DecidableEq, Repr

inductive TriggerRule
  | allSuccess
  | allDone
  | oneSuccess
  | oneFailed
  | allFailed
  | manual
deriving DecidableEq, Repr

def TriggerRule.shouldRun (rule : TriggerRule) (statuses : List TaskStatus) : Bool :=
  match rule with
  | .allSuccess => statuses.all (· = .succeeded)
  | .allDone => true
  | .oneSuccess => statuses.any (· = .succeeded)
  | .oneFailed => statuses.any (· = .failed)
  | .allFailed => ! statuses.isEmpty && statuses.all (· = .failed)
  | .manual => false

inductive MapFailurePolicy
  | failFast
  | collectAll
deriving DecidableEq, Repr

inductive GateTimeoutAction
  | failRun
  | continue
deriving DecidableEq, Repr

structure DagSignalGate where
  signalName : String
  timeout : Option Duration
  onTimeout : GateTimeoutAction
deriving DecidableEq

structure DagMergeSource where
  key : String
  upstreamIndex : Nat
deriving DecidableEq, Repr

inductive DagInputBinding
  | single (index : Nat)
  | merged (sources : List DagMergeSource)
deriving DecidableEq, Repr

/-- `PendingDagTask` and `DagTask`, which have the same fields. -/
structure DagTask where
  activityName : String
  upstreams : List Nat
  triggerRule : TriggerRule
  startToClose : Option Duration
  queue : Option String
  mapUpstream : Option Nat
  mapFailurePolicy : MapFailurePolicy
  condition : Option (List Json → Bool)
  signal : Option DagSignalGate
  inputFrom : Option DagInputBinding
  compensate : Option String

inductive DagDispatchDecision
  | run
  | skipByTriggerRule
  | skipByCondition
deriving DecidableEq, Repr

namespace DagTask

/-- A task as the builder pushes it, with its upstreams. -/
def activity (activityName : String) (upstreams : List Nat) : DagTask where
  activityName := activityName
  upstreams := upstreams
  triggerRule := .allSuccess
  startToClose := none
  queue := none
  mapUpstream := none
  mapFailurePolicy := .failFast
  condition := none
  signal := none
  inputFrom := none
  compensate := none

def isGate (task : DagTask) : Bool := task.signal.isSome

/-- `dispatch_decision`. An index without a status counts as skipped, one without an output as
null. -/
def dispatchDecision (task : DagTask) (statuses : Nat → TaskStatus) (outputs : Nat → Json) :
    DagDispatchDecision :=
  if ! task.triggerRule.shouldRun (task.upstreams.map statuses) then .skipByTriggerRule
  else
    match task.condition with
    | some cond => if cond (task.upstreams.map outputs) then .run else .skipByCondition
    | none => .run

end DagTask

/-! ## What is checked before the tasks are ordered -/

inductive DagBuildError
  | cycleDetected
  | conflictingInputBinding (task : String)
  | duplicateInputBindingKey (task key : String)
  | inputBindingNotAnUpstream (task : String)
  | emptyInputBinding (task : String)
  | inputBindingOnGate (task : String)
  | compensateOnGate (task : String)
  | emptyCompensator (task : String)
  | compensatorNameCollidesWithNode (task compensator : String)
deriving DecidableEq, Repr

/-- `char::is_whitespace`: the Unicode property `White_Space`. -/
def isWhitespace (c : Char) : Bool :=
  let n := c.toNat
  (9 ≤ n && n ≤ 13) || n = 0x20 || n = 0x85 || n = 0xa0 || n = 0x1680 ||
    (0x2000 ≤ n && n ≤ 0x200a) || n = 0x2028 || n = 0x2029 || n = 0x202f || n = 0x205f || n = 0x3000

/-- `name.trim().is_empty()` -/
def isBlank (name : String) : Bool := name.toList.all isWhitespace

/-- The checks of one task in `validate_compensators`. -/
def validateCompensator (nodeNames : List String) (task : DagTask) : Except DagBuildError Unit :=
  match task.compensate with
  | none => .ok ()
  | some compensator =>
    if task.isGate then .error (.compensateOnGate task.activityName)
    else if isBlank compensator then .error (.emptyCompensator task.activityName)
    else if nodeNames.contains compensator then
      .error (.compensatorNameCollidesWithNode task.activityName compensator)
    else .ok ()

/-- The first key that was seen before. -/
def duplicateKey (seen : List String) : List String → Option String
  | [] => none
  | key :: keys => if seen.contains key then some key else duplicateKey (key :: seen) keys

/-- The indices that a binding reads. -/
def DagInputBinding.indices (task : String) : DagInputBinding → Except DagBuildError (List Nat)
  | .single index => .ok [index]
  | .merged sources =>
    if sources.isEmpty then .error (.emptyInputBinding task)
    else
      match duplicateKey [] (sources.map (·.key)) with
      | some key => .error (.duplicateInputBindingKey task key)
      | none => .ok (sources.map (·.upstreamIndex))

/-- The checks of one task's input binding. -/
def validateBinding (task : DagTask) : Except DagBuildError Unit :=
  match task.inputFrom with
  | none => .ok ()
  | some binding =>
    if task.isGate then .error (.inputBindingOnGate task.activityName)
    else if task.mapUpstream.isSome then .error (.conflictingInputBinding task.activityName)
    else
      match binding.indices task.activityName with
      | .error error => .error error
      | .ok indices =>
        if indices.all (task.upstreams.contains ·) then .ok ()
        else .error (.inputBindingNotAnUpstream task.activityName)

def validateCompensators (tasks : List DagTask) : Except DagBuildError Unit :=
  forM tasks (validateCompensator (tasks.map (·.activityName)))

def validate (tasks : List DagTask) : Except DagBuildError Unit := do
  validateCompensators tasks
  forM tasks validateBinding

/-- **Only a task that is no gate has a compensator.** -/
theorem validate_ok {tasks : List DagTask} (h : validate tasks = .ok ()) :
    ∀ task ∈ tasks, task.compensate.isSome → task.isGate = false := by
  intro task htask hcompensate
  obtain ⟨hall, -⟩ := seq_eq_ok.mp h
  have hone := forM_eq_ok.mp hall task htask
  obtain ⟨compensator, hsome⟩ := Option.isSome_iff_exists.mp hcompensate
  rw [validateCompensator, hsome] at hone
  dsimp only at hone
  by_contra hgate
  rw [if_pos (Bool.not_eq_false _ |>.mp hgate)] at hone
  cases hone

end Harvest.Dag
