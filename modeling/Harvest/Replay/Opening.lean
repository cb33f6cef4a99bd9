import Harvest.Replay.Matcher

/-!
# Opening a history

Model of `HistoryMatcher::new` and of the passes that decide which events are transparent to
replay: bookkeeping, the cycles that a redrive superseded, the tail of a failed run, and the
releases of dropped sessions.

Proved here:
* `transparentOf_of_quiet`: of a history without bookkeeping, failures and redrives only the releases
  of dropped sessions are transparent.
-/

namespace Harvest.Replay
namespace HistoryMatcher

def isWorkflowFailed : WorkflowEvent → Bool
  | .workflowFailed .. => true
  | _ => false

/-- The indices of the events with `p`. -/
def indicesWhere (events : List WorkflowEvent) (p : WorkflowEvent → Bool) : Finset Nat :=
  (Finset.range events.length).filter fun i => (events[i]?).any p

/-! ## Redrives -/

/-- The failure that a redrive at `i` supersedes: the nearest event before it that is not
transparent, if that is a failure. -/
def supersededFailure (events : List WorkflowEvent) (transparent : Finset Nat) : Nat → Option Nat
  | 0 => none
  | j + 1 =>
    if j ∈ transparent then supersededFailure events transparent j
    else if (events[j]?).any isWorkflowFailed then some j
    else none

/-- Marks each redrive and the failure that it supersedes, in history order. -/
def redriveStep (events : List WorkflowEvent) (marked : Finset Nat × Option Nat) (i : Nat) :
    Finset Nat × Option Nat :=
  if (events[i]?).any isRedriveLifecycleEvent then
    let transparent := insert i marked.1
    match supersededFailure events transparent i with
    | some j => (insert j transparent, some i)
    | none => (transparent, some i)
  else marked

/-- The transparent events and the last redrive. -/
def redrivePass (events : List WorkflowEvent) (transparent : Finset Nat) :
    Finset Nat × Option Nat :=
  (List.range events.length).foldl (redriveStep events) (transparent, none)

/-! ## Abandoned dispatches -/

/-- What the scan for abandoned dispatches has seen. -/
structure AbandonedScan where
  startedActivities : List ActivityExecId
  abandonedActivities : List ActivityExecId
  abandonedChildren : List ExecutionId
  indices : List Nat

def abandonedStep (scan : AbandonedScan) : WorkflowEvent × Nat → AbandonedScan
  | (.activityStarted activityId _, _) | (.activityHeartbeat activityId _, _) =>
    { scan with startedActivities := activityId :: scan.startedActivities }
  | (.activityFailed activityId error attempt errorType nonRetryable details, i) =>
    if attempt = 1 ∧ nonRetryable ∧ details = none ∧ error = abandonedDispatchReason ∧
        errorType = "Error" ∧ activityId ∉ scan.startedActivities then
      { scan with
        abandonedActivities := activityId :: scan.abandonedActivities
        indices := scan.indices ++ [i] }
    else scan
  | (.childWorkflowFailed childId error errorType details nonRetryable, i) =>
    if errorType = none ∧ details = none ∧ nonRetryable = some true ∧
        error = abandonedDispatchReason then
      { scan with
        abandonedChildren := childId :: scan.abandonedChildren
        indices := scan.indices ++ [i] }
    else scan
  | _ => scan

def abandonedScan (events : List WorkflowEvent) : AbandonedScan :=
  events.zipIdx.foldl abandonedStep ⟨[], [], [], []⟩

/-- Whether the event is the start of a dispatch that the scan found abandoned. -/
def startsAbandoned (scan : AbandonedScan) : WorkflowEvent → Bool
  | .activityScheduled activityId .. => activityId ∈ scan.abandonedActivities
  | .childWorkflowStarted childId .. => childId ∈ scan.abandonedChildren
  | _ => false

/-- The records of abandoned dispatches: each failure that the engine wrote for one, and the
start of the same id. -/
def abandonedDispatchIndices (events : List WorkflowEvent) : List Nat :=
  let scan := abandonedScan events
  if scan.indices = [] then []
  else scan.indices ++ (events.zipIdx.filter fun (event, _) => startsAbandoned scan event).map Prod.snd

/-! ## The tail of a superseded cycle -/

/-- What a failing cycle writes at the position of its command. -/
def isPreTerminalRecord : WorkflowEvent → Bool
  | .markerRecorded .. | .sideEffectRecorded .. | .childWorkflowSpawnedDetached ..
  | .timerStarted .. | .timerCancelled .. => true
  | _ => false

/-- The records of a superseded cycle, from the end of `events` back to the first event that
is neither transparent nor such a record. -/
def supersededCycleTail (events : List WorkflowEvent) (transparent : Finset Nat) : Nat → List Nat
  | 0 => []
  | j + 1 =>
    if j ∈ transparent then supersededCycleTail events transparent j
    else if (events[j]?).any isPreTerminalRecord then j :: supersededCycleTail events transparent j
    else []

def supersededCycleTailIndices (events : List WorkflowEvent) (transparent : Finset Nat) :
    List Nat :=
  supersededCycleTail events transparent events.length

/-! ## The tail of a failed run -/

def failureTailFrom (events : List WorkflowEvent) : Nat → Option Nat
  | 0 => none
  | j + 1 =>
    match events[j]? with
    | none => none
    | some event =>
      if isCommandFreeBookkeeping event then failureTailFrom events j
      else if 0 < j ∧ isWorkflowFailed event then some j
      else none

/-- The failure that a run ends in, bookkeeping after it apart. -/
def terminalFailureTailStart (events : List WorkflowEvent) : Option Nat :=
  failureTailFrom events events.length

/-! ## Dropped sessions -/

/-- The activity whose later events belong to a release. -/
def releaseMember : WorkflowEvent → Option ActivityExecId
  | .activityStarted activityId _ | .activityHeartbeat activityId _
  | .activityCompleted activityId _ | .activityFailed activityId ..
  | .activityTimedOut activityId _ => some activityId
  | _ => none

def releaseStep (state : List ActivityExecId × List Nat) : WorkflowEvent × Nat →
    List ActivityExecId × List Nat
  | (.activityScheduled activityId name _ _, i) =>
    if name = sessionDropReleaseActivityName then (activityId :: state.1, state.2 ++ [i]) else state
  | (event, i) =>
    if (releaseMember event).any fun activityId => activityId ∈ state.1 then
      (state.1, state.2 ++ [i])
    else state

/-- The records of each drop release: its schedule, and every later event of its activity. -/
def dropReleaseIndices (events : List WorkflowEvent) : List Nat :=
  (events.zipIdx.foldl releaseStep ([], [])).2

/-! ## Signals reserved for a race -/

def raceStep (state : (String → List String) × List Nat) : WorkflowEvent × Nat →
    (String → List String) × List Nat
  | (.signalReceived signalName _, i) =>
    match state.1 signalName with
    | [] => state
    | _ :: later => (Function.update state.1 signalName later, state.2 ++ [i])
  | (.timerStarted timerId _, _) =>
    match signalTimeoutRaceName timerId.name with
    | some name => (Function.update state.1 name (state.1 name ++ [timerId.name]), state.2)
    | none => state
  | (.timerFired timerId, _) =>
    match signalTimeoutRaceName timerId.name with
    | some name =>
      (Function.update state.1 name ((state.1 name).filter fun id => id ≠ timerId.name), state.2)
    | none => state
  | _ => state

/-- The signals inside an open signal-or-deadline race of their name. -/
def buildRaceReservedSignalEvents (events : List WorkflowEvent) : Finset Nat :=
  (events.zipIdx.foldl raceStep (fun _ => [], [])).2.toFinset

/-! ## The new matcher -/

/-- The events that no call of the workflow matches. -/
def transparentOf (events : List WorkflowEvent) : Finset Nat :=
  let (transparent, lastRedrive) :=
    redrivePass events (indicesWhere events isCommandFreeBookkeeping)
  let transparent :=
    match lastRedrive with
    | none => transparent
    | some redrive =>
      let before := events.take redrive
      let transparent := transparent ∪ (abandonedDispatchIndices before).toFinset
      transparent ∪ (supersededCycleTailIndices before transparent).toFinset
  let transparent :=
    match terminalFailureTailStart events with
    | none => transparent
    | some start => transparent ∪ Finset.Ico start events.length
  transparent ∪ (dropReleaseIndices events).toFinset

def new (events : List WorkflowEvent) : HistoryMatcher where
  events := events
  cursor := 0
  consumedOutOfOrderEvents := ∅
  consumedSignalEvents := ∅
  pendingSignals := .empty
  external := .new
  transparentEvents := transparentOf events
  lateRaceSignalEvents := ∅
  raceReservedSignalEvents := buildRaceReservedSignalEvents events
  deprecatedPatches := fun _ => none
  patchIdsRecordedThisCycle := ∅
  terminalFailureTail := terminalFailureTailStart events
  frontierProbedSignals := ∅
  predicateRejectedSignalEvents := ∅
  activityScanIndex := .empty
  delivered := []

/-! ## Quiet histories -/

/-- No pass over bookkeeping, failures and redrives reads the event. -/
def isQuiet (event : WorkflowEvent) : Bool :=
  ! isCommandFreeBookkeeping event && ! isRedriveLifecycleEvent event && ! isWorkflowFailed event

theorem isQuiet_iff {event : WorkflowEvent} : isQuiet event = true ↔
    isCommandFreeBookkeeping event = false ∧ isRedriveLifecycleEvent event = false ∧
      isWorkflowFailed event = false := by
  simp [isQuiet, and_assoc]

/-- A class of events that none of the events has, at a position. -/
theorem any_eq_false {events : List WorkflowEvent} {p : WorkflowEvent → Bool}
    (h : ∀ event ∈ events, p event = false) (i : Nat) : (events[i]?).any p = false := by
  cases hevent : events[i]? with
  | none => rfl
  | some event => exact h event (List.mem_of_getElem? hevent)

section Quiet

variable {events : List WorkflowEvent} (hquiet : ∀ event ∈ events, isQuiet event)
include hquiet

theorem indicesWhere_bookkeeping_of_quiet :
    indicesWhere events isCommandFreeBookkeeping = ∅ := by
  refine Finset.filter_eq_empty_iff.mpr fun i _ => ?_
  rw [any_eq_false fun event hevent => (isQuiet_iff.mp (hquiet event hevent)).1]
  exact Bool.false_ne_true

theorem redrivePass_of_quiet (transparent : Finset Nat) :
    redrivePass events transparent = (transparent, none) := by
  have hstep (indices : List Nat) :
      indices.foldl (redriveStep events) (transparent, none) = (transparent, none) := by
    induction indices with
    | nil => rfl
    | cons i indices ih =>
      rw [List.foldl_cons, redriveStep,
        any_eq_false fun event hevent => (isQuiet_iff.mp (hquiet event hevent)).2.1,
        if_neg Bool.false_ne_true]
      exact ih
  exact hstep _

theorem failureTail_of_quiet (n : Nat) : failureTailFrom events n = none := by
  cases n with
  | zero => rfl
  | succ n =>
    rw [failureTailFrom]
    cases hevent : events[n]? with
    | none => rfl
    | some event =>
      have h := isQuiet_iff.mp (hquiet event (List.mem_of_getElem? hevent))
      simp [h.1, h.2.2]

/-- **Of a quiet history only the releases are transparent.** -/
theorem transparentOf_of_quiet : transparentOf events = (dropReleaseIndices events).toFinset := by
  have htail : terminalFailureTailStart events = none := failureTail_of_quiet hquiet _
  rw [transparentOf, indicesWhere_bookkeeping_of_quiet hquiet, redrivePass_of_quiet hquiet, htail]
  exact Finset.empty_union _

end Quiet

end HistoryMatcher
end Harvest.Replay
