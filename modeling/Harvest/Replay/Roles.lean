import Harvest.Codec.EventWire

/-!
# How replay reads an event

Model of the classifiers of `replay.rs` and `activity_scan_index.rs`: what a recorded
event means to the matcher that replays a workflow against its history.

Proved here:
* `activityScanRole_eq_externalTerminal`: the role of an external terminal event is given to
  exactly the events that have a key.
* `activityScanRole_of_transparentExternal`, `activityScanRole_of_bookkeeping`: the events that
  a scan stashes, and those without a command, are barriers to it.
-/

namespace Harvest

def SideEffectKind.asStr : SideEffectKind → String
  | .now => "now"
  | .uuid => "uuid"
  | .random => "random"
  | .custom => "custom"
  | .entityState => "entity_state"

namespace Replay

open WorkflowEvent

/-! ## Classes of events -/

/-- Pause and resume are lifecycle records of an operator. -/
def isPauseLifecycleEvent : WorkflowEvent → Bool
  | .workflowExecutionPaused .. | .workflowExecutionResumed .. => true
  | _ => false

def isRedriveLifecycleEvent : WorkflowEvent → Bool
  | .workflowRedriven .. => true
  | _ => false

/-- Records that follow the terminal event of a run. -/
def isPostTerminalBookkeeping : WorkflowEvent → Bool
  | .workflowRetryScheduled .. | .childWorkflowCascadeApplied .. => true
  | _ => false

def isDecisionBoundary : WorkflowEvent → Bool
  | .decisionCommitted .. => true
  | _ => false

def isCancelRequest : WorkflowEvent → Bool
  | .workflowCancelRequested .. => true
  | _ => false

/-- Events without a workflow command, which replay never consumes. -/
def isCommandFreeBookkeeping (event : WorkflowEvent) : Bool :=
  isPauseLifecycleEvent event || isPostTerminalBookkeeping event ||
    isDecisionBoundary event || isCancelRequest event

/-- Events that are transparent to the command sequence of the workflow. -/
def isUpdateEvent : WorkflowEvent → Bool
  | .updateAdmitted .. | .updateCompleted .. | .updateFailed ..
  | .workflowResetFork .. | .workflowForked .. | .forkActivityResultOverridden .. => true
  | _ => false

def isSignal : WorkflowEvent → Bool
  | .signalReceived .. => true
  | _ => false

/-- Signals, and the external signal, cancel and await events: a scan stashes them. -/
def isTransparentExternalEvent : WorkflowEvent → Bool
  | .signalReceived ..
  | .externalSignalRequested .. | .externalSignalDelivered .. | .externalSignalFailed ..
  | .externalCancelRequested .. | .externalCancelDelivered .. | .externalCancelFailed ..
  | .externalAwaitRequested .. | .externalAwaitResolved .. | .externalAwaitFailed .. => true
  | _ => false

/-- The events that anchor a call of the workflow. -/
def isCommandEvent : WorkflowEvent → Bool
  | .activityScheduled .. | .localActivityScheduled .. | .timerStarted .. | .timerCancelled ..
  | .childWorkflowStarted .. | .childWorkflowSpawnedDetached .. | .markerRecorded ..
  | .sideEffectRecorded .. | .externalSignalRequested .. | .externalCancelRequested ..
  | .externalAwaitRequested .. | .activityAwaitingExternal .. | .mutexGranted .. => true
  | _ => false

/-! ## Roles in a scan -/

/-- What one event means to the terminal scans. -/
inductive ScanRole
  | scheduled (id : ActivityExecId)
  | terminal (id : ActivityExecId)
  | progress (id : ActivityExecId)
  | fired (id : TimerId)
  | childTerminal (id : ExecutionId)
  | interleaved
  | externalTerminal
  | barrier
  | pass
deriving DecidableEq, Repr

def activityScanRole : WorkflowEvent → ScanRole
  | .activityScheduled activityId .. => .scheduled activityId
  | .activityCompleted activityId .. | .activityFailed activityId ..
  | .activityTimedOut activityId .. => .terminal activityId
  | .activityStarted activityId .. | .activityHeartbeat activityId .. => .progress activityId
  | .childWorkflowStarted .. | .childWorkflowSpawnedDetached .. | .markerRecorded ..
  | .sideEffectRecorded .. | .timerStarted .. | .timerCancelled ..
  | .localActivityScheduled .. => .interleaved
  | .timerFired timerId => .fired timerId
  | .childWorkflowCompleted childId .. | .childWorkflowFailed childId .. => .childTerminal childId
  | .localActivityCompleted .. | .localActivityFailed .. => .pass
  | .externalSignalDelivered .. | .externalSignalFailed .. | .externalCancelDelivered ..
  | .externalCancelFailed .. | .externalAwaitResolved .. | .externalAwaitFailed .. =>
    .externalTerminal
  -- The order of the two tests does not matter: no update event is an external one.
  | event => if isUpdateEvent event then .pass else .barrier

/-- The kind and the id of one external call. -/
inductive ExternalKey
  | signal (id : ExternalSignalId)
  | cancel (id : ExternalCancelId)
  | await (id : ExternalAwaitId)
deriving DecidableEq, Repr

/-- The key of an external terminal event. -/
def ExternalKey.ofTerminal : WorkflowEvent → Option ExternalKey
  | .externalSignalDelivered signalId | .externalSignalFailed signalId _ => some (.signal signalId)
  | .externalCancelDelivered cancelId | .externalCancelFailed cancelId _ => some (.cancel cancelId)
  | .externalAwaitResolved awaitId _ | .externalAwaitFailed awaitId .. => some (.await awaitId)
  | _ => none

/-- What an activity or timer scan looks for. -/
inductive ScanTarget
  | activity (id : ActivityExecId)
  | timer (id : String)
deriving DecidableEq, Repr

/-- Whether an event with this role ends a scan for the target. -/
def ScanTarget.stopsAt : ScanTarget → ScanRole → Bool
  | .activity target, .scheduled id => id = target
  | .activity target, .terminal id => id = target
  | .timer target, .fired id => id.name = target
  | _, _ => false

theorem activityScanRole_eq_externalTerminal {event : WorkflowEvent} :
    activityScanRole event = .externalTerminal ↔ (ExternalKey.ofTerminal event).isSome := by
  cases event <;> simp [activityScanRole, isUpdateEvent, ExternalKey.ofTerminal]

theorem activityScanRole_of_transparentExternal {event : WorkflowEvent}
    (h : isTransparentExternalEvent event) :
    activityScanRole event = .externalTerminal ∨ activityScanRole event = .barrier := by
  cases event <;>
    simp [isTransparentExternalEvent, activityScanRole, isUpdateEvent] at h ⊢

theorem activityScanRole_of_bookkeeping {event : WorkflowEvent}
    (h : isCommandFreeBookkeeping event) : activityScanRole event = .barrier := by
  cases event <;>
    simp [isCommandFreeBookkeeping, isPauseLifecycleEvent, isPostTerminalBookkeeping,
      isDecisionBoundary, isCancelRequest, activityScanRole, isUpdateEvent] at h ⊢

/-! ## Names in diagnostics -/

/-- The unexpected event of a divergence. -/
def actualEventName : WorkflowEvent → String
  | .markerRecorded name _ => "MarkerRecorded(" ++ name ++ ")"
  | .sideEffectRecorded kind none _ => "SideEffectRecorded(" ++ kind.asStr ++ ")"
  | .sideEffectRecorded kind (some name) _ =>
    "SideEffectRecorded(" ++ kind.asStr ++ ":" ++ name ++ ")"
  | event => event.typeName

/-- A command event in a drift report. -/
def commandEventName : WorkflowEvent → String
  | .activityScheduled _ name .. => "ActivityScheduled(" ++ name ++ ")"
  | .localActivityScheduled _ name .. => "LocalActivityScheduled(" ++ name ++ ")"
  | .timerStarted timerId _ => "TimerStarted(" ++ timerId.name ++ ")"
  | .timerCancelled timerId => "TimerCancelled(" ++ timerId.name ++ ")"
  | .childWorkflowStarted _ workflowName _ => "ChildWorkflowStarted(" ++ workflowName ++ ")"
  | .childWorkflowSpawnedDetached _ workflowName .. =>
    "ChildWorkflowSpawnedDetached(" ++ workflowName ++ ")"
  | .activityAwaitingExternal _ _ name .. => "ActivityAwaitingExternal(" ++ name ++ ")"
  | .mutexGranted key .. => "MutexGranted(" ++ key ++ ")"
  | event => actualEventName event

/-- The activity name of a session release that no body awaits. -/
def sessionDropReleaseActivityName : String := "__harvest_session_drop_release"

def patchMarkerName (patchId : String) : String := "patch:" ++ patchId

def versionMarkerName (changeId : String) : String := "version:" ++ changeId

/-- The name of the signal in a race timer `__signal_timeout:seq:name`. -/
def signalTimeoutRaceName (timerId : String) : Option String :=
  let head := "__signal_timeout:".toList
  if head.isPrefixOf timerId.toList then
    match (timerId.toList.drop head.length).dropWhile (· ≠ ':') with
    | [] => none
    | _ :: name => some (String.ofList name)
  else none

end Replay
end Harvest
