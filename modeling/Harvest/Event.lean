import Harvest.Json

/-!
# Workflow events

Model of `event.rs`: every variant of the append-only workflow history with all its
fields, and the payload slots through which the codec path moves payload trees out
of an event and back.

Proved here:
* `liftPayloads_eq`: lifting reads every payload and leaves `null` in its place.
* `restorePayloads_lifted`: a payload that is moved out and filled back in is where
  it was, a `null` in an optional field apart.
-/

namespace Harvest

/-! ## Identifiers and enumerations -/

abbrev Uuid := BitVec 128

/-- An instant, in nanoseconds from the Unix epoch. -/
abbrev DateTime := Int

structure ExecutionId where
  uuid : Uuid
deriving DecidableEq, Repr

structure ActivityExecId where
  uuid : Uuid
deriving DecidableEq, Repr

structure UpdateId where
  uuid : Uuid
deriving DecidableEq, Repr

structure ExternalActivityToken where
  uuid : Uuid
deriving DecidableEq, Repr

structure ExternalSignalId where
  uuid : Uuid
deriving DecidableEq, Repr

structure ExternalCancelId where
  uuid : Uuid
deriving DecidableEq, Repr

structure ExternalAwaitId where
  uuid : Uuid
deriving DecidableEq, Repr

structure TimerId where
  name : String
deriving DecidableEq, Repr

structure WorkerId where
  name : String
deriving DecidableEq, Repr

structure BuildId where
  name : String
deriving DecidableEq, Repr

inductive SideEffectKind
  | now
  | uuid
  | random
  | custom
  | entityState
deriving DecidableEq, Repr

inductive TimeoutType
  | startToClose
  | scheduleToStart
  | scheduleToClose
  | heartbeat
  | workflowExecution
  | workflowChain
deriving DecidableEq, Repr

inductive ParentClosePolicy
  | abandon
  | requestCancel
  | terminate
deriving DecidableEq, Repr

inductive ForkEffects
  | recorded
  | live
  | liveQuiet
deriving DecidableEq, Repr

inductive ExternalTarget
  | executionId (id : ExecutionId)
  | workflowId (workflowName workflowId : String)
deriving DecidableEq, Repr

inductive JitterPolicy
  | none
  | full
  | equal
  | decorrelated
deriving DecidableEq, Repr

/-- Durations are nanosecond counts, the coefficient is the bits of an `f64`. -/
structure RetryPolicy where
  maxAttempts : UInt32
  initialInterval : Nat
  backoffCoefficient : UInt64
  maxInterval : Nat
  nonRetryableErrors : List String
  jitter : JitterPolicy
deriving DecidableEq, Repr

/-- The error of a dispatch that the workflow abandoned by failing in the same
decision cycle. -/
def abandonedDispatchReason : String :=
  "dispatch abandoned: the workflow failed in the same decision cycle"

/-! ## Events -/

inductive WorkflowEvent
  | workflowStarted (input : Json) (timestamp : DateTime) (lastCompletionResult : Option Json)
      (lastError : Option String) (scheduledTime : Option DateTime)
  | workflowCompleted (output : Json)
  | workflowFailed (error : String) (errorType : Option String) (details : Option Json)
      (nonRetryable : Option Bool)
  | workflowCancelled (reason : String)
  | workflowCancelRequested (reason : String)
  | activityScheduled (activityId : ActivityExecId) (name : String) (input : Json) (queue : String)
  | activityStarted (activityId : ActivityExecId) (workerId : WorkerId)
  | activityCompleted (activityId : ActivityExecId) (output : Json)
  | activityFailed (activityId : ActivityExecId) (error : String) (attempt : UInt32)
      (errorType : String) (nonRetryable : Bool) (details : Option Json)
  | activityTimedOut (activityId : ActivityExecId) (timeoutType : TimeoutType)
  | activityHeartbeat (activityId : ActivityExecId) (details : Json)
  | timerStarted (timerId : TimerId) (durationSecs : UInt64)
  | timerFired (timerId : TimerId)
  | signalReceived (signalName : String) (payload : Json)
  | childWorkflowStarted (childId : ExecutionId) (workflowName : String) (input : Json)
  | childWorkflowCompleted (childId : ExecutionId) (output : Json)
  | childWorkflowFailed (childId : ExecutionId) (error : String) (errorType : Option String)
      (details : Option Json) (nonRetryable : Option Bool)
  | markerRecorded (name : String) (details : Json)
  | workflowContinuedAsNew (newExecId : ExecutionId) (input : Json)
      (newWorkflowType : Option String)
  | localActivityScheduled (activityId : ActivityExecId) (name : String) (input : Json)
      (resolved : Bool) (retryPolicy : Option RetryPolicy) (startToCloseNanos : Option UInt64)
  | localActivityCompleted (activityId : ActivityExecId) (output : Json)
  | localActivityFailed (activityId : ActivityExecId) (error : String) (attempt : UInt32)
  | activityAwaitingExternal (activityId : ActivityExecId) (token : ExternalActivityToken)
      (name : String) (input : Json) (queue : String) (scheduleToCloseSecs : UInt64)
  | activityCompletedExternally (activityId : ActivityExecId) (token : ExternalActivityToken)
      (output : Json)
  | activityFailedExternally (activityId : ActivityExecId) (token : ExternalActivityToken)
      (error : String) (retryable : Bool)
  | activityExternalDeadlineExtended (activityId : ActivityExecId) (token : ExternalActivityToken)
  | updateAdmitted (updateId : UpdateId) (name : String) (input : Json) (timestamp : DateTime)
  | updateCompleted (updateId : UpdateId) (output : Json)
  | updateFailed (updateId : UpdateId) (error : String)
  | workflowResetFork (resetFromExecId : ExecutionId) (resetToEventId : Int64)
      (reason operatorId : String)
  | workflowResetTerminated (resetToExecId : ExecutionId) (reason operatorId : String)
  | localActivityExhausted (activityId : ActivityExecId) (error : String) (attempt : UInt32)
  | externalSignalRequested (signalId : ExternalSignalId) (target : ExternalTarget)
      (signalName : String) (payload : Json) (idempotencyKey : Option String)
  | externalSignalDelivered (signalId : ExternalSignalId)
  | externalSignalFailed (signalId : ExternalSignalId) (reasonCode : String)
  | childWorkflowSpawnedDetached (childId : ExecutionId) (workflowName : String) (input : Json)
      (parentClosePolicy : ParentClosePolicy)
  | childWorkflowCascadeApplied (childId : ExecutionId) (policy : ParentClosePolicy)
      (action : String)
  | workflowExecutionTimedOut (deadline timedOutAt : DateTime)
  | sideEffectRecorded (kind : SideEffectKind) (name : Option String) (value : Json)
  | workflowExecutionPaused (pausedAt : DateTime) (reason : Option String) (actor : String)
  | workflowExecutionResumed (resumedAt : DateTime) (actor : String)
  | externalCancelRequested (cancelId : ExternalCancelId) (target : ExternalTarget)
  | externalCancelDelivered (cancelId : ExternalCancelId)
  | externalCancelFailed (cancelId : ExternalCancelId) (reasonCode : String)
  | workflowRedriven (redrivenAt : DateTime) (deadLetterId : Uuid) (reason : Option String)
  | workflowRetryScheduled (retryExecId : ExecutionId) (attempt : UInt32) (fireAt : DateTime)
  | timerCancelled (timerId : TimerId)
  | externalAwaitRequested (awaitId : ExternalAwaitId) (target : ExecutionId)
  | externalAwaitResolved (awaitId : ExternalAwaitId) (output : Json)
  | externalAwaitFailed (awaitId : ExternalAwaitId) (reasonCode : String)
      (message errorType : Option String) (details : Option Json) (nonRetryable : Option Bool)
  | mutexGranted (key : String) (lockSeq : Int64) (acquiredAt : DateTime)
  | decisionCommitted (buildId : BuildId) (workerId : WorkerId)
  | workflowForked (forkedFromExecId : ExecutionId) (forkEventId : Int64) (effects : ForkEffects)
      (reason operatorId : String)
  | forkActivityResultOverridden (activityName : String) (occurrence : UInt32) (output : Json)
deriving DecidableEq, Repr
namespace WorkflowEvent

/-! ## Payload slots -/

/-- The wire names of the fields that carry payloads. -/
def payloadFieldKeys : List String :=
  ["input", "output", "payload", "details", "value", "last_completion_result"]

/-- What a payload field holds: a value, or a value that may be absent. -/
inductive PayloadSlot
  | required (value : Json)
  | optional (value : Option Json)
deriving DecidableEq, Repr

def named (name key : String) (slot : PayloadSlot) : Option PayloadSlot :=
  if name = key then some slot else none

def payloadSlot (key : String) : WorkflowEvent → Option PayloadSlot
  | .workflowStarted input _ lastCompletionResult _ _ =>
    if key = "input" then some (.required input)
    else if key = "last_completion_result" then some (.optional lastCompletionResult)
    else none
  | .activityScheduled _ _ input _
  | .childWorkflowStarted _ _ input
  | .workflowContinuedAsNew _ input _
  | .localActivityScheduled _ _ input _ _ _
  | .activityAwaitingExternal _ _ _ input _ _
  | .updateAdmitted _ _ input _
  | .childWorkflowSpawnedDetached _ _ input _ =>
    named "input" key (.required input)
  | .workflowCompleted output
  | .activityCompleted _ output
  | .childWorkflowCompleted _ output
  | .localActivityCompleted _ output
  | .activityCompletedExternally _ _ output
  | .updateCompleted _ output
  | .externalAwaitResolved _ output
  | .forkActivityResultOverridden _ _ output =>
    named "output" key (.required output)
  | .activityHeartbeat _ details
  | .markerRecorded _ details =>
    named "details" key (.required details)
  | .workflowFailed _ _ details _
  | .activityFailed _ _ _ _ _ details
  | .childWorkflowFailed _ _ _ details _
  | .externalAwaitFailed _ _ _ _ details _ =>
    named "details" key (.optional details)
  | .signalReceived _ payload
  | .externalSignalRequested _ _ _ payload _ =>
    named "payload" key (.required payload)
  | .sideEffectRecorded _ _ value =>
    named "value" key (.required value)
  | _ => none

/-- Applies `f` to every required payload field and `g` to every optional one, each
with the wire name of the field. -/
def mapPayloads (f : String → Json → Json) (g : String → Option Json → Option Json) :
    WorkflowEvent → WorkflowEvent
  | .workflowStarted input timestamp lastCompletionResult lastError scheduledTime =>
    .workflowStarted (f "input" input) timestamp (g "last_completion_result" lastCompletionResult)
      lastError scheduledTime
  | .workflowCompleted output =>
    .workflowCompleted (f "output" output)
  | .workflowFailed error errorType details nonRetryable =>
    .workflowFailed error errorType (g "details" details) nonRetryable
  | .activityScheduled activityId name input queue =>
    .activityScheduled activityId name (f "input" input) queue
  | .activityCompleted activityId output =>
    .activityCompleted activityId (f "output" output)
  | .activityFailed activityId error attempt errorType nonRetryable details =>
    .activityFailed activityId error attempt errorType nonRetryable (g "details" details)
  | .activityHeartbeat activityId details =>
    .activityHeartbeat activityId (f "details" details)
  | .signalReceived signalName payload =>
    .signalReceived signalName (f "payload" payload)
  | .childWorkflowStarted childId workflowName input =>
    .childWorkflowStarted childId workflowName (f "input" input)
  | .childWorkflowCompleted childId output =>
    .childWorkflowCompleted childId (f "output" output)
  | .childWorkflowFailed childId error errorType details nonRetryable =>
    .childWorkflowFailed childId error errorType (g "details" details) nonRetryable
  | .markerRecorded name details =>
    .markerRecorded name (f "details" details)
  | .workflowContinuedAsNew newExecId input newWorkflowType =>
    .workflowContinuedAsNew newExecId (f "input" input) newWorkflowType
  | .localActivityScheduled activityId name input resolved retryPolicy startToCloseNanos =>
    .localActivityScheduled activityId name (f "input" input) resolved retryPolicy startToCloseNanos
  | .localActivityCompleted activityId output =>
    .localActivityCompleted activityId (f "output" output)
  | .activityAwaitingExternal activityId token name input queue scheduleToCloseSecs =>
    .activityAwaitingExternal activityId token name (f "input" input) queue scheduleToCloseSecs
  | .activityCompletedExternally activityId token output =>
    .activityCompletedExternally activityId token (f "output" output)
  | .updateAdmitted updateId name input timestamp =>
    .updateAdmitted updateId name (f "input" input) timestamp
  | .updateCompleted updateId output =>
    .updateCompleted updateId (f "output" output)
  | .externalSignalRequested signalId target signalName payload idempotencyKey =>
    .externalSignalRequested signalId target signalName (f "payload" payload) idempotencyKey
  | .childWorkflowSpawnedDetached childId workflowName input parentClosePolicy =>
    .childWorkflowSpawnedDetached childId workflowName (f "input" input) parentClosePolicy
  | .sideEffectRecorded kind name value =>
    .sideEffectRecorded kind name (f "value" value)
  | .externalAwaitResolved awaitId output =>
    .externalAwaitResolved awaitId (f "output" output)
  | .externalAwaitFailed awaitId reasonCode message errorType details nonRetryable =>
    .externalAwaitFailed awaitId reasonCode message errorType (g "details" details) nonRetryable
  | .forkActivityResultOverridden activityName occurrence output =>
    .forkActivityResultOverridden activityName occurrence (f "output" output)
  | event => event

/-- A write through the slot that a key names. -/
def mapPayload (key : String) (f : Json → Json) (g : Option Json → Option Json) :
    WorkflowEvent → WorkflowEvent :=
  mapPayloads (fun k => if k = key then f else id) fun k => if k = key then g else id

/-- The payload in a slot, if there is one. -/
def payload (key : String) (event : WorkflowEvent) : Option Json :=
  match event.payloadSlot key with
  | some (.required value) => some value
  | some (.optional value) => value
  | none => none

/-- A payload that is not `null`. -/
def nonNull (value : Json) : Bool := ! value.isNull

/-- `PayloadSlot::fill`: what serde would decode into the field. -/
def fill (key : String) (payload : Json) (event : WorkflowEvent) : WorkflowEvent :=
  event.mapPayload key (fun _ => payload) fun _ => if nonNull payload then some payload else none

/-- The payload that `PayloadSlot::lift` moves out: one that is there and not `null`. -/
def liftedPayload (key : String) (event : WorkflowEvent) : Option Json :=
  (event.payload key).filter nonNull

/-- `PayloadSlot::lift` leaves `null` in the field, and `Some(null)` in an optional
one, so that serde still writes its key. -/
def lift (key : String) (event : WorkflowEvent) : WorkflowEvent :=
  event.mapPayload key (fun _ => .null) (Option.map fun _ => .null)

/-- Every payload that is not `null`, by key, and the event without them. -/
def liftPayloads (event : WorkflowEvent) : List (String × Option Json) × WorkflowEvent :=
  payloadFieldKeys.foldl
    (fun (lifted, event) key => (lifted ++ [(key, event.liftedPayload key)], event.lift key))
    ([], event)

/-- Puts a lifted payload back, if the event has a slot for it. -/
def restorePayload (event : WorkflowEvent) : String × Option Json → WorkflowEvent
  | (key, some payload) => event.fill key payload
  | (_, none) => event

def restorePayloads (event : WorkflowEvent) (lifted : List (String × Option Json)) :
    WorkflowEvent :=
  lifted.foldl restorePayload event

/-- The event with `null` in every payload field that is there. -/
def nulled (event : WorkflowEvent) : WorkflowEvent :=
  event.mapPayloads (fun _ _ => .null) fun _ => Option.map fun _ => .null

/-- The event as serde reads it back: an optional payload that is `null` is absent. -/
def dropNulls (event : WorkflowEvent) : WorkflowEvent :=
  event.mapPayloads (fun _ value => value) fun _ => Option.filter nonNull

/-! ### Laws of the slots -/

theorem mapPayloads_mapPayloads (f f' : String → Json → Json)
    (g g' : String → Option Json → Option Json) (event : WorkflowEvent) :
    (event.mapPayloads f g).mapPayloads f' g' =
      event.mapPayloads (fun k => f' k ∘ f k) fun k => g' k ∘ g k := by
  cases event <;> rfl

/-- A write only sees what the slots hold. -/
theorem mapPayloads_congr {f f' : String → Json → Json} {g g' : String → Option Json → Option Json}
    {event : WorkflowEvent}
    (hrequired : ∀ key ∈ payloadFieldKeys, ∀ v, event.payloadSlot key = some (.required v) →
      f key v = f' key v)
    (hoptional : ∀ key ∈ payloadFieldKeys, ∀ o, event.payloadSlot key = some (.optional o) →
      g key o = g' key o) :
    event.mapPayloads f g = event.mapPayloads f' g' := by
  cases event <;> simp only [mapPayloads]
  all_goals congr 1
  all_goals first
    | exact hrequired _ (by simp [payloadFieldKeys]) _ rfl
    | exact hoptional _ (by simp [payloadFieldKeys]) _ rfl

theorem mapPayloads_id (event : WorkflowEvent) :
    event.mapPayloads (fun _ => id) (fun _ => id) = event := by
  cases event <;> rfl

/-- What a slot holds after a write. -/
def PayloadSlot.map (f : String → Json → Json) (g : String → Option Json → Option Json)
    (key : String) : PayloadSlot → PayloadSlot
  | .required value => .required (f key value)
  | .optional value => .optional (g key value)

theorem named_map (f : String → Json → Json) (g : String → Option Json → Option Json)
    (name key : String) (slot : PayloadSlot) :
    named name key (slot.map f g name) = (named name key slot).map (PayloadSlot.map f g key) := by
  unfold named
  split_ifs with h
  · rw [h]
    rfl
  · rfl

theorem payloadSlot_mapPayloads (key : String) (f : String → Json → Json)
    (g : String → Option Json → Option Json) (event : WorkflowEvent) :
    (event.mapPayloads f g).payloadSlot key =
      (event.payloadSlot key).map (PayloadSlot.map f g key) := by
  cases event with
  | workflowStarted input timestamp lastCompletionResult lastError scheduledTime =>
    simp only [mapPayloads, payloadSlot]
    split_ifs with hinput hlast
    · rw [hinput]
      rfl
    · rw [hlast]
      rfl
    · rfl
  | _ =>
    simp only [mapPayloads, payloadSlot]
    first
    | rfl
    | exact named_map f g _ key (.required _)
    | exact named_map f g _ key (.optional _)

/-- Writes through the slots of different keys are one write. -/
theorem foldl_mapPayload (f : String → Json → Json) (g : String → Option Json → Option Json)
    {keys : List String} (hnodup : keys.Nodup) (event : WorkflowEvent) :
    keys.foldl (fun event key => event.mapPayload key (f key) (g key)) event =
      event.mapPayloads (fun k => if k ∈ keys then f k else id)
        fun k => if k ∈ keys then g k else id := by
  induction keys generalizing event with
  | nil => simpa using (mapPayloads_id event).symm
  | cons key keys ih =>
    obtain ⟨hnew, hnodup⟩ := List.nodup_cons.mp hnodup
    rw [List.foldl_cons, ih hnodup, mapPayload, mapPayloads_mapPayloads]
    congr 1
    all_goals
      funext k
      by_cases hk : k = key
      · subst hk
        simp [hnew]
      · simp [hk]

theorem payloadFieldKeys_nodup : payloadFieldKeys.Nodup := by decide

theorem liftPayloads_eq (event : WorkflowEvent) :
    event.liftPayloads =
      (payloadFieldKeys.map fun key => (key, event.liftedPayload key), event.nulled) := by
  cases event <;> rfl

theorem restorePayload_eq (event : WorkflowEvent) (key : String) (lifted : Option Json) :
    event.restorePayload (key, lifted) =
      event.mapPayload key (fun v => lifted.getD v) fun o =>
        lifted.elim o fun p => if nonNull p then some p else none := by
  cases lifted with
  | none =>
    have hid : ∀ {α : Type} (k : String), (if k = key then fun x : α => x else id) = id := by
      intro α k
      split_ifs <;> rfl
    simp only [restorePayload, mapPayload, Option.getD_none, Option.elim_none, hid]
    exact (mapPayloads_id event).symm
  | some p => rfl

/-- **What was lifted out goes back where it was.** -/
theorem restorePayloads_lifted (event : WorkflowEvent) :
    event.nulled.dropNulls.restorePayloads
      (payloadFieldKeys.map fun key => (key, event.liftedPayload key)) = event.dropNulls := by
  unfold restorePayloads
  rw [List.foldl_map]
  simp only [restorePayload_eq]
  rw [foldl_mapPayload (fun key v => (event.liftedPayload key).getD v)
    (fun key o => (event.liftedPayload key).elim o fun p => if nonNull p then some p else none)
    payloadFieldKeys_nodup]
  unfold dropNulls nulled
  rw [mapPayloads_mapPayloads, mapPayloads_mapPayloads]
  apply mapPayloads_congr
  · intro key hkey v hslot
    have hlifted : event.liftedPayload key = Option.filter nonNull (some v) := by
      simp [liftedPayload, payload, hslot]
    simp only [Function.comp_apply, if_pos hkey, hlifted]
    cases v <;> rfl
  · intro key hkey o hslot
    have hlifted : event.liftedPayload key = Option.filter nonNull o := by
      simp [liftedPayload, payload, hslot]
    simp only [Function.comp_apply, if_pos hkey, hlifted]
    cases o with
    | none => rfl
    | some v => cases v <;> rfl

end WorkflowEvent
end Harvest
