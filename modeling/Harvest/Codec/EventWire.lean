import Harvest.Event

/-!
# The wire form of an event

What the derived serializer writes for every variant: an object with the variant's
name under `type` and its fields under `data`. Absent optional fields are skipped.
How ids, instants and retry policies are written is a parameter; no payload path
looks at them.

Proved here:
* `lookup_fields`: the payload keys of `data` hold exactly what the slots hold.
* `fields_mapPayloads`: writing the slots is writing these keys.
-/

namespace Harvest

open Json

def SideEffectKind.variantName : SideEffectKind → String
  | .now => "Now"
  | .uuid => "Uuid"
  | .random => "Random"
  | .custom => "Custom"
  | .entityState => "EntityState"

def TimeoutType.variantName : TimeoutType → String
  | .startToClose => "StartToClose"
  | .scheduleToStart => "ScheduleToStart"
  | .scheduleToClose => "ScheduleToClose"
  | .heartbeat => "Heartbeat"
  | .workflowExecution => "WorkflowExecution"
  | .workflowChain => "WorkflowChain"

def ParentClosePolicy.asStr : ParentClosePolicy → String
  | .abandon => "abandon"
  | .requestCancel => "request_cancel"
  | .terminate => "terminate"

def ForkEffects.asStr : ForkEffects → String
  | .recorded => "recorded"
  | .live => "live"
  | .liveQuiet => "live_quiet"

def ofU64 (n : UInt64) : Json := .num (.posInt n)

def ofU32 (n : UInt32) : Json := .num (.posInt n.toUInt64)

def ofI64 (n : Int64) : Json :=
  if n < 0 then .num (.negInt n) else .num (.posInt n.toUInt64)

/-- How the types of other crates are written. -/
structure PlainSerde where
  uuid : Uuid → Json
  time : DateTime → Json
  retryPolicy : RetryPolicy → Json

/-- Untagged: the id itself, or an object that names the workflow. -/
def PlainSerde.target (plain : PlainSerde) : ExternalTarget → Json
  | .executionId id => plain.uuid id.uuid
  | .workflowId workflowName workflowId =>
    .obj [("workflow_id", .str workflowId), ("workflow_name", .str workflowName)]

/-- A field with `skip_serializing_if = "Option::is_none"`. -/
def optionalField (name : String) : Option Json → List (String × Json)
  | some value => [(name, value)]
  | none => []

namespace WorkflowEvent

def typeName : WorkflowEvent → String
  | .workflowStarted .. => "WorkflowStarted"
  | .workflowCompleted .. => "WorkflowCompleted"
  | .workflowFailed .. => "WorkflowFailed"
  | .workflowCancelled .. => "WorkflowCancelled"
  | .workflowCancelRequested .. => "WorkflowCancelRequested"
  | .activityScheduled .. => "ActivityScheduled"
  | .activityStarted .. => "ActivityStarted"
  | .activityCompleted .. => "ActivityCompleted"
  | .activityFailed .. => "ActivityFailed"
  | .activityTimedOut .. => "ActivityTimedOut"
  | .activityHeartbeat .. => "ActivityHeartbeat"
  | .timerStarted .. => "TimerStarted"
  | .timerFired .. => "TimerFired"
  | .signalReceived .. => "SignalReceived"
  | .childWorkflowStarted .. => "ChildWorkflowStarted"
  | .childWorkflowCompleted .. => "ChildWorkflowCompleted"
  | .childWorkflowFailed .. => "ChildWorkflowFailed"
  | .markerRecorded .. => "MarkerRecorded"
  | .workflowContinuedAsNew .. => "WorkflowContinuedAsNew"
  | .localActivityScheduled .. => "LocalActivityScheduled"
  | .localActivityCompleted .. => "LocalActivityCompleted"
  | .localActivityFailed .. => "LocalActivityFailed"
  | .activityAwaitingExternal .. => "ActivityAwaitingExternal"
  | .activityCompletedExternally .. => "ActivityCompletedExternally"
  | .activityFailedExternally .. => "ActivityFailedExternally"
  | .activityExternalDeadlineExtended .. => "ActivityExternalDeadlineExtended"
  | .updateAdmitted .. => "UpdateAdmitted"
  | .updateCompleted .. => "UpdateCompleted"
  | .updateFailed .. => "UpdateFailed"
  | .workflowResetFork .. => "WorkflowResetFork"
  | .workflowResetTerminated .. => "WorkflowResetTerminated"
  | .localActivityExhausted .. => "LocalActivityExhausted"
  | .externalSignalRequested .. => "ExternalSignalRequested"
  | .externalSignalDelivered .. => "ExternalSignalDelivered"
  | .externalSignalFailed .. => "ExternalSignalFailed"
  | .childWorkflowSpawnedDetached .. => "ChildWorkflowSpawnedDetached"
  | .childWorkflowCascadeApplied .. => "ChildWorkflowCascadeApplied"
  | .workflowExecutionTimedOut .. => "WorkflowExecutionTimedOut"
  | .sideEffectRecorded .. => "SideEffectRecorded"
  | .workflowExecutionPaused .. => "WorkflowExecutionPaused"
  | .workflowExecutionResumed .. => "WorkflowExecutionResumed"
  | .externalCancelRequested .. => "ExternalCancelRequested"
  | .externalCancelDelivered .. => "ExternalCancelDelivered"
  | .externalCancelFailed .. => "ExternalCancelFailed"
  | .workflowRedriven .. => "WorkflowRedriven"
  | .workflowRetryScheduled .. => "WorkflowRetryScheduled"
  | .timerCancelled .. => "TimerCancelled"
  | .externalAwaitRequested .. => "ExternalAwaitRequested"
  | .externalAwaitResolved .. => "ExternalAwaitResolved"
  | .externalAwaitFailed .. => "ExternalAwaitFailed"
  | .mutexGranted .. => "MutexGranted"
  | .decisionCommitted .. => "DecisionCommitted"
  | .workflowForked .. => "WorkflowForked"
  | .forkActivityResultOverridden .. => "ForkActivityResultOverridden"

/-- The fields of a variant in the order of the source; the object sorts them. -/
def fields (plain : PlainSerde) : WorkflowEvent → List (String × Json)
  | .workflowStarted input timestamp lastCompletionResult lastError scheduledTime =>
    [("input", input), ("timestamp", plain.time timestamp)] ++
      optionalField "last_completion_result" lastCompletionResult ++
      optionalField "last_error" (lastError.map .str) ++
      optionalField "scheduled_time" (scheduledTime.map plain.time)
  | .workflowCompleted output =>
    [("output", output)]
  | .workflowFailed error errorType details nonRetryable =>
    [("error", .str error)] ++
      optionalField "error_type" (errorType.map .str) ++
      optionalField "details" details ++
      optionalField "non_retryable" (nonRetryable.map .bool)
  | .workflowCancelled reason =>
    [("reason", .str reason)]
  | .workflowCancelRequested reason =>
    [("reason", .str reason)]
  | .activityScheduled activityId name input queue =>
    [("activity_id", plain.uuid activityId.uuid), ("name", .str name), ("input", input),
     ("queue", .str queue)]
  | .activityStarted activityId workerId =>
    [("activity_id", plain.uuid activityId.uuid), ("worker_id", .str workerId.name)]
  | .activityCompleted activityId output =>
    [("activity_id", plain.uuid activityId.uuid), ("output", output)]
  | .activityFailed activityId error attempt errorType nonRetryable details =>
    [("activity_id", plain.uuid activityId.uuid), ("error", .str error),
     ("attempt", ofU32 attempt), ("error_type", .str errorType),
     ("non_retryable", .bool nonRetryable)] ++
      optionalField "details" details
  | .activityTimedOut activityId timeoutType =>
    [("activity_id", plain.uuid activityId.uuid),
     ("timeout_type", .str timeoutType.variantName)]
  | .activityHeartbeat activityId details =>
    [("activity_id", plain.uuid activityId.uuid), ("details", details)]
  | .timerStarted timerId durationSecs =>
    [("timer_id", .str timerId.name), ("duration_secs", ofU64 durationSecs)]
  | .timerFired timerId =>
    [("timer_id", .str timerId.name)]
  | .signalReceived signalName payload =>
    [("signal_name", .str signalName), ("payload", payload)]
  | .childWorkflowStarted childId workflowName input =>
    [("child_id", plain.uuid childId.uuid), ("workflow_name", .str workflowName),
     ("input", input)]
  | .childWorkflowCompleted childId output =>
    [("child_id", plain.uuid childId.uuid), ("output", output)]
  | .childWorkflowFailed childId error errorType details nonRetryable =>
    [("child_id", plain.uuid childId.uuid), ("error", .str error)] ++
      optionalField "error_type" (errorType.map .str) ++
      optionalField "details" details ++
      optionalField "non_retryable" (nonRetryable.map .bool)
  | .markerRecorded name details =>
    [("name", .str name), ("details", details)]
  | .workflowContinuedAsNew newExecId input newWorkflowType =>
    [("new_exec_id", plain.uuid newExecId.uuid), ("input", input)] ++
      optionalField "new_workflow_type" (newWorkflowType.map .str)
  | .localActivityScheduled activityId name input resolved retryPolicy startToCloseNanos =>
    [("activity_id", plain.uuid activityId.uuid), ("name", .str name), ("input", input),
     ("resolved", .bool resolved)] ++
      optionalField "retry_policy" (retryPolicy.map plain.retryPolicy) ++
      optionalField "start_to_close_nanos" (startToCloseNanos.map ofU64)
  | .localActivityCompleted activityId output =>
    [("activity_id", plain.uuid activityId.uuid), ("output", output)]
  | .localActivityFailed activityId error attempt =>
    [("activity_id", plain.uuid activityId.uuid), ("error", .str error),
     ("attempt", ofU32 attempt)]
  | .activityAwaitingExternal activityId token name input queue scheduleToCloseSecs =>
    [("activity_id", plain.uuid activityId.uuid), ("token", plain.uuid token.uuid),
     ("name", .str name), ("input", input), ("queue", .str queue),
     ("schedule_to_close_secs", ofU64 scheduleToCloseSecs)]
  | .activityCompletedExternally activityId token output =>
    [("activity_id", plain.uuid activityId.uuid), ("token", plain.uuid token.uuid),
     ("output", output)]
  | .activityFailedExternally activityId token error retryable =>
    [("activity_id", plain.uuid activityId.uuid), ("token", plain.uuid token.uuid),
     ("error", .str error), ("retryable", .bool retryable)]
  | .activityExternalDeadlineExtended activityId token =>
    [("activity_id", plain.uuid activityId.uuid), ("token", plain.uuid token.uuid)]
  | .updateAdmitted updateId name input timestamp =>
    [("update_id", plain.uuid updateId.uuid), ("name", .str name), ("input", input),
     ("timestamp", plain.time timestamp)]
  | .updateCompleted updateId output =>
    [("update_id", plain.uuid updateId.uuid), ("output", output)]
  | .updateFailed updateId error =>
    [("update_id", plain.uuid updateId.uuid), ("error", .str error)]
  | .workflowResetFork resetFromExecId resetToEventId reason operatorId =>
    [("reset_from_exec_id", plain.uuid resetFromExecId.uuid),
     ("reset_to_event_id", ofI64 resetToEventId), ("reason", .str reason),
     ("operator_id", .str operatorId)]
  | .workflowResetTerminated resetToExecId reason operatorId =>
    [("reset_to_exec_id", plain.uuid resetToExecId.uuid), ("reason", .str reason),
     ("operator_id", .str operatorId)]
  | .localActivityExhausted activityId error attempt =>
    [("activity_id", plain.uuid activityId.uuid), ("error", .str error),
     ("attempt", ofU32 attempt)]
  | .externalSignalRequested signalId target signalName payload idempotencyKey =>
    [("signal_id", plain.uuid signalId.uuid), ("target", plain.target target),
     ("signal_name", .str signalName), ("payload", payload)] ++
      optionalField "idempotency_key" (idempotencyKey.map .str)
  | .externalSignalDelivered signalId =>
    [("signal_id", plain.uuid signalId.uuid)]
  | .externalSignalFailed signalId reasonCode =>
    [("signal_id", plain.uuid signalId.uuid), ("reason_code", .str reasonCode)]
  | .childWorkflowSpawnedDetached childId workflowName input parentClosePolicy =>
    [("child_id", plain.uuid childId.uuid), ("workflow_name", .str workflowName),
     ("input", input), ("parent_close_policy", .str parentClosePolicy.asStr)]
  | .childWorkflowCascadeApplied childId policy action =>
    [("child_id", plain.uuid childId.uuid), ("policy", .str policy.asStr),
     ("action", .str action)]
  | .workflowExecutionTimedOut deadline timedOutAt =>
    [("deadline", plain.time deadline), ("timed_out_at", plain.time timedOutAt)]
  | .sideEffectRecorded kind name value =>
    [("kind", .str kind.variantName)] ++
      optionalField "name" (name.map .str) ++
      [("value", value)]
  | .workflowExecutionPaused pausedAt reason actor =>
    [("paused_at", plain.time pausedAt)] ++
      optionalField "reason" (reason.map .str) ++
      [("actor", .str actor)]
  | .workflowExecutionResumed resumedAt actor =>
    [("resumed_at", plain.time resumedAt), ("actor", .str actor)]
  | .externalCancelRequested cancelId target =>
    [("cancel_id", plain.uuid cancelId.uuid), ("target", plain.target target)]
  | .externalCancelDelivered cancelId =>
    [("cancel_id", plain.uuid cancelId.uuid)]
  | .externalCancelFailed cancelId reasonCode =>
    [("cancel_id", plain.uuid cancelId.uuid), ("reason_code", .str reasonCode)]
  | .workflowRedriven redrivenAt deadLetterId reason =>
    [("redriven_at", plain.time redrivenAt), ("dead_letter_id", plain.uuid deadLetterId)] ++
      optionalField "reason" (reason.map .str)
  | .workflowRetryScheduled retryExecId attempt fireAt =>
    [("retry_exec_id", plain.uuid retryExecId.uuid), ("attempt", ofU32 attempt),
     ("fire_at", plain.time fireAt)]
  | .timerCancelled timerId =>
    [("timer_id", .str timerId.name)]
  | .externalAwaitRequested awaitId target =>
    [("await_id", plain.uuid awaitId.uuid), ("target", plain.uuid target.uuid)]
  | .externalAwaitResolved awaitId output =>
    [("await_id", plain.uuid awaitId.uuid), ("output", output)]
  | .externalAwaitFailed awaitId reasonCode message errorType details nonRetryable =>
    [("await_id", plain.uuid awaitId.uuid), ("reason_code", .str reasonCode)] ++
      optionalField "message" (message.map .str) ++
      optionalField "error_type" (errorType.map .str) ++
      optionalField "details" details ++
      optionalField "non_retryable" (nonRetryable.map .bool)
  | .mutexGranted key lockSeq acquiredAt =>
    [("key", .str key), ("lock_seq", ofI64 lockSeq), ("acquired_at", plain.time acquiredAt)]
  | .decisionCommitted buildId workerId =>
    [("build_id", .str buildId.name), ("worker_id", .str workerId.name)]
  | .workflowForked forkedFromExecId forkEventId effects reason operatorId =>
    [("forked_from_exec_id", plain.uuid forkedFromExecId.uuid),
     ("fork_event_id", ofI64 forkEventId), ("effects", .str effects.asStr),
     ("reason", .str reason), ("operator_id", .str operatorId)]
  | .forkActivityResultOverridden activityName occurrence output =>
    [("activity_name", .str activityName), ("occurrence", ofU32 occurrence), ("output", output)]

/-- `serde_json::to_value` of an event. -/
def toValue (plain : PlainSerde) (event : WorkflowEvent) : Json :=
  .obj [("data", .obj (ofPairs (event.fields plain))), ("type", .str event.typeName)]

/-! ## Payload keys of the wire form -/

/-- Applies `f` to the values under payload keys. -/
def mapFields (f : String → Json → Json) (fields : List (String × Json)) :
    List (String × Json) :=
  fields.map fun (k, v) => (k, if k ∈ payloadFieldKeys then f k v else v)

theorem mapFields_nil (f : String → Json → Json) : mapFields f [] = [] := rfl

theorem mapFields_cons (f : String → Json → Json) (k : String) (v : Json)
    (rest : List (String × Json)) :
    mapFields f ((k, v) :: rest) =
      (k, if k ∈ payloadFieldKeys then f k v else v) :: mapFields f rest := rfl

theorem mapFields_append (f : String → Json → Json) (xs ys : List (String × Json)) :
    mapFields f (xs ++ ys) = mapFields f xs ++ mapFields f ys := List.map_append ..

theorem mapFields_optionalField (f : String → Json → Json) (name : String) (o : Option Json) :
    mapFields f (optionalField name o) =
      optionalField name (o.map fun v => if name ∈ payloadFieldKeys then f name v else v) := by
  cases o <;> rfl

theorem mapFields_insertField (f : String → Json → Json) (key : String) (value : Json)
    (fields : List (String × Json)) :
    mapFields f (insertField key value fields) =
      insertField key (if key ∈ payloadFieldKeys then f key value else value)
        (mapFields f fields) := by
  induction fields with
  | nil => rfl
  | cons kv rest ih =>
    obtain ⟨k, v⟩ := kv
    rw [mapFields_cons]
    unfold insertField
    by_cases hlt : key < k
    · simp [hlt, mapFields_cons]
    · by_cases heq : key = k
      · simp [heq, mapFields_cons]
      · simp [hlt, heq, mapFields_cons, ih]

theorem mapFields_ofPairs (f : String → Json → Json) (pairs : List (String × Json)) :
    mapFields f (ofPairs pairs) = ofPairs (mapFields f pairs) := by
  induction pairs with
  | nil => rfl
  | cons kv rest ih =>
    obtain ⟨k, v⟩ := kv
    rw [ofPairs_cons, mapFields_insertField, ih]
    rfl

theorem lookup_mapFields (f : String → Json → Json) (fields : List (String × Json)) {key : String}
    (hkey : key ∈ payloadFieldKeys) :
    (mapFields f fields).lookup key = (fields.lookup key).map (f key) := by
  induction fields with
  | nil => rfl
  | cons kv rest ih =>
    obtain ⟨k, v⟩ := kv
    rw [mapFields_cons, lookup_cons_ite, lookup_cons_ite, ih]
    by_cases h : key = k
    · subst h
      simp [hkey]
    · simp [h]

theorem mapFields_mapFields (f g : String → Json → Json) (fields : List (String × Json)) :
    mapFields f (mapFields g fields) = mapFields (fun k => f k ∘ g k) fields := by
  induction fields with
  | nil => rfl
  | cons kv rest ih =>
    obtain ⟨k, v⟩ := kv
    rw [mapFields_cons, mapFields_cons, mapFields_cons, ih]
    by_cases h : k ∈ payloadFieldKeys <;> simp [h]

/-- A constant write only matters under the keys that are there. -/
theorem mapFields_congr {f g : String → Json} {fields : List (String × Json)}
    (h : ∀ key ∈ payloadFieldKeys, (fields.lookup key).isSome → f key = g key) :
    mapFields (fun k _ => f k) fields = mapFields (fun k _ => g k) fields := by
  apply List.map_congr_left
  rintro ⟨k, v⟩ hmem
  by_cases hk : k ∈ payloadFieldKeys
  · have hthere : (fields.lookup k).isSome := by
      rw [List.lookup_isSome_iff]
      exact ⟨(k, v), hmem, by simp⟩
    simp [hk, h k hk hthere]
  · simp [hk]

theorem fields_mapPayloads (plain : PlainSerde) (f : String → Json → Json)
    (event : WorkflowEvent) :
    (event.mapPayloads f fun k => Option.map (f k)).fields plain =
      mapFields f (event.fields plain) := by
  cases event <;>
    simp [fields, mapPayloads, mapFields_nil, mapFields_cons, mapFields_append,
      mapFields_optionalField, payloadFieldKeys, Function.comp_def]

theorem lookup_optionalField (name key : String) (o : Option Json) :
    (optionalField name o).lookup key = if key = name then o else none := by
  cases o with
  | none => simp [optionalField]
  | some v => simp [optionalField, lookup_cons_ite]

theorem lookup_fields (plain : PlainSerde) (event : WorkflowEvent) {key : String}
    (hkey : key ∈ payloadFieldKeys) :
    (event.fields plain).lookup key = event.payload key := by
  simp only [payloadFieldKeys, List.mem_cons, List.not_mem_nil, or_false] at hkey
  cases event <;> rcases hkey with rfl | rfl | rfl | rfl | rfl | rfl <;>
    simp [fields, payload, payloadSlot, named, lookup_cons_ite, lookup_optionalField,
      List.lookup_append]

end WorkflowEvent
end Harvest
