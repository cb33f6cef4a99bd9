import Harvest.Codec.Reencrypt
import Harvest.Lib.Runs
import Harvest.Reset.Resolve

/-!
# The activities of a recorded fork

Model of `resolve_activity` in `fork.rs`: an activity that a fork schedules gets the result of an
override, or the outcome that the source recorded for the same occurrence of the same name with the
same input, or a failure.

Proved here:
* `overrideFor_iff`: the override that counts is the first one after the last marker.
* `nthScheduled_iff`: the occurrence that is found has that many schedules of the name before it.
* `recordedTerminal_of_outcome`: the record is the first outcome of that occurrence.
* `resolveActivity_recorded`: what a fork in recorded mode does with an activity.
-/

namespace Harvest

def ForkEffects.isLive : ForkEffects → Bool
  | .live
  | .liveQuiet => true
  | .recorded => false

namespace Reset

open Codec (isErasureTombstone)
open Lib (lastIdx? lastIdx?_eq_some lastIdx?_eq_none)

/-- The source and the effects of the last marker. -/
def forkMarker (events : List WorkflowEvent) : Option (ExecutionId × ForkEffects) :=
  events.reverse.findSome? fun
    | .workflowForked source _ effects .. => some (source, effects)
    | _ => none

/-- What a fork does with one activity that it just scheduled. -/
inductive ForkResolution
  | run
  | serve (event : WorkflowEvent)
  | hold
deriving DecidableEq, Repr

def terminalActivityId : WorkflowEvent → Option ActivityExecId
  | .activityCompleted id _
  | .activityFailed id ..
  | .activityTimedOut id _ => some id
  | _ => none

/-! ## Occurrences -/

def schedulesId (id : ActivityExecId) : WorkflowEvent → Bool
  | .activityScheduled own .. => own = id
  | _ => false

/-- `u32::try_from(count).unwrap_or(u32::MAX)` -/
def toOccurrence (count : ℕ) : UInt32 := UInt32.ofNat (min count 4294967295)

/-- Name, 1-based occurrence and input of the first schedule of the activity. -/
def scheduledOccurrence (events : List WorkflowEvent) (id : ActivityExecId) :
    Option (String × UInt32 × Json) :=
  (events.findIdx? (schedulesId id)).bind fun index =>
    match events[index]? with
    | some (.activityScheduled _ name input _) =>
      some (name, toOccurrence (carriedOccurrences (events.take index) name + 1), input)
    | _ => none

/-- The loop of `nth_scheduled`, with the schedules seen so far. -/
def nthScheduledFrom (name : String) (occurrence : UInt32) (seen : ℕ) :
    List WorkflowEvent → Option ℕ
  | [] => none
  | event :: rest =>
    if schedulesActivity name event then
      if seen + 1 = occurrence.toNat then some 0
      else (nthScheduledFrom name occurrence (seen + 1) rest).map (· + 1)
    else (nthScheduledFrom name occurrence seen rest).map (· + 1)

/-- The index of the `occurrence`-th schedule of the name. -/
def nthScheduled (events : List WorkflowEvent) (name : String) (occurrence : UInt32) : Option ℕ :=
  nthScheduledFrom name occurrence 0 events

/-! ## Overrides -/

def isForkMarker : WorkflowEvent → Bool
  | .workflowForked .. => true
  | _ => false

def isOverride : WorkflowEvent → Bool
  | .forkActivityResultOverridden .. => true
  | _ => false

/-- The overrides that belong to the last marker. -/
def ownOverrideIndices (events : List WorkflowEvent) : List ℕ :=
  match lastIdx? isForkMarker events with
  | none => []
  | some marker =>
    (List.range' marker (events.length - marker)).filter fun index =>
      (events[index]?).any isOverride

/-- The result that an event sets for this occurrence. -/
def overrideOutput (name : String) (occurrence : UInt32) : WorkflowEvent → Option Json
  | .forkActivityResultOverridden activityName at_ output =>
    if activityName = name ∧ at_ = occurrence then some output else none
  | _ => none

def overrideFor (events : List WorkflowEvent) (name : String) (occurrence : UInt32) : Option Json :=
  (ownOverrideIndices events).findSome? fun index =>
    (events[index]?).bind (overrideOutput name occurrence)

/-! ## The record of the source -/

def raceLoserError : String := "lost race to a sibling branch"

def scopeCancelledError : String := "cancelled by its cancellation scope"

/-- The terminal that the engine writes for a branch that lost, or for a cancelled scope. -/
def isRaceLoser : WorkflowEvent → Bool
  | .activityFailed _ error attempt errorType nonRetryable details =>
    attempt = 1 && nonRetryable && details = none &&
      (error = raceLoserError || error = scopeCancelledError) && errorType = "Error"
  | _ => false

/-- The failure of a dispatch that the engine abandoned before a worker saw it. -/
def isSynthetic (source : List WorkflowEvent) : WorkflowEvent → Bool
  | .activityFailed id error attempt errorType nonRetryable details =>
    attempt = 1 && nonRetryable && details = none && error = abandonedDispatchReason &&
      errorType = "Error" && !source.any fun
        | .activityStarted seen _
        | .activityHeartbeat seen _ => seen = id
        | _ => false
  | _ => false

def isErased : WorkflowEvent → Bool
  | .activityCompleted _ output => isErasureTombstone output
  | .activityFailed _ _ _ _ _ details => details.any isErasureTombstone
  | _ => false

/-- `recorded_terminal` -/
def recordedTerminal (source : List WorkflowEvent) (name : String) (occurrence : UInt32)
    (input : Json) : Option WorkflowEvent :=
  (nthScheduled source name occurrence).bind fun index =>
    match source[index]? with
    | some (.activityScheduled sourceId _ recordedInput _) =>
      if recordedInput ≠ input ∨ isErasureTombstone recordedInput then none
      else
        ((source.drop (index + 1)).find? fun event => terminalActivityId event = some sourceId).bind
          fun terminal => if isErased terminal then none else some terminal
    | _ => none

def rebind (event : WorkflowEvent) (id : ActivityExecId) : WorkflowEvent :=
  match event with
  | .activityCompleted _ output => .activityCompleted id output
  | .activityFailed _ error attempt errorType nonRetryable details =>
    .activityFailed id error attempt errorType nonRetryable details
  | .activityTimedOut _ timeoutType => .activityTimedOut id timeoutType
  | event => event

def unavailable (id : ActivityExecId) (name : String) (occurrence : UInt32) : WorkflowEvent :=
  .activityFailed id
    ("fork has no recorded result for activity '" ++ name ++ "' (occurrence " ++
      toString occurrence.toNat ++
      "); set an activity override, or fork with effects = live to run it")
    1 "ForkEffectUnavailable" true none

/-- What recorded mode does with an occurrence that has no override. -/
def fromRecord (source : List WorkflowEvent) (id : ActivityExecId) (name : String)
    (occurrence : UInt32) (input : Json) : ForkResolution :=
  match recordedTerminal source name occurrence input with
  | some event =>
    if isRaceLoser event then .hold
    else if !isSynthetic source event then .serve (rebind event id)
    else .serve (unavailable id name occurrence)
  | none => .serve (unavailable id name occurrence)

/-- `resolve_activity` -/
def resolveActivity (fork source : List WorkflowEvent) (id : ActivityExecId) : ForkResolution :=
  if fork.any fun event => terminalActivityId event = some id then .run
  else
    match scheduledOccurrence fork id with
    | none => .run
    | some (name, occurrence, input) =>
      match overrideFor fork name occurrence with
      | some output => .serve (.activityCompleted id output)
      | none =>
        let effects := ((forkMarker fork).map Prod.snd).getD .recorded
        if effects.isLive then .run else fromRecord source id name occurrence input

/-! ## Which occurrence is found -/

theorem carriedOccurrences_cons (name : String) (event : WorkflowEvent)
    (events : List WorkflowEvent) :
    carriedOccurrences (event :: events) name =
      (if schedulesActivity name event then 1 else 0) + carriedOccurrences events name := by
  unfold carriedOccurrences
  rw [List.countP_cons, Nat.add_comm]
  congr 1

theorem nthScheduledFrom_iff {name : String} {occurrence : UInt32} {seen index : ℕ}
    {events : List WorkflowEvent} :
    nthScheduledFrom name occurrence seen events = some index ↔
      (∃ event, events[index]? = some event ∧ schedulesActivity name event = true) ∧
        seen + carriedOccurrences (events.take index) name + 1 = occurrence.toNat := by
  induction events generalizing seen index with
  | nil => simp [nthScheduledFrom]
  | cons event rest ih =>
    unfold nthScheduledFrom
    by_cases hevent : schedulesActivity name event = true
    · rw [if_pos hevent]
      by_cases hseen : seen + 1 = occurrence.toNat
      · rw [if_pos hseen]
        cases index with
        | zero => simp [hevent, carriedOccurrences, hseen]
        | succ index =>
          have hne : ¬ seen + carriedOccurrences (event :: rest.take index) name + 1 =
              occurrence.toNat := by
            rw [carriedOccurrences_cons, if_pos hevent]
            omega
          simp [hne]
      · rw [if_neg hseen]
        cases index with
        | zero => simp [carriedOccurrences, hseen]
        | succ index =>
          rw [List.take_succ_cons, carriedOccurrences_cons, if_pos hevent, ← Nat.add_assoc]
          simpa using ih
    · rw [if_neg hevent]
      cases index with
      | zero => simp [hevent]
      | succ index =>
        rw [List.take_succ_cons, carriedOccurrences_cons, if_neg hevent, Nat.zero_add]
        simpa using ih

/-- The occurrence that is found has that many schedules of the name up to it. -/
theorem nthScheduled_iff {events : List WorkflowEvent} {name : String} {occurrence : UInt32}
    {index : ℕ} :
    nthScheduled events name occurrence = some index ↔
      (∃ event, events[index]? = some event ∧ schedulesActivity name event = true) ∧
        carriedOccurrences (events.take index) name + 1 = occurrence.toNat := by
  unfold nthScheduled
  rw [nthScheduledFrom_iff, Nat.zero_add]

/-- The activity has an occurrence when the history schedules it. -/
theorem scheduledOccurrence_of_mem {events : List WorkflowEvent} {id : ActivityExecId}
    (h : events.any (schedulesId id) = true) :
    ∃ index name input queue, events.findIdx? (schedulesId id) = some index ∧
      events[index]? = some (.activityScheduled id name input queue) ∧
      scheduledOccurrence events id =
        some (name, toOccurrence (carriedOccurrences (events.take index) name + 1), input) := by
  obtain ⟨index, hindex⟩ : ∃ index, events.findIdx? (schedulesId id) = some index := by
    rw [← List.findIdx?_isSome] at h
    exact Option.isSome_iff_exists.mp h
  obtain ⟨hlt, hown, -⟩ := List.findIdx?_eq_some_iff_getElem.mp hindex
  have hget : events[index]? = some events[index] := List.getElem?_eq_getElem hlt
  cases hevent : events[index] with
  | activityScheduled own name input queue =>
    rw [hevent] at hown hget
    obtain rfl : own = id := by simpa [schedulesId] using hown
    refine ⟨index, name, input, queue, hindex, hget, ?_⟩
    simp [scheduledOccurrence, hindex, hget]
  | _ =>
    rw [hevent] at hown
    cases hown

/-! ## Which override counts -/

/-- The last marker of the history. -/
def IsLastMarker (events : List WorkflowEvent) (marker : ℕ) : Prop :=
  (∃ event, events[marker]? = some event ∧ isForkMarker event = true) ∧
    ∀ j event, marker < j → events[j]? = some event → isForkMarker event = false

/-- The first override after the last marker for the occurrence. -/
def FirstOverride (events : List WorkflowEvent) (name : String) (occurrence : UInt32)
    (output : Json) : Prop :=
  ∃ marker index, IsLastMarker events marker ∧ marker < index ∧
    events[index]? = some (.forkActivityResultOverridden name occurrence output) ∧
    ∀ j, marker < j → j < index → (events[j]?).bind (overrideOutput name occurrence) = none

theorem isLastMarker_unique {events : List WorkflowEvent} {a b : ℕ} (ha : IsLastMarker events a)
    (hb : IsLastMarker events b) : a = b := by
  obtain ⟨⟨first, hfirst, hmark⟩, hafter⟩ := ha
  obtain ⟨⟨second, hsecond, hmark'⟩, hafter'⟩ := hb
  rcases Nat.lt_trichotomy a b with hlt | heq | hlt
  · have hno := hafter b second hlt hsecond
    rw [hmark'] at hno
    cases hno
  · exact heq
  · have hno := hafter' a first hlt hfirst
    rw [hmark] at hno
    cases hno

theorem overrideOutput_eq_some {name : String} {occurrence : UInt32} {event : WorkflowEvent}
    {output : Json} (h : overrideOutput name occurrence event = some output) :
    event = .forkActivityResultOverridden name occurrence output := by
  cases event with
  | forkActivityResultOverridden activityName at_ out =>
    unfold overrideOutput at h
    dsimp only at h
    split at h
    case isTrue hsame =>
      obtain ⟨rfl, rfl⟩ := hsame
      rw [Option.some.inj h]
    case isFalse => cases h
  | _ => cases h

theorem mem_ownOverrideIndices {events : List WorkflowEvent} {index : ℕ} :
    index ∈ ownOverrideIndices events ↔ ∃ marker, lastIdx? isForkMarker events = some marker ∧
      marker ≤ index ∧ ∃ event, events[index]? = some event ∧ isOverride event = true := by
  unfold ownOverrideIndices
  split
  case h_1 hnone => simp [hnone]
  case h_2 marker hmarker =>
    have hlt : marker < events.length :=
      (List.getElem?_eq_some_iff.mp (lastIdx?_eq_some hmarker).1.choose_spec.1).1
    simp only [List.mem_filter, List.mem_range'_1, hmarker, Option.some.injEq, exists_eq_left',
      Option.any_eq_true]
    constructor
    · rintro ⟨⟨hle, -⟩, event, hevent, hover⟩
      exact ⟨hle, event, hevent, hover⟩
    · rintro ⟨hle, event, hevent, hover⟩
      have hindex := (List.getElem?_eq_some_iff.mp hevent).1
      exact ⟨⟨hle, by omega⟩, event, hevent, hover⟩

theorem pairwise_ownOverrideIndices (events : List WorkflowEvent) :
    (ownOverrideIndices events).Pairwise (· < ·) := by
  unfold ownOverrideIndices
  split
  case h_1 => exact .nil
  case h_2 => exact List.Pairwise.sublist List.filter_sublist (List.pairwise_lt_range' _)

theorem firstOverride_of_overrideFor {events : List WorkflowEvent} {name : String}
    {occurrence : UInt32} {output : Json} (h : overrideFor events name occurrence = some output) :
    FirstOverride events name occurrence output := by
  obtain ⟨before, index, after, hsplit, hfound, hbefore⟩ := List.findSome?_eq_some_iff.mp h
  obtain ⟨event, hevent, houtput⟩ := Option.bind_eq_some_iff.mp hfound
  obtain rfl := overrideOutput_eq_some houtput
  have hmem : index ∈ ownOverrideIndices events := by simp [hsplit]
  obtain ⟨marker, hmarker, hle, -⟩ := mem_ownOverrideIndices.mp hmem
  have hlast := lastIdx?_eq_some hmarker
  have hlt : marker < index := by
    refine Nat.lt_of_le_of_ne hle fun heq => ?_
    obtain ⟨⟨other, hother, hmark⟩, -⟩ := hlast
    rw [heq, hevent] at hother
    cases hother
    cases hmark
  refine ⟨marker, index, hlast, hlt, hevent, fun j hj hji => ?_⟩
  -- an earlier override would stand before this one in the list of indices
  by_contra hsome
  obtain ⟨out, hout⟩ := Option.ne_none_iff_exists'.mp hsome
  obtain ⟨earlier, hearlier, hset⟩ := Option.bind_eq_some_iff.mp hout
  obtain rfl := overrideOutput_eq_some hset
  have hjmem : j ∈ ownOverrideIndices events :=
    mem_ownOverrideIndices.mpr ⟨marker, hmarker, hj.le, _, hearlier, rfl⟩
  have hordered := pairwise_ownOverrideIndices events
  rw [hsplit] at hjmem hordered
  rcases List.mem_append.mp hjmem with hjbefore | hjafter
  · exact hsome (hbefore j hjbefore)
  · rcases List.mem_cons.mp hjafter with rfl | hjafter
    · exact absurd hji (Nat.lt_irrefl _)
    · have := (List.pairwise_cons.mp (List.pairwise_append.mp hordered).2.1).1 j hjafter
      omega

/-- The first override is found: there is one, and no other is first. -/
theorem overrideFor_of_firstOverride {events : List WorkflowEvent} {name : String}
    {occurrence : UInt32} {output : Json} (h : FirstOverride events name occurrence output) :
    overrideFor events name occurrence = some output := by
  obtain ⟨marker, index, hmarker, hlt, hevent, hfirst⟩ := h
  have hset : (events[index]?).bind (overrideOutput name occurrence) = some output := by
    simp [hevent, overrideOutput]
  obtain ⟨last, hlast⟩ : ∃ last, lastIdx? isForkMarker events = some last := by
    obtain ⟨⟨event, hat, hmark⟩, -⟩ := hmarker
    cases hlast : lastIdx? isForkMarker events with
    | none =>
      have hno := lastIdx?_eq_none hlast event (List.mem_of_getElem? hat)
      rw [hmark] at hno
      cases hno
    | some last => exact ⟨last, rfl⟩
  have hsame : last = marker := isLastMarker_unique (lastIdx?_eq_some hlast) hmarker
  have hmem : index ∈ ownOverrideIndices events :=
    mem_ownOverrideIndices.mpr ⟨last, hlast, by omega, _, hevent, rfl⟩
  cases hfound : overrideFor events name occurrence with
  | none =>
    have hno := List.findSome?_eq_none_iff.mp hfound index hmem
    rw [hset] at hno
    cases hno
  | some found =>
    obtain ⟨marker', index', hmarker', hlt', hevent', hfirst'⟩ := firstOverride_of_overrideFor hfound
    have hmarkers : marker' = marker := isLastMarker_unique hmarker' hmarker
    rcases Nat.lt_trichotomy index index' with hless | rfl | hmore
    · have hno := hfirst' index (by omega) hless
      rw [hset] at hno
      cases hno
    · rw [hevent] at hevent'
      cases hevent'
      rfl
    · have hno := hfirst index' (by omega) hmore
      simp [hevent', overrideOutput] at hno

/-- **The override that counts** is the first one after the last marker. -/
theorem overrideFor_iff {events : List WorkflowEvent} {name : String} {occurrence : UInt32}
    {output : Json} :
    overrideFor events name occurrence = some output ↔ FirstOverride events name occurrence output :=
  ⟨firstOverride_of_overrideFor, overrideFor_of_firstOverride⟩

/-! ## What the source recorded -/

/-- The first outcome that the source recorded for this occurrence with this input. -/
def FirstOutcome (source : List WorkflowEvent) (name : String) (occurrence : ℕ) (input : Json)
    (event : WorkflowEvent) : Prop :=
  ∃ index id queue, source[index]? = some (.activityScheduled id name input queue) ∧
    carriedOccurrences (source.take index) name + 1 = occurrence ∧
    (source.drop (index + 1)).find? (fun event => terminalActivityId event = some id) = some event

/-- **The record is the first outcome of the occurrence**, unless it was erased. -/
theorem recordedTerminal_of_outcome {source : List WorkflowEvent} {name : String}
    {occurrence : UInt32} {input : Json} {event : WorkflowEvent}
    (h : FirstOutcome source name occurrence.toNat input event)
    (hinput : isErasureTombstone input = false) (hevent : isErased event = false) :
    recordedTerminal source name occurrence input = some event := by
  obtain ⟨index, id, queue, hat, hcount, hfirst⟩ := h
  have hnth : nthScheduled source name occurrence = some index :=
    nthScheduled_iff.mpr ⟨⟨_, hat, by simp [schedulesActivity]⟩, hcount⟩
  simp [recordedTerminal, hnth, hat, hinput, hfirst, hevent]

theorem terminal_of_recordedTerminal {source : List WorkflowEvent} {name : String}
    {occurrence : UInt32} {input : Json} {event : WorkflowEvent}
    (h : recordedTerminal source name occurrence input = some event) :
    ∃ id, terminalActivityId event = some id := by
  obtain ⟨index, -, hindex⟩ := Option.bind_eq_some_iff.mp h
  split at hindex
  case h_2 => cases hindex
  case h_1 =>
    split at hindex
    case isTrue => cases hindex
    case isFalse =>
      obtain ⟨terminal, hterminal, hkept⟩ := Option.bind_eq_some_iff.mp hindex
      split at hkept
      case isTrue => cases hkept
      case isFalse =>
        obtain rfl := Option.some.inj hkept
        exact ⟨_, by simpa using List.find?_some hterminal⟩

/-- A served outcome is one of the activity that asked. -/
theorem terminalActivityId_rebind {event : WorkflowEvent} {own : ActivityExecId}
    (h : terminalActivityId event = some own) (id : ActivityExecId) :
    terminalActivityId (rebind event id) = some id := by
  cases event with
  | activityCompleted => rfl
  | activityFailed => rfl
  | activityTimedOut => rfl
  | _ => cases h

/-! ## A fork in recorded mode -/

/-- The last marker, if there is one, is in recorded mode. -/
def RecordedFork (fork : List WorkflowEvent) : Prop :=
  ∀ source effects, forkMarker fork = some (source, effects) → effects = .recorded

/-- The fork schedules the activity, and it has no outcome yet. -/
structure NewActivity (fork : List WorkflowEvent) (id : ActivityExecId) : Prop where
  scheduled : fork.any (schedulesId id) = true
  pending : ∀ event ∈ fork, terminalActivityId event ≠ some id

/-- **What a recorded fork does with a new activity**: its override, or what the record gives. -/
theorem resolveActivity_recorded {fork : List WorkflowEvent} (hfork : RecordedFork fork)
    {id : ActivityExecId} (hnew : NewActivity fork id) {name : String} {occurrence : UInt32}
    {input : Json} (hoccurrence : scheduledOccurrence fork id = some (name, occurrence, input))
    (source : List WorkflowEvent) :
    resolveActivity fork source id =
      match overrideFor fork name occurrence with
      | some output => .serve (.activityCompleted id output)
      | none => fromRecord source id name occurrence input := by
  have hpending : (fork.any fun event => terminalActivityId event = some id) = false := by
    simpa using hnew.pending
  have heffects : (((forkMarker fork).map Prod.snd).getD .recorded).isLive = false := by
    cases hmarker : forkMarker fork with
    | none => rfl
    | some marker => simp [hfork marker.1 marker.2 hmarker, ForkEffects.isLive]
  unfold resolveActivity
  rw [hpending, hoccurrence]
  dsimp only
  rw [heffects]
  rfl

/-- The record serves the first outcome of the occurrence. -/
theorem fromRecord_of_outcome {source : List WorkflowEvent} {id : ActivityExecId} {name : String}
    {occurrence : UInt32} {input : Json} {event : WorkflowEvent}
    (h : FirstOutcome source name occurrence.toNat input event)
    (hinput : isErasureTombstone input = false) (hevent : isErased event = false)
    (hsynthetic : isSynthetic source event = false) (hloser : isRaceLoser event = false) :
    fromRecord source id name occurrence input = .serve (rebind event id) := by
  simp [fromRecord, recordedTerminal_of_outcome h hinput hevent, hsynthetic, hloser]

theorem fromRecord_cases (source : List WorkflowEvent) (id : ActivityExecId) (name : String)
    (occurrence : UInt32) (input : Json) :
    fromRecord source id name occurrence input = .hold ∨
      ∃ event, fromRecord source id name occurrence input = .serve event ∧
        terminalActivityId event = some id := by
  unfold fromRecord
  split
  case h_2 => exact .inr ⟨_, rfl, rfl⟩
  case h_1 event hevent =>
    obtain ⟨own, hown⟩ := terminal_of_recordedTerminal hevent
    split
    case isTrue => exact .inl rfl
    case isFalse =>
      split
      case isTrue => exact .inr ⟨_, rfl, terminalActivityId_rebind hown id⟩
      case isFalse => exact .inr ⟨_, rfl, rfl⟩

/-! ## Two histories with the same schedules -/

/-- The input of an event that schedules the name. -/
def scheduledInput (name : String) : WorkflowEvent → Option Json
  | .activityScheduled _ scheduled input _ => if scheduled = name then some input else none
  | _ => none

theorem isSome_scheduledInput (name : String) (event : WorkflowEvent) :
    (scheduledInput name event).isSome = schedulesActivity name event := by
  cases event with
  | activityScheduled id scheduled input queue =>
    by_cases h : scheduled = name <;> simp [scheduledInput, schedulesActivity, h]
  | _ => rfl

/-- The inputs that a history schedules for the name, in order. -/
def inputsOf (name : String) (events : List WorkflowEvent) : List Json :=
  events.filterMap (scheduledInput name)

/-- The input of an occurrence stands at its number. -/
theorem getElem?_inputsOf {name : String} {events : List WorkflowEvent} {index : ℕ}
    {id : ActivityExecId} {input : Json} {queue : String}
    (h : events[index]? = some (.activityScheduled id name input queue)) :
    (inputsOf name events)[carriedOccurrences (events.take index) name]? = some input := by
  induction events generalizing index with
  | nil => cases h
  | cons event rest ih =>
    cases index with
    | zero =>
      obtain rfl := Option.some.inj h
      simp [inputsOf, scheduledInput, carriedOccurrences]
    | succ index =>
      have hrest := ih (by simpa using h)
      unfold inputsOf at hrest ⊢
      rw [List.take_succ_cons, carriedOccurrences_cons, ← isSome_scheduledInput]
      cases hinput : scheduledInput name event with
      | none =>
        rw [List.filterMap_cons_none hinput]
        simpa using hrest
      | some first =>
        rw [List.filterMap_cons_some hinput]
        simpa [Nat.add_comm 1] using hrest

/-- Histories are numbered with `i32` event ids. -/
structure History where
  events : List WorkflowEvent
  numbered : events.length ≤ 2147483648

/-- Below the bound, an occurrence is counted exactly. -/
theorem toNat_toOccurrence {events : List WorkflowEvent} (h : events.length ≤ 2147483648)
    (index : ℕ) (name : String) :
    (toOccurrence (carriedOccurrences (events.take index) name + 1)).toNat =
      carriedOccurrences (events.take index) name + 1 := by
  have hle : carriedOccurrences (events.take index) name ≤ events.length :=
    List.countP_le_length.trans (by rw [List.length_take]; omega)
  unfold toOccurrence
  rw [Nat.min_eq_left (by omega), UInt32.toNat_ofNat_of_lt' (by
    change _ < 4294967296
    omega)]

end Reset
end Harvest
