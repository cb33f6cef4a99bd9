import Harvest.Lib.Inserted
import Harvest.Replay.Ahead
import Harvest.Replay.Delivery

/-!
# Sequential workflows

A workflow that makes one call after the other, each of them settled, and the history that it
leaves: the records of each call in order, and between them signals that no call waits for and
update events.

Proved here:
* `Follows.exec`, `Follows.replay`: one call and all calls take from the history what they recorded.
* `sequential_replay_returns_the_records`: replaying the calls returns what was recorded and leaves
  no command behind.
-/

namespace Harvest.Replay

open HistoryMatcher Lib

/-! ## Calls and their records -/

/-- A record of a running activity. -/
inductive Progress
  | started (workerId : WorkerId)
  | heartbeat (details : Json)

def Progress.event (id : ActivityExecId) : Progress → WorkflowEvent
  | started workerId => .activityStarted id workerId
  | heartbeat details => .activityHeartbeat id details

inductive ActivityEnd
  | completed (output : Json)
  | failed (error : String) (attempt : UInt32) (errorType : String) (nonRetryable : Bool)
      (details : Option Json)
  | timedOut (timeoutType : TimeoutType)

namespace ActivityEnd

def event (id : ActivityExecId) : ActivityEnd → WorkflowEvent
  | completed output => .activityCompleted id output
  | failed error attempt errorType nonRetryable details =>
    .activityFailed id error attempt errorType nonRetryable details
  | timedOut timeoutType => .activityTimedOut id timeoutType

def result : ActivityEnd → HistoryMatch
  | completed output => .matched output
  | failed error attempt errorType nonRetryable details =>
    .failed error attempt errorType details nonRetryable
  | timedOut timeoutType => .timedOut timeoutType

end ActivityEnd

inductive ChildEnd
  | completed (output : Json)
  | failed (error : String) (errorType : Option String) (details : Option Json)
      (nonRetryable : Option Bool)

namespace ChildEnd

def event (id : ExecutionId) : ChildEnd → WorkflowEvent
  | completed output => .childWorkflowCompleted id output
  | failed error errorType details nonRetryable =>
    .childWorkflowFailed id error errorType details nonRetryable

def result : ChildEnd → HistoryMatch
  | completed output => .matched output
  | failed error errorType details nonRetryable =>
    .failed error 1 (errorType.getD "Error") details (nonRetryable.getD false)

end ChildEnd

/-- A settled call of a sequential workflow. -/
inductive SequentialCall
  | activity (id : ActivityExecId) (name : String) (input : Json) (queue : String)
      (progress : List Progress) (ended : ActivityEnd)
  /-- `strict` is whether the call states the duration. -/
  | timer (id : TimerId) (duration : UInt64) (strict : Bool)
  | childWorkflow (id : ExecutionId) (name : String) (input : Json) (ended : ChildEnd)
  | signal (name : String) (payload : Json)
  | version (changeId : String) (minVersion maxVersion recorded : UInt32)

/-- What a call returns. -/
inductive CallResult
  | result (result : HistoryMatch)
  | version (version : UInt32)
deriving DecidableEq

/-- The call returned what a run recorded, and nothing else. -/
def CallResult.isRecorded : CallResult → Bool
  | .result (.matched _) | .result (.failed ..) | .result (.timedOut _) | .version _ => true
  | _ => false

namespace SequentialCall

/-- The records of a call: its command, its progress and its end. -/
def events : SequentialCall → List WorkflowEvent
  | activity id name input queue progress ended =>
    .activityScheduled id name input queue :: progress.map (·.event id) ++ [ended.event id]
  | timer id duration _ => [.timerStarted id duration, .timerFired id]
  | childWorkflow id name input ended => [.childWorkflowStarted id name input, ended.event id]
  | signal name payload => [.signalReceived name payload]
  | version changeId _ _ recorded =>
    [.markerRecorded (versionMarkerName changeId) (.num (.posInt recorded.toUInt64))]

/-- What the call returned when it was made. -/
def recorded : SequentialCall → CallResult
  | activity _ _ _ _ _ ended => .result ended.result
  | timer .. => .result (.matched .null)
  | childWorkflow _ _ _ ended => .result ended.result
  | signal _ payload => .result (.matched payload)
  | version _ _ _ recorded => .version recorded

/-- The signal that a call waits for. -/
def waitsFor : SequentialCall → Option String
  | signal name _ => some name
  | _ => none

def childId : SequentialCall → Option ExecutionId
  | childWorkflow id .. => some id
  | _ => none

/-- The activity has a name that replay does not keep for itself. -/
def isAwaited : SequentialCall → Bool
  | activity _ name .. => name ≠ sessionDropReleaseActivityName
  | _ => true

variable (showJson : Json → String)

def exec (m : HistoryMatcher) : SequentialCall → CallResult × HistoryMatcher
  | activity _ name .. =>
    let (result, m) := m.matchActivity name
    (.result result, m)
  | timer id duration strict =>
    let (result, m) := m.matchTimerStrict id.name (if strict then some duration else none)
    (.result result, m)
  | childWorkflow _ name input _ =>
    let (result, m) := m.matchChildWorkflow showJson name input
    (.result result, m)
  | signal name _ =>
    let (result, m) := m.matchSignal name
    (.result result, m)
  | version changeId minVersion maxVersion _ =>
    let (answer, m) := m.matchVersion changeId minVersion maxVersion
    (.version answer, m)

/-- The calls one after the other. -/
def replay : List SequentialCall → HistoryMatcher → List CallResult × HistoryMatcher
  | [], m => ([], m)
  | call :: calls, m =>
    let (result, m) := exec showJson m call
    let (results, m) := replay calls m
    (result :: results, m)

end SequentialCall

/-! ## Histories -/

/-- The names that the calls wait for. -/
def waitedNames (calls : List SequentialCall) : List String :=
  calls.filterMap SequentialCall.waitsFor

/-- A signal that no call waits for, or an update event. -/
def IsNoise (waited : List String) : WorkflowEvent → Prop
  | .signalReceived name _ => name ∉ waited
  | event => isUpdateEvent event

/-- The history holds the records of the calls in order, with noise at any positions. -/
def RecordsOf (calls : List SequentialCall) (history : List WorkflowEvent) : Prop :=
  Inserted (IsNoise (waitedNames calls)) (calls.flatMap SequentialCall.events) history

def isWorkflowStarted : WorkflowEvent → Bool
  | .workflowStarted .. => true
  | _ => false

/-- The matcher at the first call on the history: a new one, or one that has gone past the start of
the workflow. -/
def OpensAt (history : List WorkflowEvent) (m : HistoryMatcher) : Prop :=
  m = new history ∨
    ∃ started, isWorkflowStarted started ∧ m = (new (started :: history)).advance

/-! ## Opening a plain history -/

namespace HistoryMatcher

/-- No pass of `new` reads the event. -/
def isPlain (event : WorkflowEvent) : Bool :=
  ! isCommandFreeBookkeeping event && ! isRedriveLifecycleEvent event && ! isWorkflowFailed event &&
    match event with
    | .activityScheduled _ name _ _ => name ≠ sessionDropReleaseActivityName
    | _ => true

section Plain

variable {events : List WorkflowEvent} (hplain : ∀ event ∈ events, isPlain event)
include hplain

theorem dropRelease_of_plain : dropReleaseIndices events = [] := by
  have hstep (entries : List (WorkflowEvent × Nat)) (h : ∀ entry ∈ entries, isPlain entry.1) :
      entries.foldl releaseStep ([], []) = ([], []) := by
    induction entries with
    | nil => rfl
    | cons entry entries ih =>
      have hkeep : releaseStep ([], []) entry = ([], []) := by
        have hentry := h entry List.mem_cons_self
        obtain ⟨event, i⟩ := entry
        simp only [isPlain, Bool.and_eq_true] at hentry
        cases event with
        | activityScheduled activityId name input queue =>
          exact if_neg (of_decide_eq_true hentry.2)
        | _ => simp [releaseStep]
      rw [List.foldl_cons, hkeep]
      exact ih fun entry hentry => h entry (List.mem_cons_of_mem _ hentry)
  rw [dropReleaseIndices, hstep events.zipIdx fun entry hentry =>
    hplain entry.1 (List.fst_mem_of_mem_zipIdx hentry)]

/-- **Nothing of a plain history is transparent.** -/
theorem transparentOf_of_plain : transparentOf events = ∅ := by
  have hquiet : ∀ event ∈ events, isQuiet event := fun event hevent =>
    (Bool.and_eq_true_iff.mp (hplain event hevent)).1
  rw [transparentOf_of_quiet hquiet, dropRelease_of_plain hplain]
  rfl

end Plain

end HistoryMatcher

/-! ## Records and noise -/

section Noise

variable {waited : List String} {event : WorkflowEvent} {i : Nat}

theorem IsNoise.cases (h : IsNoise waited event) :
    (∃ name payload, event = .signalReceived name payload ∧ name ∉ waited) ∨
      isUpdateEvent event = true := by
  cases event with
  | signalReceived name payload => exact .inl ⟨name, payload, rfl, h⟩
  | _ => exact .inr h

theorem update_spec (h : isUpdateEvent event = true) (i : Nat) :
    activityScanRole event = .pass ∧ isCommandEvent event = false ∧ isPlain event = true ∧
      isTransparentExternalEvent event = false ∧ stashEntry (event, i) = none ∧
      ∀ name, ignoredBy name (event, i) = true := by
  cases event <;> first | exact ⟨rfl, rfl, rfl, rfl, rfl, fun _ => rfl⟩ | cases h

theorem isDrained_of_noise (h : IsNoise waited event) : isDrained (event, i) = true := by
  rcases h.cases with ⟨name, payload, rfl, -⟩ | hupdate
  · rfl
  · exact Bool.or_eq_true_iff.mpr (.inr hupdate)

theorem passedBy_of_noise (h : IsNoise waited event) (target : ScanTarget) :
    passedBy target (event, i) = true := by
  rcases h.cases with ⟨name, payload, rfl, -⟩ | hupdate
  · rfl
  · rw [passedBy, (update_spec hupdate i).1]
    cases target <;> exact Bool.or_true _

theorem ignoredBy_of_noise {name : String} (h : IsNoise waited event) (hname : name ∈ waited) :
    ignoredBy name (event, i) = true := by
  rcases h.cases with ⟨other, payload, rfl, hother⟩ | hupdate
  · exact decide_eq_true fun heq => hother (heq ▸ hname)
  · exact (update_spec hupdate i).2.2.2.2.2 name

theorem not_command_of_noise (h : IsNoise waited event) : isCommandEvent event = false := by
  rcases h.cases with ⟨name, payload, rfl, -⟩ | hupdate
  · rfl
  · exact (update_spec hupdate 0).2.1

theorem isPlain_of_noise (h : IsNoise waited event) : isPlain event = true := by
  rcases h.cases with ⟨name, payload, rfl, -⟩ | hupdate
  · rfl
  · exact (update_spec hupdate 0).2.2.1

/-- What noise leaves in the stash has a name that no call waits for. -/
theorem not_waited_of_noise {entry : StashedSignal} (h : IsNoise waited event)
    (hentry : stashEntry (event, i) = some entry) : entry.name ∉ waited := by
  rcases h.cases with ⟨name, payload, rfl, hname⟩ | hupdate
  · obtain rfl := Option.some.inj hentry
    exact hname
  · rw [(update_spec hupdate i).2.2.2.2.1] at hentry
    cases hentry

end Noise

/-- The child that the event ends. -/
def childTerminalOf (event : WorkflowEvent) : Option ExecutionId :=
  match activityScanRole event with
  | .childTerminal id => some id
  | _ => none

theorem childTerminalOf_eq_some {event : WorkflowEvent} {id : ExecutionId} :
    childTerminalOf event = some id ↔ activityScanRole event = .childTerminal id := by
  unfold childTerminalOf
  cases activityScanRole event <;> simp

theorem childTerminalOf_of_noise {waited : List String} {event : WorkflowEvent}
    (h : IsNoise waited event) : childTerminalOf event = none := by
  rcases h.cases with ⟨name, payload, rfl, -⟩ | hupdate
  · rfl
  · rw [childTerminalOf, (update_spec hupdate 0).1]

namespace SequentialCall

variable {call : SequentialCall} {event : WorkflowEvent}

/-- A record of a call is plain, and external only when it is a signal. -/
theorem events_spec (hawaited : call.isAwaited) (h : event ∈ call.events) (i : Nat) :
    isPlain event = true ∧ (isTransparentExternalEvent event → (stashEntry (event, i)).isSome) := by
  cases call with
  | activity id name input queue progress ended =>
    simp only [events, List.cons_append, List.mem_cons, List.mem_append, List.mem_map,
      List.not_mem_nil, or_false] at h
    rcases h with rfl | ⟨step, -, rfl⟩ | rfl
    · exact ⟨hawaited, nofun⟩
    · cases step <;> exact ⟨rfl, nofun⟩
    · cases ended <;> exact ⟨rfl, nofun⟩
  | timer id duration strict =>
    rcases List.mem_cons.mp h with rfl | h
    · exact ⟨rfl, nofun⟩
    · rw [List.mem_singleton.mp h]
      exact ⟨rfl, nofun⟩
  | childWorkflow id name input ended =>
    rcases List.mem_cons.mp h with rfl | h
    · exact ⟨rfl, nofun⟩
    · rw [List.mem_singleton.mp h]
      cases ended <;> exact ⟨rfl, nofun⟩
  | signal name payload =>
    rw [List.mem_singleton.mp h]
    exact ⟨rfl, fun _ => rfl⟩
  | version changeId minVersion maxVersion recorded =>
    rw [List.mem_singleton.mp h]
    exact ⟨rfl, nofun⟩

/-- The records of a call end its own child, if it has one. -/
theorem filterMap_childTerminalOf (call : SequentialCall) :
    call.events.filterMap childTerminalOf = call.childId.toList := by
  cases call with
  | activity id name input queue progress ended =>
    have hprogress : (progress.map (Progress.event id)).filterMap childTerminalOf = [] := by
      rw [List.filterMap_map, List.filterMap_eq_nil_iff]
      intro step _
      cases step <;> rfl
    have hended : [ended.event id].filterMap childTerminalOf = [] := by
      cases ended <;> rfl
    change ([] ++ (progress.map (Progress.event id) ++ [ended.event id])).filterMap childTerminalOf = []
    rw [List.nil_append, List.filterMap_append, hprogress, hended]
    rfl
  | timer id duration strict => rfl
  | childWorkflow id name input ended => cases ended <;> rfl
  | signal name payload => rfl
  | version changeId minVersion maxVersion recorded => rfl

theorem filterMap_childTerminalOf_flatMap (calls : List SequentialCall) :
    (calls.flatMap events).filterMap childTerminalOf = calls.filterMap childId := by
  induction calls with
  | nil => rfl
  | cons call calls ih =>
    rw [List.flatMap_cons, List.filterMap_append, ih, filterMap_childTerminalOf]
    cases hchild : call.childId with
    | none => rw [List.filterMap_cons_none hchild, Option.toList_none, List.nil_append]
    | some id => rw [List.filterMap_cons_some hchild, Option.toList_some, List.singleton_append]

end SequentialCall

/-! ## One call -/

/-- The matcher has the records of these calls ahead, with noise, and has stashed noise only. -/
structure Follows (history : List WorkflowEvent) (waited : List String)
    (calls : List SequentialCall) (m : HistoryMatcher) : Prop where
  ahead : Inserted (IsNoise waited) (calls.flatMap SequentialCall.events) (m.ahead.map Prod.fst)
  pending : ∀ entry ∈ m.pendingSignals.entries, entry.name ∉ waited
  external : m.external = .new
  served : ∃ returned, Served history returned ⟨m, []⟩

namespace Follows

variable {history : List WorkflowEvent} {waited : List String} {call : SequentialCall}
  {calls : List SequentialCall} {m m' : HistoryMatcher}

theorem noExternal (h : Follows history waited calls m) (hawaited : ∀ call ∈ calls, call.isAwaited) :
    NoExternal m.ahead := by
  intro entry hentry hexternal
  rcases h.ahead.mem (List.mem_map_of_mem hentry) with hrecord | hnoise
  · obtain ⟨call, hcall, hevent⟩ := List.mem_flatMap.mp hrecord
    exact (SequentialCall.events_spec (hawaited call hcall) hevent entry.2).2 hexternal
  · rcases hnoise.cases with ⟨name, payload, heq, -⟩ | hupdate
    · obtain ⟨event, i⟩ := entry
      obtain rfl : event = _ := heq
      rfl
    · rw [(update_spec hupdate 0).2.2.2.1] at hexternal
      cases hexternal

/-- After a call that went past noise and past records that no stash keeps. -/
theorem next (h : Follows history waited (call :: calls) m)
    {passed rest : List (WorkflowEvent × Nat)} (hmoves : Moves m m' passed rest)
    (hpassed : ∀ entry ∈ passed, IsNoise waited entry.1 ∨ stashEntry entry = none)
    (hrest : Inserted (IsNoise waited) (calls.flatMap SequentialCall.events) (rest.map Prod.fst))
    (hserved : ∃ returned, Served history returned ⟨m', []⟩) : Follows history waited calls m' := by
  refine ⟨hmoves.ahead ▸ hrest, fun stashed hstashed => ?_, hmoves.external.trans h.external,
    hserved⟩
  rw [hmoves.pending] at hstashed
  rcases List.mem_append.mp hstashed with hold | hnew
  · exact h.pending stashed hold
  · obtain ⟨entry, hentry, hstash⟩ := List.mem_filterMap.mp hnew
    rcases hpassed entry hentry with hnoise | hnone
    · exact not_waited_of_noise hnoise hstash
    · rw [hnone] at hstash
      cases hstash

/-- The first record of the call, after noise that a match drains. -/
theorem front (h : Follows history waited (call :: calls) m) {event : WorkflowEvent}
    {more : List WorkflowEvent} (hevents : call.events = event :: more) :
    ∃ passed i rest, m.ahead = passed ++ (event, i) :: rest ∧
      (∀ entry ∈ passed, IsNoise waited entry.1) ∧
      Inserted (IsNoise waited) (more ++ calls.flatMap SequentialCall.events)
        (rest.map Prod.fst) := by
  have hahead := h.ahead
  rw [List.flatMap_cons, hevents] at hahead
  obtain ⟨passed, ⟨event', i⟩, rest, heq, rfl, hpassed, hrest⟩ := @Inserted.split_map _ _ _ []
    (more ++ calls.flatMap SequentialCall.events) event Prod.fst m.ahead hahead
  exact ⟨passed, i, rest, heq, fun entry hentry => (hpassed entry hentry).resolve_left nofun, hrest⟩

end Follows

theorem dropWhile_of_noise {waited : List String} {passed rest : List (WorkflowEvent × Nat)}
    {entry : WorkflowEvent × Nat} (hpassed : ∀ entry ∈ passed, IsNoise waited entry.1)
    (hentry : isDrained entry = false) :
    (passed ++ entry :: rest).dropWhile isDrained = entry :: rest ∧
      (passed ++ entry :: rest).takeWhile isDrained = passed := by
  have hall : ∀ entry ∈ passed, isDrained entry = true := fun entry h =>
    isDrained_of_noise (hpassed entry h)
  constructor
  · rw [List.dropWhile_append_of_pos hall, List.dropWhile_cons_of_neg (by simp [hentry])]
  · rw [List.takeWhile_append_of_pos hall, List.takeWhile_cons_of_neg (by simp [hentry]),
      List.append_nil]

section Calls

variable {history : List WorkflowEvent} {waited : List String} {calls : List SequentialCall}
  {m : HistoryMatcher}

theorem Served.exec_served {returned : List (String × Json)} (h : Served history returned ⟨m, []⟩)
    (showJson : Json → String) (call : Call) :
    ∃ returned, Served history returned (call.exec showJson ⟨m, []⟩).2 := by
  obtain ⟨indices, hexecs⟩ := @Served.exec history returned ⟨m, []⟩ showJson h call
  exact ⟨_, hexecs.served⟩

/-- What stands between the command of a call and its end. -/
theorem Inserted.ending {records more : List WorkflowEvent} {ended : WorkflowEvent}
    {images : List (WorkflowEvent × Nat)}
    (h : Inserted (IsNoise waited) ((records ++ [ended]) ++ more) (images.map Prod.fst)) :
    ∃ passed i rest, images = passed ++ (ended, i) :: rest ∧
      (∀ entry ∈ passed, entry.1 ∈ records ∨ IsNoise waited entry.1) ∧
      Inserted (IsNoise waited) more (rest.map Prod.fst) := by
  rw [List.append_assoc, List.singleton_append] at h
  obtain ⟨passed, ⟨event, i⟩, rest, heq, rfl, hpassed, hrest⟩ := Inserted.split_map h
  exact ⟨passed, i, rest, heq, hpassed, hrest⟩

theorem Follows.activity {id : ActivityExecId} {name : String} {input : Json} {queue : String}
    {progress : List Progress} {ended : ActivityEnd}
    (h : Follows history waited (.activity id name input queue progress ended :: calls) m)
    (hplain : NoExternal m.ahead) :
    (m.matchActivity name).1 = ended.result ∧
      Follows history waited calls (m.matchActivity name).2 := by
  obtain ⟨front, i, after, hahead, hfront, hafter⟩ := h.front rfl
  obtain ⟨passed, stop, rest, rfl, hpassed, hrest⟩ := Inserted.ending hafter
  obtain ⟨hdrop, htake⟩ := @dropWhile_of_noise waited front (passed ++ (ended.event id, stop) :: rest)
    (.activityScheduled id name input queue, i) hfront rfl
  rw [← hahead] at hdrop htake
  have hprogress : ∀ entry ∈ passed, entry.1 ∈ progress.map (Progress.event id) →
      passedBy (.activity id) entry = true ∧ stashEntry entry = none := by
    rintro ⟨event, j⟩ - hmem
    obtain ⟨step, -, rfl⟩ := List.mem_map.mp hmem
    cases step <;> exact ⟨rfl, rfl⟩
  obtain ⟨returned, hserved⟩ := h.served
  obtain ⟨hresult, hmoves⟩ := matchActivity_ahead h.external hplain hdrop
    (fun entry hentry => (hpassed entry hentry).elim (fun hmem => (hprogress entry hentry hmem).1)
      fun hnoise => passedBy_of_noise hnoise _)
    (show ScanTarget.stopsAt (.activity id) (activityScanRole (ended.event id)) from by
      cases ended <;> exact decide_eq_true rfl)
    (show activityResult (ended.event id) = some ended.result from by cases ended <;> rfl)
  refine ⟨hresult, h.next hmoves (fun entry hentry => ?_) hrest
    (hserved.exec_served (fun _ => "") (.matchActivity name))⟩
  rw [htake] at hentry
  rcases List.mem_append.mp hentry with hentry | hentry
  · exact .inl (hfront entry hentry)
  · exact (hpassed entry hentry).symm.imp_right fun hmem => (hprogress entry hentry hmem).2

theorem Follows.timer {id : TimerId} {duration : UInt64} {strict : Bool}
    (h : Follows history waited (.timer id duration strict :: calls) m)
    (hplain : NoExternal m.ahead) :
    let expected := if strict then some duration else none
    (m.matchTimerStrict id.name expected).1 = .matched .null ∧
      Follows history waited calls (m.matchTimerStrict id.name expected).2 := by
  intro expected
  have hsame : durationDiffers expected duration = none := by
    cases strict <;> simp [expected, durationDiffers]
  obtain ⟨front, i, after, hahead, hfront, hafter⟩ := h.front rfl
  obtain ⟨passed, stop, rest, rfl, hpassed, hrest⟩ := @Inserted.ending waited [] _ _ _ hafter
  replace hpassed : ∀ entry ∈ passed, IsNoise waited entry.1 := fun entry hentry =>
    (hpassed entry hentry).resolve_left nofun
  obtain ⟨hdrop, htake⟩ := @dropWhile_of_noise waited front (passed ++ (.timerFired id, stop) :: rest)
    (.timerStarted id duration, i) hfront rfl
  rw [← hahead] at hdrop htake
  obtain ⟨returned, hserved⟩ := h.served
  obtain ⟨hresult, hmoves⟩ := matchTimerStrict_ahead h.external hplain hsame hdrop
    fun entry hentry => passedBy_of_noise (hpassed entry hentry) _
  refine ⟨hresult, h.next hmoves (fun entry hentry => .inl ?_) hrest
    (hserved.exec_served (fun _ => "") (.matchTimerStrict id.name expected))⟩
  rw [htake] at hentry
  exact (List.mem_append.mp hentry).elim (hfront entry) (hpassed entry)

theorem Follows.signal {name : String} {payload : Json} (hname : name ∈ waited)
    (h : Follows history waited (.signal name payload :: calls) m) :
    (m.matchSignal name).1 = .matched payload ∧
      Follows history waited calls (m.matchSignal name).2 := by
  obtain ⟨passed, i, rest, hahead, hpassed, hrest⟩ := h.front rfl
  obtain ⟨returned, hserved⟩ := h.served
  obtain ⟨hresult, hmoves⟩ := matchSignal_ahead
    (fun entry hentry heq => h.pending entry hentry (heq ▸ hname)) hahead
    fun entry hentry => ignoredBy_of_noise (hpassed entry hentry) hname
  exact ⟨hresult, h.next hmoves (fun entry hentry => .inl (hpassed entry hentry)) hrest
    (hserved.exec_served (fun _ => "") (.matchSignal name))⟩

/-- The only end of the child in the history. -/
theorem childTerminal_unique (hdistinct : (history.filterMap childTerminalOf).Nodup)
    {returned : List (String × Json)} (hserved : Served history returned ⟨m, []⟩) {i j : Nat}
    {id : ExecutionId}
    (hi : (m.events[i]?).any fun event => activityScanRole event = .childTerminal id)
    (hj : (m.events[j]?).any fun event => activityScanRole event = .childTerminal id) : i = j := by
  have hroles : m.events.map activityScanRole = history.map activityScanRole := by
    have h := hserved.roles
    rwa [View.full, List.map_nil, List.flatten_nil, List.append_nil] at h
  have hin (k : Nat) (hk : (m.events[k]?).any fun event => activityScanRole event = .childTerminal id) :
      ∃ event, history[k]? = some event ∧ childTerminalOf event = some id := by
    have hrole : (m.events.map activityScanRole)[k]? = some (.childTerminal id) := by
      rw [List.getElem?_map]
      cases hevent : m.events[k]? with
      | none =>
        rw [hevent] at hk
        cases hk
      | some event =>
        rw [hevent] at hk
        exact congrArg some (of_decide_eq_true hk)
    rw [hroles, List.getElem?_map, Option.map_eq_some_iff] at hrole
    obtain ⟨event, hevent, hrole⟩ := hrole
    exact ⟨event, hevent, childTerminalOf_eq_some.mpr hrole⟩
  obtain ⟨first, hfirst, hfirstId⟩ := hin i hi
  obtain ⟨second, hsecond, hsecondId⟩ := hin j hj
  obtain ⟨hilt, rfl⟩ := List.getElem?_eq_some_iff.mp hfirst
  obtain ⟨hjlt, rfl⟩ := List.getElem?_eq_some_iff.mp hsecond
  have hpairs := List.pairwise_iff_getElem.mp (List.pairwise_filterMap.mp hdistinct)
  rcases lt_trichotomy i j with hlt | heq | hlt
  · exact absurd rfl (hpairs i j hilt hjlt hlt id hfirstId id hsecondId)
  · exact heq
  · exact absurd rfl (hpairs j i hjlt hilt hlt id hsecondId id hfirstId)

/-- Where positions increase, only one entry stands at its position. -/
theorem filter_position {passed rest : List (WorkflowEvent × Nat)} {event : WorkflowEvent}
    {stop : Nat} (hsorted : (passed ++ (event, stop) :: rest).Pairwise fun entry later =>
      entry.2 < later.2) :
    ((passed ++ (event, stop) :: rest).filter fun entry => ! decide (entry.2 = stop)) =
      passed ++ rest := by
  obtain ⟨-, hafter, hbefore⟩ := List.pairwise_append.mp hsorted
  rw [List.filter_append, List.filter_cons_of_neg (by simp)]
  refine congrArg₂ (· ++ ·) (List.filter_eq_self.mpr fun entry hentry => ?_)
    (List.filter_eq_self.mpr fun entry hentry => ?_)
  · have hlt := hbefore entry hentry _ List.mem_cons_self
    simpa using Nat.ne_of_lt hlt
  · have hlt := (List.pairwise_cons.mp hafter).1 entry hentry
    simpa using (Nat.ne_of_lt hlt).symm

theorem Follows.childWorkflow (hdistinct : (history.filterMap childTerminalOf).Nodup)
    {id : ExecutionId} {name : String} {input : Json} {ended : ChildEnd}
    (h : Follows history waited (.childWorkflow id name input ended :: calls) m)
    (hplain : NoExternal m.ahead) (showJson : Json → String) :
    (m.matchChildWorkflow showJson name input).1 = ended.result ∧
      Follows history waited calls (m.matchChildWorkflow showJson name input).2 := by
  obtain ⟨front, i, after, hahead, hfront, hafter⟩ := h.front rfl
  obtain ⟨passed, stop, rest, rfl, hpassed, hrest⟩ := @Inserted.ending waited [] _ _ _ hafter
  replace hpassed : ∀ entry ∈ passed, IsNoise waited entry.1 := fun entry hentry =>
    (hpassed entry hentry).resolve_left nofun
  obtain ⟨hdrop, htake⟩ := @dropWhile_of_noise waited front (passed ++ (ended.event id, stop) :: rest)
    (.childWorkflowStarted id name input, i) hfront rfl
  have hlater : ((passed ++ (ended.event id, stop) :: rest).filter fun entry =>
      ! decide (entry.2 = stop)) = passed ++ rest := by
    have hsorted : m.ahead.Pairwise fun entry later => entry.2 < later.2 :=
      aheadFrom_sorted m m.cursor
    rw [hahead] at hsorted
    exact filter_position (List.pairwise_cons.mp (List.pairwise_append.mp hsorted).2.1).2
  rw [← hahead] at hdrop htake
  obtain ⟨returned, hserved⟩ := h.served
  have hprepared := prepareMatch_serves hserved.indexed hserved.mail.clear
  have hlength : (history.map activityScanRole).length ≤ m.events.length := by
    have hroles := congrArg List.length hserved.roles
    rw [View.full, List.map_nil, List.flatten_nil, List.append_nil, List.length_map] at hroles
    exact hroles.ge
  have hrole : activityScanRole (ended.event id) = .childTerminal id := by
    cases ended <;> rfl
  have hhere : m.events[stop]? = some (ended.event id) := by
    have hmem : (ended.event id, stop) ∈ m.ahead := by
      rw [hahead]
      exact List.mem_append_right _ (List.mem_cons_of_mem _ (List.mem_append_right _ List.mem_cons_self))
    exact (mem_aheadFrom.mp hmem).2.1
  obtain ⟨hresult, hmoves⟩ := @matchChildWorkflow_ahead m i (ended.event id) _ hprepared.indexed
    hlength showJson id name input ended.result stop _ h.external hplain hdrop
    (List.mem_append_right _ List.mem_cons_self) hrole (by cases ended <;> rfl)
    fun k hk => childTerminal_unique hdistinct hserved hk (by rw [hhere]; exact decide_eq_true hrole)
  rw [hlater] at hmoves
  refine ⟨hresult, h.next hmoves (fun entry hentry => .inl ?_) ?_
    (hserved.exec_served showJson (.matchChildWorkflow name input))⟩
  · rw [htake] at hentry
    exact hfront entry hentry
  · rw [List.map_append]
    refine hrest.prepend fun event hevent => ?_
    obtain ⟨entry, hentry, rfl⟩ := List.mem_map.mp hevent
    exact hpassed entry hentry

theorem Follows.version {changeId : String} {minVersion maxVersion recorded : UInt32}
    (h : Follows history waited (.version changeId minVersion maxVersion recorded :: calls) m)
    (hplain : NoExternal m.ahead) :
    (m.matchVersion changeId minVersion maxVersion).1 = recorded ∧
      Follows history waited calls (m.matchVersion changeId minVersion maxVersion).2 := by
  obtain ⟨front, i, rest, hahead, hfront, hrest⟩ := h.front rfl
  obtain ⟨hdrop, htake⟩ := @dropWhile_of_noise waited front rest
    (.markerRecorded (versionMarkerName changeId) (.num (.posInt recorded.toUInt64)), i) hfront rfl
  rw [← hahead] at hdrop htake
  have heq := @matchVersion_eq m i changeId _ minVersion maxVersion _ h.external hplain hdrop
  have hmoves := @matchVersion_ahead m i changeId _ minVersion maxVersion _ h.external hplain hdrop
  refine ⟨by rw [heq, asU32_toUInt64]; rfl, h.next hmoves (fun entry hentry => .inl ?_) hrest ?_⟩
  · rw [htake] at hentry
    exact hfront entry hentry
  · obtain ⟨returned, hserved⟩ := h.served
    have hprepared := prepareMatch_serves hserved.indexed hserved.mail.clear
    obtain ⟨-, hclear, -⟩ := prepareMatch_goes hserved.mail.clear
    obtain ⟨hhead, hfirst, -⟩ := prepareMatch_ahead h.external hplain
    rw [hdrop] at hfirst
    obtain ⟨rfl, -, hevent, hlt, -⟩ := hhead.cons hfirst
    obtain ⟨-, hpast⟩ := pass_command hprepared.indexed hclear hevent (by simp [activityScanRole])
    have hserves := hprepared.after (settle_serves hprepared.indexed hlt hlt hpast)
    have hlater : Served history (returned ++ []) ⟨_, []⟩ := (hserved.serves hserves rfl).1
    rw [heq]
    exact ⟨_, hlater⟩

/-- **One call** returns what was recorded for it, and the later calls find their records ahead. -/
theorem Follows.exec (hdistinct : (history.filterMap childTerminalOf).Nodup)
    {call : SequentialCall} (hname : ∀ name ∈ call.waitsFor, name ∈ waited)
    (h : Follows history waited (call :: calls) m)
    (hawaited : ∀ other ∈ call :: calls, other.isAwaited) (showJson : Json → String) :
    (call.exec showJson m).1 = call.recorded ∧
      Follows history waited calls (call.exec showJson m).2 := by
  have hplain := h.noExternal hawaited
  cases call with
  | activity id name input queue progress ended =>
    obtain ⟨hresult, hnext⟩ := h.activity hplain
    exact ⟨congrArg CallResult.result hresult, hnext⟩
  | timer id duration strict =>
    obtain ⟨hresult, hnext⟩ := h.timer hplain
    exact ⟨congrArg CallResult.result hresult, hnext⟩
  | childWorkflow id name input ended =>
    obtain ⟨hresult, hnext⟩ := h.childWorkflow hdistinct hplain showJson
    exact ⟨congrArg CallResult.result hresult, hnext⟩
  | signal name payload =>
    obtain ⟨hresult, hnext⟩ := h.signal (hname name rfl)
    exact ⟨congrArg CallResult.result hresult, hnext⟩
  | version changeId minVersion maxVersion recorded =>
    obtain ⟨hresult, hnext⟩ := h.version hplain
    exact ⟨congrArg CallResult.version hresult, hnext⟩

/-- **All calls.** -/
theorem Follows.replay (hdistinct : (history.filterMap childTerminalOf).Nodup)
    (hnames : ∀ call ∈ calls, ∀ name ∈ call.waitsFor, name ∈ waited)
    (h : Follows history waited calls m) (hawaited : ∀ call ∈ calls, call.isAwaited)
    (showJson : Json → String) :
    (SequentialCall.replay showJson calls m).1 = calls.map SequentialCall.recorded ∧
      Follows history waited [] (SequentialCall.replay showJson calls m).2 := by
  induction calls generalizing m with
  | nil => exact ⟨rfl, h⟩
  | cons call calls ih =>
    obtain ⟨hresult, hnext⟩ := h.exec hdistinct (hnames call List.mem_cons_self) hawaited showJson
    obtain ⟨hresults, hdone⟩ := ih (fun other hother => hnames other (List.mem_cons_of_mem _ hother))
      hnext fun other hother => hawaited other (List.mem_cons_of_mem _ hother)
    exact ⟨congrArg₂ List.cons hresult hresults, hdone⟩

/-- With noise ahead only, no command is left. -/
theorem Follows.done (h : Follows history waited [] m) : m.firstUnconsumedCommandEvent = none := by
  have hnone : (List.range m.events.length).find? (fun i =>
      decide (m.cursor ≤ i) && ! m.isConsumed i && (m.events[i]?).any isCommandEvent) = none := by
    rw [List.find?_eq_none]
    intro i _ hfound
    simp only [Bool.and_eq_true, decide_eq_true_eq, Bool.not_eq_true'] at hfound
    obtain ⟨⟨hle, hnew⟩, hcommand⟩ := hfound
    cases hevent : m.events[i]? with
    | none =>
      rw [hevent] at hcommand
      cases hcommand
    | some event =>
      rw [hevent] at hcommand
      have hmem : (event, i) ∈ m.ahead := mem_aheadFrom.mpr ⟨hle, hevent, hnew⟩
      have hnoise := h.ahead.nil_inv event (List.mem_map_of_mem hmem)
      rw [Option.any_some, not_command_of_noise hnoise] at hcommand
      cases hcommand
  rw [firstUnconsumedCommandEvent, hnone, h.external]
  rfl

end Calls

/-! ## The first call -/

theorem unconsumed_map_fst {consumed : Nat → Bool} (h : ∀ i, consumed i = false)
    (events : List WorkflowEvent) (i : Nat) :
    (unconsumed consumed events i).map Prod.fst = events := by
  induction events generalizing i with
  | nil => rfl
  | cons event rest ih =>
    rw [unconsumed, h i, if_neg Bool.false_ne_true, List.map_cons, ih]

theorem new_isConsumed {events : List WorkflowEvent} (hplain : ∀ event ∈ events, isPlain event)
    (i : Nat) : (HistoryMatcher.new events).isConsumed i = false := by
  have htransparent : (HistoryMatcher.new events).transparentEvents = ∅ :=
    transparentOf_of_plain hplain
  rw [isConsumed, htransparent]
  rfl

/-- A matcher that opens at the first call. -/
theorem OpensAt.follows {calls : List SequentialCall} {history : List WorkflowEvent}
    {m : HistoryMatcher} (hawaited : ∀ call ∈ calls, call.isAwaited)
    (hrecords : RecordsOf calls history) (hopens : OpensAt history m) :
    ∃ full, Follows full (waitedNames calls) calls m ∧
      full.filterMap childTerminalOf = calls.filterMap SequentialCall.childId := by
  have hplain : ∀ event ∈ history, isPlain event := by
    intro event hevent
    rcases hrecords.mem hevent with hrecord | hnoise
    · obtain ⟨call, hcall, hevent⟩ := List.mem_flatMap.mp hrecord
      exact (SequentialCall.events_spec (hawaited call hcall) hevent 0).1
    · exact isPlain_of_noise hnoise
  have hchildren : history.filterMap childTerminalOf = calls.filterMap SequentialCall.childId :=
    (hrecords.filterMap fun event hnoise => childTerminalOf_of_noise hnoise).trans
      (SequentialCall.filterMap_childTerminalOf_flatMap calls)
  rcases hopens with rfl | ⟨started, hstarted, rfl⟩
  · have hahead : (new history).ahead.map Prod.fst = history :=
      unconsumed_map_fst (new_isConsumed hplain) _ _
    exact ⟨history, ⟨hahead.symm ▸ hrecords, nofun, rfl, _, Served.new history⟩, hchildren⟩
  · obtain ⟨hstartPlain, hstartChild, hstartSignal⟩ : isPlain started = true ∧
        childTerminalOf started = none ∧ (new (started :: history)).signalAt 0 = none := by
      cases started with
      | workflowStarted => exact ⟨rfl, rfl, rfl⟩
      | _ => cases hstarted
    have hfresh := @new_isConsumed (started :: history) fun event hevent =>
      (List.mem_cons.mp hevent).elim (fun heq => heq ▸ hstartPlain) (hplain event)
    have hadvance : (new (started :: history)).advance =
        { new (started :: history) with cursor := 1 }.advanceToNextUnconsumedEvent :=
      if_pos (Nat.succ_pos _)
    have hahead : (new (started :: history)).advance.ahead.map Prod.fst = history := by
      rw [hadvance, advance_ahead]
      exact unconsumed_map_fst hfresh history 1
    have hclear : (new (started :: history)).Clear 1 := by
      intro i hlt hsignal
      obtain rfl := Nat.lt_one_iff.mp hlt
      rw [hstartSignal] at hsignal
      cases hsignal
    have hfirst := Served.new (started :: history)
    have hserves := settle_serves hfirst.indexed (Nat.succ_pos _) (Nat.succ_pos _) hclear
    have hserved : Served (started :: history) ([] ++ [])
        ⟨(new (started :: history)).advance, []⟩ := by
      rw [hadvance]
      exact (hfirst.serves hserves rfl).1
    exact ⟨started :: history, ⟨hahead.symm ▸ hrecords, by rw [hadvance]; nofun, by rw [hadvance]; rfl,
      _, hserved⟩, (List.filterMap_cons_none hstartChild).trans hchildren⟩

/-! ## The replay -/

theorem SequentialCall.recorded_isRecorded (call : SequentialCall) :
    call.recorded.isRecorded = true := by
  cases call with
  | activity id name input queue progress ended => cases ended <;> rfl
  | childWorkflow id name input ended => cases ended <;> rfl
  | _ => rfl

/-- **Sequential replay is sound.** The history holds the records of the calls in order, with
signals that no call waits for and update events at any positions. Replaying the calls returns what
was recorded for each of them, and leaves no recorded command. An activity with the name of a
dropped session's release is not a call: its records are transparent. -/
theorem sequential_replay_returns_the_records (showJson : Json → String)
    (calls : List SequentialCall) (hawaited : ∀ call ∈ calls, call.isAwaited)
    (hdistinct : (calls.filterMap SequentialCall.childId).Nodup) (history : List WorkflowEvent)
    (hrecords : RecordsOf calls history) (m : HistoryMatcher) (hopens : OpensAt history m) :
    (SequentialCall.replay showJson calls m).1 = calls.map SequentialCall.recorded ∧
      (∀ result ∈ (SequentialCall.replay showJson calls m).1, result.isRecorded) ∧
      (SequentialCall.replay showJson calls m).2.firstUnconsumedCommandEvent = none := by
  obtain ⟨full, hfollows, hchildren⟩ := hopens.follows hawaited hrecords
  have hnames : ∀ call ∈ calls, ∀ name ∈ call.waitsFor, name ∈ waitedNames calls :=
    fun call hcall name hname => List.mem_filterMap.mpr ⟨call, hcall, hname⟩
  obtain ⟨hresults, hdone⟩ := hfollows.replay (hchildren ▸ hdistinct) hnames hawaited showJson
  refine ⟨hresults, fun result hresult => ?_, hdone.done⟩
  rw [hresults] at hresult
  obtain ⟨call, -, rfl⟩ := List.mem_map.mp hresult
  exact call.recorded_isRecorded

/-- One call of each kind. -/
def orderCalls : List SequentialCall :=
  [.signal "go" (.bool true),
    .activity ⟨1⟩ "charge" .null "default" [.started ⟨"w"⟩] (.completed (.str "paid")),
    .version "tax" 0 2 1, .timer ⟨"wait"⟩ 60 true,
    .childWorkflow ⟨2⟩ "ship" .null (.failed "lost" none none none)]

/-- The records of the calls, and two signals and an update between them. -/
def orderHistory : List WorkflowEvent :=
  [.signalReceived "note" .null, .signalReceived "go" (.bool true),
    .activityScheduled ⟨1⟩ "charge" .null "default", .updateCompleted ⟨3⟩ .null,
    .activityStarted ⟨1⟩ ⟨"w"⟩, .signalReceived "note" (.bool false),
    .activityCompleted ⟨1⟩ (.str "paid"),
    .markerRecorded "version:tax" (.num (.posInt 1)), .timerStarted ⟨"wait"⟩ 60,
    .timerFired ⟨"wait"⟩, .childWorkflowStarted ⟨2⟩ "ship" .null,
    .signalReceived "note" .null, .childWorkflowFailed ⟨2⟩ "lost" none none none]

theorem orderHistory_records : RecordsOf orderCalls orderHistory := by
  have hnote : "note" ∉ waitedNames orderCalls := by decide
  exact .insert hnote <| .keep _ <| .keep _ <| .insert rfl <| .keep _ <| .insert hnote <|
    .keep _ <| .keep _ <| .keep _ <| .keep _ <| .keep _ <| .insert hnote <| .keep _ .nil

/-- The order is replayed, with the output of its activity and the failure of its child. -/
theorem the_order_is_replayed :
    (SequentialCall.replay (fun _ => "") orderCalls (new orderHistory)).1 =
      [.result (.matched (.bool true)), .result (.matched (.str "paid")), .version 1,
        .result (.matched .null), .result (.failed "lost" 1 "Error" none false)] ∧
    (SequentialCall.replay (fun _ => "") orderCalls
      (new orderHistory)).2.firstUnconsumedCommandEvent = none := by
  obtain ⟨hresults, -, hdone⟩ := sequential_replay_returns_the_records (fun _ => "") orderCalls
    (by decide) (by decide) orderHistory orderHistory_records (new orderHistory) (.inl rfl)
  exact ⟨hresults, hdone⟩

/-- A call of the activity that releases a dropped session. -/
def releaseCalls : List SequentialCall :=
  [.activity ⟨1⟩ sessionDropReleaseActivityName .null "default" [] (.completed (.str "done"))]

/-- The records of a release are transparent, so a call of that name finds no match. -/
theorem a_release_is_not_replayed :
    ∃ history, RecordsOf releaseCalls history ∧
      (SequentialCall.replay (fun _ => "") releaseCalls (new history)).1 = [.result .noMatch] ∧
      releaseCalls.map SequentialCall.recorded = [.result (.matched (.str "done"))] :=
  ⟨_, .refl _, by decide +kernel, rfl⟩

end Harvest.Replay
