import Harvest.Replay.Opening

/-!
# Matching commands

Model of the `match_*` methods of `HistoryMatcher` for activities, timers, signals, races of a
signal and a deadline, child workflows, versions and patches, of the claims of stashed signals,
and of the cuts of the view.

How a payload is printed in a divergence is a parameter.
-/

namespace Harvest.Replay

/-- The result of matching a race of a signal and a deadline. -/
inductive SignalOrTimerMatch
  | signalWon (payload : Json)
  | timerWon
  | noMatch
  | inProgress
  | diverged (expected actual : String) (eventIndex : Option Int32)
deriving DecidableEq, Repr

inductive PatchMarkerMatch
  | recorded
  | absent
  | newlyPatched
deriving DecidableEq, Repr

/-- The events and stashed signals that a cut of the view hides. -/
structure ViewCut where
  tail : List WorkflowEvent
  hiddenSignals : List StashedSignal
  cursor : Nat

/-- A signal predicate over the event index and the payload. -/
abbrev SignalPredicate := Nat → Json → Bool

/-- `serde_json`'s `as_u64`, then `u32::try_from`. -/
def asU32 : Json → Option UInt32
  | .num (.posInt n) => if n.toNat < 2 ^ 32 then some n.toUInt32 else none
  | _ => none

namespace HistoryMatcher

def divergedAt (m : HistoryMatcher) (expected actual : String) : HistoryMatch :=
  .diverged expected actual (toI32 m.cursor)

/-- The event at the cursor, by name. -/
def actualAtCursor (m : HistoryMatcher) : String :=
  (m.events[m.cursor]?).elim "" actualEventName

/-! ## Activities and timers -/

/-- Ends a scan that found no terminal event. -/
def rewindOpenActivity (m : HistoryMatcher) (activityId : ActivityExecId) (first : Option Nat) :
    HistoryMatch × HistoryMatcher :=
  (.activityInProgress activityId,
    match first with
    | some command => { m with cursor := command }.advanceToNextUnconsumedEvent
    | none => m)

/-- What the terminal event of an activity says. The source moves the output of a completion
out of the event. -/
def activityResult : WorkflowEvent → Option HistoryMatch
  | .activityCompleted _ output => some (.matched output)
  | .activityFailed _ error attempt errorType nonRetryable details =>
    some (.failed error attempt errorType details nonRetryable)
  | .activityTimedOut _ timeoutType => some (.timedOut timeoutType)
  | _ => none

/-- `std::mem::take` of the output of a completion. -/
def takeOutput : WorkflowEvent → WorkflowEvent
  | .activityCompleted activityId _ => .activityCompleted activityId .null
  | event => event

def scanActivityTerminalWith (leaves : Nat → Bool → Bool) (m : HistoryMatcher)
    (activityId : ActivityExecId) (start : Nat) : HistoryMatch × HistoryMatcher :=
  let ((stop, first), m) := m.findScanStopWith leaves (.activity activityId) start
  match stop with
  | none => m.rewindOpenActivity activityId first
  | some terminal =>
    match (m.events[terminal]?).bind activityResult with
    | none => m.rewindOpenActivity activityId first
    | some result =>
      (result, { m with events := m.events.modify terminal takeOutput }.settleTerminal
        terminal first)

def scanActivityTerminal (m : HistoryMatcher) (activityId : ActivityExecId) (start : Nat) :
    HistoryMatch × HistoryMatcher :=
  m.scanActivityTerminalWith m.leavesWalk activityId start

def matchActivity (m : HistoryMatcher) (activityName : String) : HistoryMatch × HistoryMatcher :=
  let m := m.prepareMatch
  if ! m.isReplaying then (.noMatch, m)
  else
    match m.events[m.cursor]? with
    | some (.activityScheduled activityId recordedName _ _) =>
      if recordedName ≠ activityName then
        (m.divergedAt ("ActivityScheduled(" ++ activityName ++ ")")
          ("ActivityScheduled(" ++ recordedName ++ ")"), m)
      else
        { m with cursor := m.cursor + 1 }.scanActivityTerminal activityId (m.cursor + 1)
    | _ => (m.divergedAt ("ActivityScheduled(" ++ activityName ++ ")") m.actualAtCursor, m)

/-- The duration a timer was recorded with differs from the one that is asked for. -/
def durationDiffers (expected : Option UInt64) (recorded : UInt64) : Option UInt64 :=
  expected.filter (· ≠ recorded)

def timerText (timerId : String) (duration : UInt64) : String :=
  "TimerStarted(" ++ timerId ++ ", duration=" ++ toString duration.toNat ++ "s)"

def matchTimerStrict (m : HistoryMatcher) (timerId : String) (expectedDuration : Option UInt64) :
    HistoryMatch × HistoryMatcher :=
  let m := m.prepareMatch
  if ! m.isReplaying then (.noMatch, m)
  else
    match m.events[m.cursor]? with
    | some (.timerStarted recordedId recordedDuration) =>
      if recordedId.name ≠ timerId then
        (m.divergedAt ("TimerStarted(" ++ timerId ++ ")")
          ("TimerStarted(" ++ recordedId.name ++ ")"), m)
      else
        match durationDiffers expectedDuration recordedDuration with
        | some expected =>
          (m.divergedAt (timerText timerId expected) (timerText recordedId.name recordedDuration), m)
        | none =>
          let m := { m with cursor := m.cursor + 1 }
          let ((stop, first), m) := m.findScanStop (.timer timerId) m.cursor
          match stop with
          | some fire => (.matched .null, m.settleTerminal fire first)
          | none => (.noMatch, m)
    | _ => (m.divergedAt ("TimerStarted(" ++ timerId ++ ")") m.actualAtCursor, m)

/-! ## Signals -/

/-- Whether a predicate takes a payload. A plain wait takes every one. -/
def accepts (predicate : Option SignalPredicate) (index : Nat) (payload : Json) : Bool :=
  predicate.all fun accept => accept index payload

/-- Takes the first buffered signal of the name that the predicate accepts. -/
def claimBufferedSignal (m : HistoryMatcher) (signalName : String)
    (predicate : Option SignalPredicate) : Option Json × HistoryMatcher :=
  let rejected := (m.pendingSignals.ofName signalName).takeWhile fun entry =>
    ! accepts predicate entry.index entry.payload
  let m := { m with
    predicateRejectedSignalEvents :=
      m.predicateRejectedSignalEvents ∪ (rejected.map StashedSignal.index).toFinset }
  match m.pendingSignals.removeFirst signalName fun entry =>
      accepts predicate entry.index entry.payload with
  | some (entry, pending) =>
    (some entry.payload,
      { m with pendingSignals := pending, delivered := m.delivered ++ [entry.index] })
  | none => (none, m)

/-- Delivers the unconsumed signal at `at'` to the wait that found it. -/
def deliverAt (m : HistoryMatcher) (at' : Nat) : HistoryMatcher :=
  { m with
    consumedSignalEvents := insert at' m.consumedSignalEvents
    delivered := m.delivered ++ [at'] }

/-- The rule of the signal scan for the unconsumed event at `at'`: the result of the wait, or
`none` to go on, with the first interleaved command. -/
def signalScanStep (m : HistoryMatcher) (at' : Nat) (signalName : String)
    (tolerateInterleaved : Option String) (predicate : Option SignalPredicate)
    (first : Option Nat) : (Option HistoryMatch × Option Nat) × HistoryMatcher :=
  match m.events[at']? with
  | none => ((some .noMatch, first), m)
  | some (.signalReceived recordedName payload) =>
    if recordedName = signalName then
      if accepts predicate at' payload then
        ((some (.matched payload), first),
          { m.deliverAt at' with cursor := first.getD (at' + 1) }.advanceToNextUnconsumedEvent)
      else
        ((none, first),
          { m with predicateRejectedSignalEvents :=
              insert at' m.predicateRejectedSignalEvents }.stashTransparentExternalEvent at')
    else ((none, first), m.stashTransparentExternalEvent at')
  | some (.timerStarted timerId _) =>
    -- A deadline of this very wait is crossed without a rewind.
    if signalTimeoutRaceName timerId.name = some signalName then ((none, first), m)
    else ((none, first <|> some at'), m)
  | some (.markerRecorded name _) =>
    -- A race branch stops at its own settlement marker.
    if tolerateInterleaved = some name then ((some .noMatch, first), m)
    else ((none, first <|> some at'), m)
  | some event =>
    if isUpdateEvent event then ((none, first), m)
    else
      match activityScanRole event with
      | .scheduled _ | .interleaved => ((none, first <|> some at'), m)
      | .terminal _ | .progress _ | .fired _ | .childTerminal _ | .pass => ((none, first), m)
      | .externalTerminal => ((none, first), m.stashTransparentExternalEvent at')
      | .barrier =>
        if isTransparentExternalEvent event then
          ((none, first), m.stashTransparentExternalEvent at')
        else if tolerateInterleaved.isSome then ((none, first <|> some at'), m)
        else if first.isSome then ((some .noMatch, first), m)
        else
          ((some (m.divergedAt ("SignalReceived(" ++ signalName ++ ")") (actualEventName event)),
            first), m)

/-- The first unconsumed command from `next` to before `limit` that the scan for `signalName`
rewinds to. -/
def firstSignalInterleaved (signalName : String) (limit : Nat) :
    Nat → HistoryMatcher → Nat → Option Nat × HistoryMatcher
  | 0, m, _ => (none, m)
  | fuel + 1, m, next =>
    let (found, index) := m.activityScanIndex.firstInterleaved next m.isConsumed
    let m := { m with activityScanIndex := index }
    match found.filter (· < limit) with
    | none => (none, m)
    | some at' =>
      match m.events[at']? with
      | some (.timerStarted timerId _) =>
        if signalTimeoutRaceName timerId.name = some signalName then
          firstSignalInterleaved signalName limit fuel m (at' + 1)
        else (some at', m)
      | _ => (some at', m)

/-- The signal scan on the index. Each turn deals with one barrier. -/
def matchIndexedSignal (signalName : String) (predicate : Option SignalPredicate) :
    Nat → HistoryMatcher → Nat → Option Nat → HistoryMatch × HistoryMatcher
  | 0, m, _, _ => (.noMatch, m)
  | fuel + 1, m, next, first =>
    let len := m.events.length
    let (found, index) := m.activityScanIndex.firstBarrier next m.isConsumed
    let m := { m with activityScanIndex := index }
    let barrier := found.filter (· < len)
    let (first, m) :=
      match first with
      | some first => (some first, m)
      | none => firstSignalInterleaved signalName (barrier.getD len) (len + 1) m next
    match barrier with
    | none => (.noMatch, m)
    | some at' =>
      match m.signalScanStep at' signalName none predicate first with
      | ((some result, _), m) => (result, m)
      | ((none, first), m) => matchIndexedSignal signalName predicate fuel m (at' + 1) first

/-- The walk of the signal scan over the next `n` events from `at'` on. -/
def signalLoop (leaves : Nat → Bool → Bool) (signalName : String)
    (tolerateInterleaved : Option String) (predicate : Option SignalPredicate) (start : Nat) :
    Nat → Nat → Option Nat → HistoryMatcher → HistoryMatch × HistoryMatcher
  | 0, at', _, m =>
    (.noMatch, { m with activityScanIndex := m.activityScanIndex.noteWalk (at' - start) })
  | n + 1, at', first, m =>
    if tolerateInterleaved.isNone && leaves (at' - start) first.isSome then
      matchIndexedSignal signalName predicate (m.events.length + 1)
        { m with activityScanIndex :=
            (m.activityScanIndex.noteWalk (at' - start)).extend m.events } at' first
    else if m.isConsumed at' then
      signalLoop leaves signalName tolerateInterleaved predicate start n (at' + 1) first m
    else
      match m.signalScanStep at' signalName tolerateInterleaved predicate first with
      | ((some result, _), m) =>
        (result, { m with activityScanIndex := m.activityScanIndex.noteWalk (at' - start) })
      | ((none, first), m) =>
        signalLoop leaves signalName tolerateInterleaved predicate start n (at' + 1) first m

def matchSignalInnerWith (leaves : Nat → Bool → Bool) (m : HistoryMatcher) (signalName : String)
    (tolerateInterleaved : Option String) (predicate : Option SignalPredicate) :
    HistoryMatch × HistoryMatcher :=
  match m.claimBufferedSignal signalName predicate with
  | (some output, m) => (.matched output, m)
  | (none, m) =>
    let m := m.advanceToNextUnconsumedEvent
    if ! m.isReplaying then (.noMatch, m)
    else
      signalLoop leaves signalName tolerateInterleaved predicate m.cursor
        (m.events.length - m.cursor) m.cursor none m

def matchSignalInner (m : HistoryMatcher) (signalName : String)
    (tolerateInterleaved : Option String) (predicate : Option SignalPredicate) :
    HistoryMatch × HistoryMatcher :=
  m.matchSignalInnerWith m.leavesWalk signalName tolerateInterleaved predicate

def matchSignal (m : HistoryMatcher) (signalName : String) : HistoryMatch × HistoryMatcher :=
  m.matchSignalInner signalName none none

def matchSignalWhere (m : HistoryMatcher) (signalName : String) (predicate : Json → Bool) :
    HistoryMatch × HistoryMatcher :=
  m.matchSignalInner signalName none (some fun _ payload => predicate payload)

/-- Records a probe of a name when no unconsumed command bounds its window. -/
def noteSignalProbe (m : HistoryMatcher) (signalName : String) : HistoryMatcher :=
  if ((List.range m.events.length).any fun i =>
      decide (m.cursor ≤ i) && ! m.isConsumed i && (m.events[i]?).any isCommandEvent) then m
  else { m with frontierProbedSignals := insert signalName m.frontierProbedSignals }

/-- Claims every stashed signal of the name that no race has reserved. -/
def claimPendingSignal (m : HistoryMatcher) (signalName : String) :
    List (Nat × Json) × HistoryMatcher :=
  let m := m.prepareMatch.noteSignalProbe signalName
  let (matched, pending) := m.pendingSignals.takeOfName signalName fun entry =>
    ! decide (entry.index ∈ m.raceReservedSignalEvents)
  (matched.map fun entry => (entry.index, entry.payload),
    { m with
      pendingSignals := pending
      consumedSignalEvents := m.consumedSignalEvents ∪ (matched.map StashedSignal.index).toFinset
      delivered := m.delivered ++ matched.map StashedSignal.index })

/-- Claims the oldest stashed signal of the name that no race has reserved. -/
def tryClaimPendingSignal (m : HistoryMatcher) (signalName : String) :
    Option Json × HistoryMatcher :=
  let m := m.prepareMatch.noteSignalProbe signalName
  match m.pendingSignals.removeFirst signalName fun entry =>
      ! decide (entry.index ∈ m.raceReservedSignalEvents) with
  | some (entry, pending) =>
    (some entry.payload,
      { m with
        pendingSignals := pending
        consumedSignalEvents := insert entry.index m.consumedSignalEvents
        delivered := m.delivered ++ [entry.index] })
  | none => (none, m)

/-! ## Races of a signal and a deadline -/

def isSignalOf (signalName : String) : WorkflowEvent → Bool
  | .signalReceived name _ => name = signalName
  | _ => false

def isFireOf (timerId : String) : WorkflowEvent → Bool
  | .timerFired id => id.name = timerId
  | _ => false

/-- Takes the stashed signal of event `at'`. -/
def takeStashedSignalAt (m : HistoryMatcher) (at' : Nat) (signalName : String) :
    Option (Json × HistoryMatcher) :=
  if (m.events[at']?).any (isSignalOf signalName) then
    (m.pendingSignals.removeFirst signalName fun entry => decide (entry.index = at')).map
      fun (entry, pending) =>
        (entry.payload,
          { m with pendingSignals := pending, delivered := m.delivered ++ [entry.index] })
  else none

/-- The unconsumed fire of the race timer after `at'`, if it is recorded. -/
def strayFire (m : HistoryMatcher) (timerId : String) (at' : Nat) : Option Nat :=
  (List.range m.events.length).find? fun i =>
    decide (at' < i) && ! m.isConsumed i && (m.events[i]?).any (isFireOf timerId)

def settleRaceSignalWon (m : HistoryMatcher) (signalPos : Nat) (first : Option Nat)
    (timerId : String) : HistoryMatcher :=
  let m := { m with consumedSignalEvents := insert signalPos m.consumedSignalEvents }
  let m :=
    match m.strayFire timerId signalPos with
    | some fire =>
      { m with consumedOutOfOrderEvents := insert fire m.consumedOutOfOrderEvents }
    | none => m
  { m with cursor := first.getD (signalPos + 1) }.advanceToNextUnconsumedEvent

/-- The first signal of the name after the fire at `at'` that no other race has lost. -/
def raceLoser (m : HistoryMatcher) (signalName : String) (at' : Nat) : Option Nat :=
  (List.range m.events.length).find? fun i =>
    decide (at' < i) && ! decide (i ∈ m.lateRaceSignalEvents) &&
      (m.events[i]?).any (isSignalOf signalName)

/-- Settles a race at the fire of its timer. -/
def settleRaceTimerWon (m : HistoryMatcher) (signalName : String) (fire : Nat)
    (first : Option Nat) : HistoryMatcher :=
  let m := { m with
    lateRaceSignalEvents := (m.raceLoser signalName fire).elim m.lateRaceSignalEvents fun i =>
      insert i m.lateRaceSignalEvents }
  match first with
  | some command =>
    { m with
      consumedOutOfOrderEvents := insert fire m.consumedOutOfOrderEvents
      cursor := command }.advanceToNextUnconsumedEvent
  | none => { m with cursor := fire + 1 }.advanceToNextUnconsumedEvent

/-- The scan of a race over the next `n` events from `at'` on. -/
def raceLoop (signalName timerId : String) :
    Nat → Nat → Option Nat → HistoryMatcher → SignalOrTimerMatch × HistoryMatcher
  | 0, _, first, m =>
    (.inProgress,
      match first with
      | some command => { m with cursor := command }.advanceToNextUnconsumedEvent
      | none => m)
  | n + 1, at', first, m =>
    if m.isConsumed at' then
      match m.takeStashedSignalAt at' signalName with
      | some (payload, m) => (.signalWon payload, m.settleRaceSignalWon at' first timerId)
      | none => raceLoop signalName timerId n (at' + 1) first m
    else
      match m.events[at']? with
      | none => raceLoop signalName timerId 0 at' first m
      | some (.signalReceived recordedName payload) =>
        if recordedName = signalName then
          (.signalWon payload, (m.deliverAt at').settleRaceSignalWon at' first timerId)
        else raceLoop signalName timerId n (at' + 1) first (m.stashTransparentExternalEvent at')
      | some event =>
        if isFireOf timerId event then
          (.timerWon, m.settleRaceTimerWon signalName at' first)
        else if isUpdateEvent event then raceLoop signalName timerId n (at' + 1) first m
        else
          match activityScanRole event with
          | .scheduled _ | .interleaved =>
            raceLoop signalName timerId n (at' + 1) (first <|> some at') m
          | .terminal _ | .progress _ | .fired _ | .childTerminal _ | .pass =>
            raceLoop signalName timerId n (at' + 1) first m
          | .externalTerminal =>
            raceLoop signalName timerId n (at' + 1) first (m.stashTransparentExternalEvent at')
          | .barrier =>
            if isTransparentExternalEvent event then
              raceLoop signalName timerId n (at' + 1) first (m.stashTransparentExternalEvent at')
            else raceLoop signalName timerId 0 at' first m

def raceDivergedAt (m : HistoryMatcher) (expected actual : String) : SignalOrTimerMatch :=
  .diverged expected actual (toI32 m.cursor)

def matchSignalOrTimer (m : HistoryMatcher) (signalName timerId : String)
    (expectedDuration : Option UInt64) : SignalOrTimerMatch × HistoryMatcher :=
  let m := m.prepareMatch
  -- A signal recorded before the race point arrived before the race began.
  match m.pendingSignals.removeFirst signalName fun entry => decide (entry.index < m.cursor) with
  | some (entry, pending) =>
    (.signalWon entry.payload,
      { m with pendingSignals := pending, delivered := m.delivered ++ [entry.index] })
  | none =>
    if ! m.isReplaying then (.noMatch, m)
    else
      match m.events[m.cursor]? with
      | some (.timerStarted recordedId recordedDuration) =>
        if recordedId.name ≠ timerId then
          (m.raceDivergedAt ("TimerStarted(" ++ timerId ++ ")")
            ("TimerStarted(" ++ recordedId.name ++ ")"), m)
        else
          match durationDiffers expectedDuration recordedDuration with
          | some expected =>
            (m.raceDivergedAt (timerText timerId expected)
              (timerText recordedId.name recordedDuration), m)
          | none =>
            raceLoop signalName timerId (m.events.length - (m.cursor + 1)) (m.cursor + 1) none
              { m with cursor := m.cursor + 1 }
      | _ => (m.raceDivergedAt ("TimerStarted(" ++ timerId ++ ")") m.actualAtCursor, m)

/-! ## Child workflows -/

/-- The walk for the terminal event of a child over the next `n` events from `at'` on: its
position, or where the walk ended. -/
def childWalk (leaves : Nat → Bool → Bool) (childId : ExecutionId) (start : Nat)
    (events : List WorkflowEvent) : Nat → Nat → Option Nat × Nat
  | 0, at' => (none, at')
  | n + 1, at' =>
    if leaves (at' - start) true then (none, at')
    else if (events[at']?).any fun event => activityScanRole event = .childTerminal childId then
      (some at', at')
    else childWalk leaves childId start events n (at' + 1)

/-- The first terminal event of the child from `start` on, consumed or not. -/
def findChildTerminalWith (leaves : Nat → Bool → Bool) (m : HistoryMatcher) (childId : ExecutionId)
    (start : Nat) : Option Nat × HistoryMatcher :=
  let len := m.events.length
  let (found, at') := childWalk leaves childId start m.events (len - start) start
  let index := m.activityScanIndex.noteWalk (at' - start)
  match found with
  | some terminal => (some terminal, { m with activityScanIndex := index })
  | none =>
    if len ≤ at' then (none, { m with activityScanIndex := index })
    else
      let index := index.extend m.events
      ((index.firstChildTerminal childId at').filter (· < len),
        { m with activityScanIndex := index })

def findChildTerminal (m : HistoryMatcher) (childId : ExecutionId) (start : Nat) :
    Option Nat × HistoryMatcher :=
  m.findChildTerminalWith m.leavesWalk childId start

/-- What the terminal event of a child says. An untyped failure reads as `"Error"`. -/
def childResult : WorkflowEvent → Option HistoryMatch
  | .childWorkflowCompleted _ output => some (.matched output)
  | .childWorkflowFailed _ error errorType details nonRetryable =>
    some (.failed error 1 (errorType.getD "Error") details (nonRetryable.getD false))
  | _ => none

section Child

variable (showJson : Json → String)

def matchChildWorkflow (m : HistoryMatcher) (workflowName : String) (input : Json) :
    HistoryMatch × HistoryMatcher :=
  let m := m.prepareMatch
  if ! m.isReplaying then (.noMatch, m)
  else
    let startCursor := m.cursor
    match m.events[startCursor]? with
    | some (.childWorkflowStarted childId recordedName recordedInput) =>
      if recordedName ≠ workflowName then
        (m.divergedAt ("ChildWorkflowStarted(" ++ workflowName ++ ")")
          ("ChildWorkflowStarted(" ++ recordedName ++ ")"), m)
      else if recordedInput ≠ input then
        (m.divergedAt ("ChildWorkflowInput(" ++ showJson input ++ ")")
          ("ChildWorkflowInput(" ++ showJson recordedInput ++ ")"), m)
      else
        let (terminal, m) := m.findChildTerminal childId (startCursor + 1)
        let found := terminal.bind fun i => ((m.events[i]?).bind childResult).map fun result =>
          (i, result)
        match found with
        | some (i, result) =>
          (result, { m with
            consumedOutOfOrderEvents := insert i m.consumedOutOfOrderEvents
            cursor := startCursor + 1 }.advanceToNextUnconsumedEvent)
        | none =>
          (.childInProgress childId,
            { m with cursor := startCursor + 1 }.advanceToNextUnconsumedEvent)
    | _ => (m.divergedAt ("ChildWorkflowStarted(" ++ workflowName ++ ")") m.actualAtCursor, m)

end Child

/-! ## Versions and patches -/

def matchVersion (m : HistoryMatcher) (changeId : String) (minVersion maxVersion : UInt32) :
    UInt32 × HistoryMatcher :=
  let m := m.advanceToNextUnconsumedEvent
  -- Past the history before the drain: a new code path.
  if ! m.isReplaying then
    (maxVersion, { m with
      patchIdsRecordedThisCycle := insert changeId m.patchIdsRecordedThisCycle })
  else
    let m := m.drainEarlySignals
    -- Past it only after the drain: an unversioned position.
    if ! m.isReplaying then (minVersion, m)
    else
      match m.events[m.cursor]? with
      | some (.markerRecorded name details) =>
        if name = versionMarkerName changeId then
          ((asU32 details).getD minVersion,
            { m with cursor := m.cursor + 1 }.advanceToNextUnconsumedEvent)
        else (minVersion, m)
      | _ => (minVersion, m)

def matchPatchMarker (m : HistoryMatcher) (patchId : String) :
    PatchMarkerMatch × HistoryMatcher :=
  match m.deprecatedPatches patchId with
  | some true => (.recorded, m)
  | some false => (.absent, m)
  | none =>
    let m := m.advanceToNextUnconsumedEvent
    if ! m.isReplaying then
      (.newlyPatched, { m with
        patchIdsRecordedThisCycle := insert patchId m.patchIdsRecordedThisCycle })
    else
      let m := m.drainEarlySignals
      if ! m.isReplaying then (.absent, m)
      else
        match m.events[m.cursor]? with
        | some (.markerRecorded name _) =>
          if name = patchMarkerName patchId ∨ name = versionMarkerName patchId then
            (.recorded, { m with cursor := m.cursor + 1 }.advanceToNextUnconsumedEvent)
          else (.absent, m)
        | _ => (.absent, m)

/-! ## The end of a cycle, and the view -/

/-- Whether a request is still in an external stash. -/
def isUnclaimedStashedRequest (m : HistoryMatcher) : WorkflowEvent → Bool
  | .externalSignalRequested signalId .. => m.external.signals.contains signalId
  | .externalCancelRequested cancelId _ => m.external.cancels.contains cancelId
  | .externalAwaitRequested awaitId _ => m.external.awaits.contains awaitId
  | _ => false

/-- The first recorded command that the replay did not consume. -/
def firstUnconsumedCommandEvent (m : HistoryMatcher) : Option (Nat × String) :=
  let atOrAfterCursor := (List.range m.events.length).find? fun i =>
    decide (m.cursor ≤ i) && ! m.isConsumed i && (m.events[i]?).any isCommandEvent
  let stashed :=
    if m.external.isEmpty then none
    else (List.range m.events.length).find? fun i =>
      (m.events[i]?).any m.isUnclaimedStashedRequest
  let first :=
    match atOrAfterCursor, stashed with
    | some i, some j => some (min i j)
    | some i, none => some i
    | none, j => j
  first.bind fun i => (m.events[i]?).map fun event => (i, commandEventName event)

/-- Appends events that a resident workflow consumed live. -/
def appendConsumed (m : HistoryMatcher) (events : List WorkflowEvent) : HistoryMatcher :=
  { m with
    consumedOutOfOrderEvents := m.consumedOutOfOrderEvents ∪
      Finset.Ico m.events.length (m.events.length + events.length)
    events := m.events ++ events
    cursor := m.events.length + events.length }

/-- Hides every event from `horizon` on. -/
def cutView (m : HistoryMatcher) (horizon : Nat) : Option (ViewCut × HistoryMatcher) :=
  if m.events.length ≤ horizon then none
  else
    let (hidden, pending) := m.pendingSignals.splitOffFrom horizon
    some (⟨m.events.drop horizon, hidden, m.cursor⟩,
      { m with events := m.events.take horizon, pendingSignals := pending })

/-- Undoes a cut. -/
def restoreView (m : HistoryMatcher) (cut : ViewCut) : HistoryMatcher :=
  { m with
    events := m.events ++ cut.tail
    pendingSignals := m.pendingSignals.restore cut.hiddenSignals
    cursor := if m.events.length < cut.cursor then cut.cursor else m.cursor }

end HistoryMatcher
end Harvest.Replay
