import Harvest.Replay.ScanIndex
import Harvest.Replay.Stash
import Mathlib.Order.Interval.Finset.Nat

/-!
# The history matcher: its state and its scans

Model of `HistoryMatcher` in `replay.rs`. The matcher walks the recorded events of a run and
matches the commands of the workflow against them. An event that a scan has dealt with out of
order is consumed; signals and external calls that a scan crosses go to a stash.

The scans that can leave their walk for the index take the rule that decides it as a parameter;
the matcher uses `leavesWalk`.
-/

namespace Harvest.Replay

/-! ## State -/

inductive StashedSignalTerminal
  | delivered
  | failed (reasonCode : String)
deriving DecidableEq, Repr

structure StashedExternalSignal where
  signalId : ExternalSignalId
  target : ExternalTarget
  signalName : String
  payload : Json
  idempotencyKey : Option String
  terminal : Option StashedSignalTerminal
deriving DecidableEq, Repr

inductive StashedCancelTerminal
  | delivered
  | failed (reasonCode : String)
deriving DecidableEq, Repr

structure StashedExternalCancel where
  cancelId : ExternalCancelId
  target : ExternalTarget
  terminal : Option StashedCancelTerminal
deriving DecidableEq, Repr

inductive StashedAwaitTerminal
  | resolved (output : Json)
  | failed (reasonCode : String) (message errorType : Option String) (details : Option Json)
      (nonRetryable : Option Bool)
deriving DecidableEq, Repr

structure StashedExternalAwait where
  awaitId : ExternalAwaitId
  target : ExecutionId
  terminal : Option StashedAwaitTerminal
deriving DecidableEq, Repr

/-- The range that the external stash scan settled, and the keys stashed since then. -/
structure ExternalScanMemo where
  coveredStart : Nat
  /-- `none` is `usize::MAX`: past every position. -/
  coveredEnd : Option Nat
  newKeys : List ExternalKey
deriving DecidableEq, Repr

/-- The memo of an empty stash covers every position. -/
def ExternalScanMemo.new : ExternalScanMemo := ⟨0, none, []⟩

structure ExternalCalls where
  signals : ExternalStash ExternalSignalId StashedExternalSignal
  cancels : ExternalStash ExternalCancelId StashedExternalCancel
  awaits : ExternalStash ExternalAwaitId StashedExternalAwait
  memo : ExternalScanMemo
  index : ExternalTerminalIndex

def ExternalCalls.new : ExternalCalls := ⟨.empty, .empty, .empty, .new, .empty⟩

def ExternalCalls.isEmpty (external : ExternalCalls) : Bool :=
  external.signals.isEmpty && external.cancels.isEmpty && external.awaits.isEmpty

structure HistoryMatcher where
  events : List WorkflowEvent
  cursor : Nat
  consumedOutOfOrderEvents : Finset Nat
  consumedSignalEvents : Finset Nat
  pendingSignals : SignalStash
  external : ExternalCalls
  transparentEvents : Finset Nat
  lateRaceSignalEvents : Finset Nat
  raceReservedSignalEvents : Finset Nat
  deprecatedPatches : String → Option Bool
  patchIdsRecordedThisCycle : Finset String
  terminalFailureTail : Option Nat
  frontierProbedSignals : Finset String
  predicateRejectedSignalEvents : Finset Nat
  activityScanIndex : ActivityScanIndex
  /-- Not in the source: the indices of the signals that calls have returned, in order. No
  function reads it. -/
  delivered : List Nat

/-- The result of matching a command. -/
inductive HistoryMatch
  | matched (output : Json)
  | failed (error : String) (attempt : UInt32) (errorType : String) (details : Option Json)
      (nonRetryable : Bool)
  | timedOut (timeoutType : TimeoutType)
  | activityInProgress (activityId : ActivityExecId)
  | noMatch
  | diverged (expected actual : String) (eventIndex : Option Int32)
  | childInProgress (childId : ExecutionId)
deriving DecidableEq, Repr

/-- `i32::try_from`. -/
def toI32 (n : Nat) : Option Int32 := if n < 2 ^ 31 then some (Int32.ofNat n) else none

def linearScanBudget : Nat := 4

/-- The first of `n` positions from `i` on without `p`, or the position after them. -/
def skipFrom (p : Nat → Bool) : Nat → Nat → Nat
  | 0, i => i
  | n + 1, i => if p i then skipFrom p n (i + 1) else i

namespace HistoryMatcher

def isConsumed (m : HistoryMatcher) (i : Nat) : Bool :=
  decide (i ∈ m.consumedOutOfOrderEvents) || decide (i ∈ m.consumedSignalEvents) ||
    decide (i ∈ m.transparentEvents)

/-! ## Stashing -/

def stashSignal (m : HistoryMatcher) (cursor : Nat) (signalName : String) (payload : Json) :
    HistoryMatcher :=
  { m with
    consumedSignalEvents := insert cursor m.consumedSignalEvents
    pendingSignals := m.pendingSignals.push signalName payload cursor }

def noteKey (external : ExternalCalls) (key : ExternalKey) : ExternalCalls :=
  { external with memo := { external.memo with newKeys := external.memo.newKeys ++ [key] } }

def stashExternalSignalRequest (m : HistoryMatcher) (cursor : Nat) (signalId : ExternalSignalId)
    (target : ExternalTarget) (signalName : String) (payload : Json)
    (idempotencyKey : Option String) : HistoryMatcher :=
  { m with
    external := noteKey { m.external with
      signals := m.external.signals.pushBack StashedExternalSignal.signalId
        ⟨signalId, target, signalName, payload, idempotencyKey, none⟩ } (.signal signalId)
    consumedSignalEvents := insert cursor m.consumedSignalEvents }

def stashExternalCancelRequest (m : HistoryMatcher) (cursor : Nat) (cancelId : ExternalCancelId)
    (target : ExternalTarget) : HistoryMatcher :=
  { m with
    external := noteKey { m.external with
      cancels := m.external.cancels.pushBack StashedExternalCancel.cancelId
        ⟨cancelId, target, none⟩ } (.cancel cancelId)
    consumedSignalEvents := insert cursor m.consumedSignalEvents }

def stashExternalAwaitRequest (m : HistoryMatcher) (cursor : Nat) (awaitId : ExternalAwaitId)
    (target : ExecutionId) : HistoryMatcher :=
  { m with
    external := noteKey { m.external with
      awaits := m.external.awaits.pushBack StashedExternalAwait.awaitId
        ⟨awaitId, target, none⟩ } (.await awaitId)
    consumedSignalEvents := insert cursor m.consumedSignalEvents }

/-- Sets the terminal of the first stashed signal with the id, if there is one. -/
def setSignalTerminal (external : ExternalCalls) (signalId : ExternalSignalId)
    (terminal : StashedSignalTerminal) : Option ExternalCalls :=
  (external.signals.firstMut StashedExternalSignal.signalId signalId (fun _ => true)
    fun pending => { pending with terminal := some terminal }).map fun signals =>
      { external with signals := signals }

def setCancelTerminal (external : ExternalCalls) (cancelId : ExternalCancelId)
    (terminal : StashedCancelTerminal) : Option ExternalCalls :=
  (external.cancels.firstMut StashedExternalCancel.cancelId cancelId (fun _ => true)
    fun pending => { pending with terminal := some terminal }).map fun cancels =>
      { external with cancels := cancels }

def setAwaitTerminal (external : ExternalCalls) (awaitId : ExternalAwaitId)
    (accept : StashedExternalAwait → Bool) (terminal : StashedAwaitTerminal) :
    Option ExternalCalls :=
  (external.awaits.firstMut StashedExternalAwait.awaitId awaitId accept
    fun pending => { pending with terminal := some terminal }).map fun awaits =>
      { external with awaits := awaits }

/-- A terminal that a scan crosses is consumed whether or not a stashed call waits for it. -/
def stashTerminal (m : HistoryMatcher) (cursor : Nat) (external : Option ExternalCalls) :
    HistoryMatcher :=
  { m with
    external := external.getD m.external
    consumedSignalEvents := insert cursor m.consumedSignalEvents }

/-- Stashes a signal or a member of an external call at `cursor`. The source never calls it
for another event. -/
def stashTransparentExternalEvent (m : HistoryMatcher) (cursor : Nat) : HistoryMatcher :=
  match m.events[cursor]? with
  | some (.signalReceived signalName payload) => m.stashSignal cursor signalName payload
  | some (.externalSignalRequested signalId target signalName payload idempotencyKey) =>
    m.stashExternalSignalRequest cursor signalId target signalName payload idempotencyKey
  | some (.externalSignalDelivered signalId) =>
    m.stashTerminal cursor (setSignalTerminal m.external signalId .delivered)
  | some (.externalSignalFailed signalId reasonCode) =>
    m.stashTerminal cursor (setSignalTerminal m.external signalId (.failed reasonCode))
  | some (.externalCancelRequested cancelId target) =>
    m.stashExternalCancelRequest cursor cancelId target
  | some (.externalCancelDelivered cancelId) =>
    m.stashTerminal cursor (setCancelTerminal m.external cancelId .delivered)
  | some (.externalCancelFailed cancelId reasonCode) =>
    m.stashTerminal cursor (setCancelTerminal m.external cancelId (.failed reasonCode))
  | some (.externalAwaitRequested awaitId target) =>
    m.stashExternalAwaitRequest cursor awaitId target
  | some (.externalAwaitResolved awaitId output) =>
    m.stashTerminal cursor (setAwaitTerminal m.external awaitId (fun _ => true) (.resolved output))
  | some (.externalAwaitFailed awaitId reasonCode message errorType details nonRetryable) =>
    m.stashTerminal cursor (setAwaitTerminal m.external awaitId (fun _ => true)
      (.failed reasonCode message errorType details nonRetryable))
  | _ => m

/-! ## The external stash scan -/

/-- Resolves the stashed call that the unconsumed event at `at'` ends, and consumes the event.
A signal or cancel terminal takes the first entry with its id, an await terminal the first
open one. -/
def resolveStashedTerminal (m : HistoryMatcher) (at' : Nat) : HistoryMatcher :=
  let resolved :=
    match m.events[at']? with
    | some (.externalSignalDelivered signalId) => setSignalTerminal m.external signalId .delivered
    | some (.externalSignalFailed signalId reasonCode) =>
      setSignalTerminal m.external signalId (.failed reasonCode)
    | some (.externalCancelDelivered cancelId) => setCancelTerminal m.external cancelId .delivered
    | some (.externalCancelFailed cancelId reasonCode) =>
      setCancelTerminal m.external cancelId (.failed reasonCode)
    | some (.externalAwaitResolved awaitId output) =>
      setAwaitTerminal m.external awaitId (·.terminal.isNone) (.resolved output)
    | some (.externalAwaitFailed awaitId reasonCode message errorType details nonRetryable) =>
      setAwaitTerminal m.external awaitId (·.terminal.isNone)
        (.failed reasonCode message errorType details nonRetryable)
    | _ => none
  match resolved with
  | some external =>
    { m with
      external := external
      consumedSignalEvents := insert at' m.consumedSignalEvents }
  | none => m

/-- The next unconsumed external terminal that a pass reads: of one key, or of any. -/
def nextExternalTerminal (m : HistoryMatcher) (key : Option ExternalKey) (next : Nat) :
    Option Nat × HistoryMatcher :=
  match key with
  | some key => (m.external.index.firstOf key next m.isConsumed, m)
  | none =>
    let (found, index) := m.external.index.first next m.isConsumed
    (found, { m with external := { m.external with index := index } })

/-- Resolves the unconsumed external terminals from `next` to before `stop`. -/
def resolveExternalTerminals (key : Option ExternalKey) (stop : Nat) :
    Nat → HistoryMatcher → Nat → HistoryMatcher
  | 0, m, _ => m
  | fuel + 1, m, next =>
    if next < stop then
      let (found, m) := m.nextExternalTerminal key next
      match found.filter (· < stop) with
      | some at' =>
        resolveExternalTerminals key stop fuel (m.resolveStashedTerminal at') (at' + 1)
      | none => m
    else m

/-- Resolves the stashed external calls whose terminals are recorded ahead of the cursor. -/
def scanAheadForExternalSignalTerminals (m : HistoryMatcher) : HistoryMatcher :=
  if m.external.isEmpty then
    { m with external := { m.external with memo := .new } }
  else
    let len := m.events.length
    let start := min m.cursor len
    let memo := m.external.memo
    -- `clamp` of the covered range to the part of the history that is read
    let lo := min (max memo.coveredStart start) len
    let hi := min (max (memo.coveredEnd.getD len) lo) len
    if lo = start ∧ hi = len ∧ memo.newKeys = [] then m
    else
      let m := { m with external := { m.external with
        memo := { memo with coveredStart := start, coveredEnd := some len }
        index := m.external.index.extend m.events } }
      let m := resolveExternalTerminals none lo len m start
      let m := memo.newKeys.foldl
        (fun m key => resolveExternalTerminals (some key) hi len m lo) m
      let m := { m with external := { m.external with
        memo := { m.external.memo with newKeys := [] } } }
      resolveExternalTerminals none len len m hi

/-! ## The cursor -/

/-- Moves the cursor past consumed events. -/
def advanceToNextUnconsumedEvent (m : HistoryMatcher) : HistoryMatcher :=
  { m with cursor := skipFrom m.isConsumed (m.events.length - m.cursor) m.cursor }

/-- Whether an unconsumed event is left at or after the cursor. The walk over consumed positions
does not stop at the visible end; the number of consumed events bounds its steps. -/
def isReplaying (m : HistoryMatcher) : Bool :=
  let consumed := m.consumedOutOfOrderEvents ∪ m.consumedSignalEvents ∪ m.transparentEvents
  skipFrom m.isConsumed consumed.card m.cursor < m.events.length

def advance (m : HistoryMatcher) : HistoryMatcher :=
  if m.cursor < m.events.length then
    { m with cursor := m.cursor + 1 }.advanceToNextUnconsumedEvent
  else m

/-- Drains signals, external calls and update events at the cursor. -/
def drainLoop : Nat → HistoryMatcher → HistoryMatcher
  | 0, m => m
  | fuel + 1, m =>
    match m.events[m.cursor]? with
    | none => m
    | some event =>
      if isTransparentExternalEvent event then
        drainLoop fuel { m.stashTransparentExternalEvent m.cursor with
          cursor := m.cursor + 1 }.advanceToNextUnconsumedEvent
      else if isUpdateEvent event then
        drainLoop fuel { m with
          consumedSignalEvents := insert m.cursor m.consumedSignalEvents
          cursor := m.cursor + 1 }.advanceToNextUnconsumedEvent
      else m

/-- Every turn moves the cursor on, so the length of the history bounds the turns. -/
def drainEarlySignals (m : HistoryMatcher) : HistoryMatcher := drainLoop m.events.length m

/-- What every match opens with. It reports `isReplaying` of the new state. -/
def prepareMatch (m : HistoryMatcher) : HistoryMatcher :=
  m.advanceToNextUnconsumedEvent.drainEarlySignals.scanAheadForExternalSignalTerminals

/-- Whether `prepareMatch` would report replay, asked without a change of state. -/
def wouldReplayAfterPrepare (m : HistoryMatcher) : Bool :=
  ((List.range m.events.length).drop m.cursor).any fun i =>
    ! m.isConsumed i && (m.events[i]?).any fun event =>
      ! isTransparentExternalEvent event && ! isUpdateEvent event

/-! ## The terminal scan -/

/-- Whether a scan that walked `walked` events moves to the index. -/
def leavesWalk (m : HistoryMatcher) (walked : Nat) (interleaved : Bool) : Bool :=
  interleaved && decide (linearScanBudget ≤ walked) &&
    m.activityScanIndex.paysOff m.events.length

/-- How a walk ended: at a stop or a barrier, or before one. -/
structure WalkEnd where
  ended : Option (Option Nat)
  at' : Nat
  firstInterleaved : Option Nat
  matcher : HistoryMatcher

/-- The walk over the next `n` events from `at'` on. -/
def walkLoop (leaves : Nat → Bool → Bool) (target : ScanTarget) (start : Nat) :
    Nat → Nat → Option Nat → HistoryMatcher → WalkEnd
  | 0, at', first, m => ⟨none, at', first, m⟩
  | n + 1, at', first, m =>
    if leaves (at' - start) first.isSome then ⟨none, at', first, m⟩
    else if m.isConsumed at' then walkLoop leaves target start n (at' + 1) first m
    else
      match m.events[at']? with
      | none => ⟨none, at', first, m⟩
      | some event =>
        if target.stopsAt (activityScanRole event) then ⟨some (some at'), at', first, m⟩
        else
          match activityScanRole event with
          | .scheduled _ | .interleaved =>
            walkLoop leaves target start n (at' + 1) (first <|> some at') m
          | .externalTerminal =>
            walkLoop leaves target start n (at' + 1) first (m.stashTransparentExternalEvent at')
          | .barrier =>
            if isTransparentExternalEvent event then
              walkLoop leaves target start n (at' + 1) first (m.stashTransparentExternalEvent at')
            else ⟨some none, at', first, m⟩
          | .terminal _ | .progress _ | .fired _ | .childTerminal _ | .pass =>
            walkLoop leaves target start n (at' + 1) first m

/-- The scan on the index from `next` on, up to `stop` or the end. Each turn deals with one
barrier. -/
def indexedLoop (stop : Option Nat) (limit : Nat) :
    Nat → HistoryMatcher → Nat → Option Nat → (Option Nat × Option Nat) × HistoryMatcher
  | 0, m, _, first => ((stop, first), m)
  | fuel + 1, m, next, first =>
    let (found, index) := m.activityScanIndex.firstBarrier next m.isConsumed
    let m := { m with activityScanIndex := index }
    let barrier := found.filter (· < limit)
    let (first, m) :=
      match first with
      | some first => (some first, m)
      | none =>
        let (found, index) := m.activityScanIndex.firstInterleaved next m.isConsumed
        (found.filter (· < barrier.getD limit), { m with activityScanIndex := index })
    match barrier with
    | some at' =>
      if (m.events[at']?).any isTransparentExternalEvent then
        indexedLoop stop limit fuel (m.stashTransparentExternalEvent at') (at' + 1) first
      else ((none, first), m)
    | none => ((stop, first), m)

def findIndexedTerminal (m : HistoryMatcher) (target : ScanTarget) (start : Nat)
    (first : Option Nat) : (Option Nat × Option Nat) × HistoryMatcher :=
  let len := m.events.length
  let (found, index) := m.activityScanIndex.firstStop target start m.isConsumed
  let stop := found.filter (· < len)
  indexedLoop stop (stop.getD len) (len + 1) { m with activityScanIndex := index } start first

/-- The stop of a scan for `target` from `start` on, and the first interleaved command before
it. -/
def findScanStopWith (leaves : Nat → Bool → Bool) (m : HistoryMatcher) (target : ScanTarget)
    (start : Nat) : (Option Nat × Option Nat) × HistoryMatcher :=
  let len := m.events.length
  let walked := walkLoop leaves target start (len - start) start none m
  let m := { walked.matcher with
    activityScanIndex := walked.matcher.activityScanIndex.noteWalk (walked.at' - start) }
  match walked.ended with
  | some stop => ((stop, walked.firstInterleaved), m)
  | none =>
    if walked.at' = len then ((none, walked.firstInterleaved), m)
    else
      findIndexedTerminal { m with activityScanIndex := m.activityScanIndex.extend m.events }
        target walked.at' walked.firstInterleaved

def findScanStop (m : HistoryMatcher) (target : ScanTarget) (start : Nat) :
    (Option Nat × Option Nat) × HistoryMatcher :=
  m.findScanStopWith m.leavesWalk target start

/-! ## Settling -/

/-- The activity that a terminal event settles. -/
def settledActivity : WorkflowEvent → Option ActivityExecId
  | .activityCompleted activityId .. | .activityFailed activityId ..
  | .activityTimedOut activityId .. => some activityId
  | _ => none

/-- Consumes the progress events of the activity from `command` to before `terminal`. A long
range is read from the index, once there is one. -/
def consumeProgress (m : HistoryMatcher) (activityId : ActivityExecId) (command terminal : Nat) :
    HistoryMatcher :=
  if terminal - command ≤ linearScanBudget ∨ ! m.activityScanIndex.isBuilt then
    { m with
      activityScanIndex := m.activityScanIndex.noteWalk (terminal - command)
      consumedOutOfOrderEvents := m.consumedOutOfOrderEvents ∪
        (Finset.Ico command terminal).filter fun i =>
          (m.events[i]?).any fun event => activityScanRole event = .progress activityId }
  else
    let index := m.activityScanIndex.extend m.events
    { m with
      activityScanIndex := index
      consumedOutOfOrderEvents := m.consumedOutOfOrderEvents ∪
        (index.progressIn activityId command terminal).toFinset }

/-- Moves the cursor after a terminal event, or back to the first interleaved command. -/
def settleTerminal (m : HistoryMatcher) (terminal : Nat) (first : Option Nat) : HistoryMatcher :=
  match first with
  | some command =>
    let m := { m with consumedOutOfOrderEvents := insert terminal m.consumedOutOfOrderEvents }
    let m :=
      match (m.events[terminal]?).bind settledActivity with
      | some activityId => m.consumeProgress activityId command terminal
      | none => m
    { m with cursor := command }.advanceToNextUnconsumedEvent
  | none => { m with cursor := terminal + 1 }.advanceToNextUnconsumedEvent

end HistoryMatcher
end Harvest.Replay
