import Harvest.Replay.Sequential

/-!
# Gates over the cycles of a run

Model of `version` and `patched` in `context.rs`, and of a sequential workflow of activities, signal
waits and such gates that runs cycle by cycle. Each cycle replays the whole history and goes on past
its end; the events of the commands that it pushed are appended. Between cycles signals arrive at
any time, and the events of the activity that the workflow waits for.

`Meets` says of one cycle that neither of the two ways is taken in which the gates go wrong.
-/

namespace Harvest.Replay

open HistoryMatcher

/-! ## Commands -/

/-- The commands that the calls of this module push. -/
inductive Command
  | scheduleActivity (activityId : ActivityExecId) (name : String) (input : Json) (queue : String)
  | waitForActivity (activityId : ActivityExecId)
  | waitForSignal (signalName : String)
  | recordMarker (name : String) (details : Json)
deriving DecidableEq

namespace Command

/-- The event that `build_suspension_events` appends for a command. A wait has none. -/
def event : Command → Option WorkflowEvent
  | scheduleActivity activityId name input queue =>
    some (.activityScheduled activityId name input queue)
  | recordMarker name details => some (.markerRecorded name details)
  | waitForActivity _ | waitForSignal _ => none

/-- The activity that the workflow waits for. -/
def awaits : Command → Option ActivityExecId
  | scheduleActivity activityId .. | waitForActivity activityId => some activityId
  | waitForSignal _ | recordMarker .. => none

end Command

/-! ## Gates -/

inductive Gate
  | patched (patchId : String)
  | version (changeId : String) (min max : UInt32)
deriving DecidableEq

/-- What a call hands back to the workflow. -/
inductive Answer
  | result (result : HistoryMatch)
  | patched (taken : Bool)
  | version (version : UInt32)
deriving DecidableEq

/-- `patched`: the answer, and the command that is pushed. -/
def patched (m : HistoryMatcher) (patchId : String) : (Bool × Option Command) × HistoryMatcher :=
  match m.matchPatchMarker patchId with
  | (.recorded, m) => ((true, none), m)
  | (.absent, m) => ((false, none), m)
  | (.newlyPatched, m) =>
    ((true, some (.recordMarker (patchMarkerName patchId) (.num (.posInt 1)))), m)

/-- `version`, outside a cancellation scope. `version_gate_is_live` moves the cursor before the
match; the frontier is asked for again after it. -/
def version (m : HistoryMatcher) (changeId : String) (min max : UInt32) :
    (UInt32 × Option Command) × HistoryMatcher :=
  let (answer, m) := m.advanceToNextUnconsumedEvent.matchVersion changeId min max
  ((answer,
    if ! m.isReplaying && answer = max then
      some (.recordMarker (versionMarkerName changeId) (.num (.posInt max.toUInt64)))
    else none), m)

def Gate.exec (m : HistoryMatcher) : Gate → (Answer × Option Command) × HistoryMatcher
  | patched patchId =>
    let ((taken, pushed), m) := Replay.patched m patchId
    ((.patched taken, pushed), m)
  | version changeId min max =>
    let ((answer, pushed), m) := Replay.version m changeId min max
    ((.version answer, pushed), m)

/-! ## Calls -/

inductive WorkflowCall
  | activity (name : String) (input : Json) (queue : String)
  | signal (name : String)
  | gate (gate : Gate)
deriving DecidableEq

/-- What one call does to the workflow: it goes on with an answer, or it is parked. -/
inductive Turn
  | answered (answer : Answer) (pushed : Option Command)
  | parked (pushed : Command)
deriving DecidableEq

namespace Turn

def answer : Turn → Option Answer
  | answered answer _ => some answer
  | parked _ => none

def pushed : Turn → Option Command
  | answered _ pushed => pushed
  | parked pushed => some pushed

/-- The event that the cycle appends for the turn. -/
def event (turn : Turn) : Option WorkflowEvent := turn.pushed.bind Command.event

end Turn

namespace WorkflowCall

/-- What `execute_activity_raw_full` makes of the match. A new activity gets the id `fresh`. -/
def activityTurn (fresh : ActivityExecId) (name : String) (input : Json) (queue : String) :
    HistoryMatch → Turn
  | .noMatch => .parked (.scheduleActivity fresh name input queue)
  | .activityInProgress activityId => .parked (.waitForActivity activityId)
  | result => .answered (.result result) none

/-- What `begin_signal_wait` makes of the match. -/
def signalTurn (name : String) : HistoryMatch → Turn
  | .noMatch => .parked (.waitForSignal name)
  | result => .answered (.result result) none

def exec (fresh : ActivityExecId) (m : HistoryMatcher) : WorkflowCall → Turn × HistoryMatcher
  | activity name input queue =>
    let (result, m) := m.matchActivity name
    (activityTurn fresh name input queue result, m)
  | signal name =>
    let (result, m) := m.matchSignal name
    (signalTurn name result, m)
  | gate asked =>
    let ((answer, pushed), m) := asked.exec m
    (.answered answer pushed, m)

/-- The assertions of the gates hold, and no activity has the name of a session release, whose
records are transparent. -/
def isProper : WorkflowCall → Bool
  | activity name _ _ => name ≠ sessionDropReleaseActivityName
  | signal _ => true
  | gate (.patched patchId) => patchId ≠ ""
  | gate (.version _ min max) => min ≤ max

def gate? : WorkflowCall → Option Gate
  | gate asked => some asked
  | _ => none

end WorkflowCall

/-! ## Cycles -/

/-- A deterministic sequential workflow: the next call is a function of the answers so far. -/
structure Workflow where
  next : List Answer → Option WorkflowCall
  proper : ∀ answers call, next answers = some call → call.isProper

/-- One call of a cycle, with the matcher before it. -/
structure Asked where
  before : HistoryMatcher
  call : WorkflowCall
  turn : Turn

def Asked.gate? (asked : Asked) : Option Gate := asked.call.gate?

/-- The first `n` calls of a cycle. It ends earlier where the workflow returns or is parked. -/
def Workflow.cycle (w : Workflow) (fresh : ActivityExecId) :
    Nat → List Answer → HistoryMatcher → List Asked
  | 0, _, _ => []
  | n + 1, answers, m =>
    match w.next answers with
    | none => []
    | some call =>
      match call.exec fresh m with
      | (.parked pushed, _) => [⟨m, call, .parked pushed⟩]
      | (.answered answer pushed, after) =>
        ⟨m, call, .answered answer pushed⟩ :: w.cycle fresh n (answers ++ [answer]) after

/-- The matcher of a cycle on a history that opens with the start of the workflow. -/
def cycleMatcher (history : List WorkflowEvent) : HistoryMatcher :=
  (HistoryMatcher.new history).advance

def gates (cycle : List Asked) : List Asked := cycle.filter fun asked => asked.gate?.isSome

/-! ## Runs -/

/-- The history, and the activity that the workflow waits for. -/
structure RunState where
  history : List WorkflowEvent
  awaited : Option ActivityExecId

/-- The activity that is waited for after the event, if the event can be appended between two
cycles: a signal, or an event of that activity. -/
def arrive (awaited : Option ActivityExecId) (event : WorkflowEvent) :
    Option (Option ActivityExecId) :=
  if isSignal event then some awaited
  else
    match awaited with
    | none => none
    | some id =>
      if activityScanRole event = .progress id then some (some id)
      else if activityScanRole event = .terminal id then some none
      else none

/-- The events that a cycle appends. -/
def records (cycle : List Asked) : List WorkflowEvent :=
  cycle.filterMap fun asked => asked.turn.event

/-- The activity that the workflow waits for after a cycle. -/
def awaitedBy (cycle : List Asked) : Option ActivityExecId :=
  (cycle.getLast?.bind fun asked => asked.turn.pushed).bind Command.awaits

def RunState.commit (s : RunState) (cycle : List Asked) : RunState :=
  ⟨s.history ++ records cycle, awaitedBy cycle⟩

/-- The runs of a workflow: the cycles so far, each one to its end, and the state after them. -/
inductive Run (w : Workflow) (started : WorkflowEvent) : List (List Asked) → RunState → Prop
  | start : Run w started [] ⟨[started], none⟩
  | append {cycles : List (List Asked)} {s : RunState} {event : WorkflowEvent}
      {awaited : Option ActivityExecId} (run : Run w started cycles s)
      (arrives : arrive s.awaited event = some awaited) :
      Run w started cycles ⟨s.history ++ [event], awaited⟩
  | cycle {cycles : List (List Asked)} {s : RunState} (fresh : ActivityExecId) (n : Nat)
      (run : Run w started cycles s)
      (ends : (w.cycle fresh n [] (cycleMatcher s.history)).length < n) :
      Run w started (cycles ++ [w.cycle fresh n [] (cycleMatcher s.history)])
        (s.commit (w.cycle fresh n [] (cycleMatcher s.history)))

/-! ## Where the gates go wrong -/

namespace HistoryMatcher

/-- The unconsumed events from the cursor on, without their positions. -/
def left (m : HistoryMatcher) : List WorkflowEvent := m.ahead.map Prod.fst

end HistoryMatcher

namespace Gate

/-- The answers of code from before and after the change. -/
def old : Gate → Answer
  | patched _ => .patched false
  | version _ min _ => .version min

def new : Gate → Answer
  | patched _ => .patched true
  | version _ _ max => .version max

/-- The gate takes a marker of this name. -/
def looksFor : Gate → String → Bool
  | patched patchId, name => name = patchMarkerName patchId ∨ name = versionMarkerName patchId
  | version changeId _ _, name => name = versionMarkerName changeId

def markerName : Gate → String
  | patched patchId => patchMarkerName patchId
  | version changeId _ _ => versionMarkerName changeId

/-- A version gate whose marker is the last event that is left, with the version that it would
record. -/
def recordsAgain (left : List WorkflowEvent) : Gate → Bool
  | patched _ => false
  | version changeId min max =>
    match left.dropWhile isSignal with
    | [.markerRecorded name details] =>
      name = versionMarkerName changeId ∧ (asU32 details).getD min = max
    | _ => false

/-- Only signals are left, so that the gate gives the old answer and records nothing. -/
def overSignals (left : List WorkflowEvent) (gate : Gate) : Bool :=
  ! left.isEmpty && left.all isSignal && gate.old ≠ gate.new

end Gate

namespace Asked

def recordsAgain (asked : Asked) : Bool :=
  asked.gate?.any (Gate.recordsAgain asked.before.left)

/-- A gate that gave the old answer over signals looks for the marker of the next gate. -/
def looksForNext (asked next : Asked) : Bool :=
  asked.gate?.any fun gate => gate.overSignals asked.before.left &&
    next.gate?.any fun later => gate.looksFor later.markerName

end Asked

/-- Neither defect is reached in the cycle. -/
structure Meets (cycle : List Asked) : Prop where
  once : ∀ asked ∈ cycle, asked.recordsAgain = false
  apart : (gates cycle).IsChain fun asked next => asked.looksForNext next = false

end Harvest.Replay
