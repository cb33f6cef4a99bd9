import Mathlib.Data.List.TakeWhile
import Harvest.Lib.Nesting
import Harvest.Scope.Capture

/-!
# The commands of a decision cycle under its scopes

Model of the scope stack in `cancellation_scope.rs` and of the command buffer in `context.rs`: how a
command is routed, how a replayed body takes a captured decision, and how a scope starts, settles a
cancel and finishes. A cycle is a list of acts of the polled bodies.

Proved here:
* `pushCommand_cases`: a pushed command is held, or it enters the buffer under its scopes.
* `Unmoved.pushCommand`: routing moves no scope to another phase.
-/

namespace Harvest.Scope

open Replay (patchMarkerName versionMarkerName)

inductive ScopeFrame
  | cancellable (seq : ℕ)
  | shield
deriving DecidableEq, Repr

inductive Phase
  | idle
  | running
  | done
deriving DecidableEq, Repr

structure ScopeInner where
  phase : Phase
  holding : Bool
  held : List WorkflowCommand
  members : ScopeMembers
  records : List CapturedRecord
deriving DecidableEq, Repr

/-- A scope before its first poll. -/
def ScopeInner.new : ScopeInner := ⟨.idle, false, [], .empty, []⟩

structure BufferedCommand where
  order : ℕ
  cmd : WorkflowCommand
  scopes : List ℕ
deriving DecidableEq, Repr

/-- The part of a workflow context that scopes work on. The stack has the innermost frame first.
`pushed` is the log of the buffer: what entered it in this cycle, withdrawn or not. -/
structure Cycle where
  stack : List ScopeFrame
  scopes : ℕ → ScopeInner
  commands : List BufferedCommand
  commandOrder : ℕ
  deferredNd : List String
  pushed : List BufferedCommand

/-! ## The scope stack -/

/-- The cancellable scopes up to the nearest shield, innermost first. -/
def cancellables : List ScopeFrame → List ℕ
  | .cancellable seq :: rest => seq :: cancellables rest
  | _ => []

def noteMembers (scopes : ℕ → ScopeInner) (seqs : List ℕ) (cmd : WorkflowCommand) (seq : ℕ) :
    ScopeInner :=
  if seq ∈ seqs then { scopes seq with members := (scopes seq).members.addFrom cmd }
  else scopes seq

/-- `route_command` -/
def routeCommand (scopes : ℕ → ScopeInner) (stack : List ScopeFrame) (cmd : WorkflowCommand) :
    Option (WorkflowCommand × List ℕ) × (ℕ → ScopeInner) :=
  -- the outermost holding scope keeps the command, the scopes inside it note the member
  match (cancellables stack).reverse.dropWhile fun seq => !(scopes seq).holding with
  | holder :: inside =>
    let scopes := noteMembers scopes inside cmd
    (none, Function.update scopes holder
      { scopes holder with held := (scopes holder).held ++ [cmd] })
  | [] => (some (cmd, cancellables stack), noteMembers scopes (cancellables stack) cmd)

/-! ## Captured decisions -/

inductive Captured
  | notReplaying
  | value (value : Json)
  | drift (text : String)
deriving DecidableEq, Repr

/-- The innermost scope of the stack that replays a cancel. -/
def replaying (scopes : ℕ → ScopeInner) (stack : List ScopeFrame) : Option ℕ :=
  (cancellables stack).find? fun seq => (scopes seq).holding

/-- `take_captured` -/
def takeCaptured (scopes : ℕ → ScopeInner) (stack : List ScopeFrame) (asked : String)
    (wanted : CapturedRecord → Option Json) : Captured × (ℕ → ScopeInner) :=
  match replaying scopes stack with
  | none => (.notReplaying, scopes)
  | some seq =>
    match (scopes seq).records with
    | [] =>
      (.drift ("the replayed body asked for " ++ asked ++ ", but no recorded decision is left"),
        scopes)
    | next :: rest =>
      match wanted next with
      | some value =>
        (.value value, Function.update scopes seq { scopes seq with records := rest })
      | none =>
        (.drift ("the replayed body asked for " ++ asked ++ ", but the next recorded decision is " ++
          next.label), scopes)

def takeCapturedSideEffect (scopes : ℕ → ScopeInner) (stack : List ScopeFrame)
    (kind : SideEffectKind) (name : Option String) : Captured × (ℕ → ScopeInner) :=
  takeCaptured scopes stack (sideEffectLabel kind name) fun
    | .sideEffect _ k n value => if k = kind ∧ n = name then some value else none
    | .marker .. => none

def takeCapturedMarker (scopes : ℕ → ScopeInner) (stack : List ScopeFrame) (name : String) :
    Captured × (ℕ → ScopeInner) :=
  takeCaptured scopes stack ("MarkerRecorded(" ++ name ++ ")") fun
    | .marker _ n details => if n = name then some details else none
    | .sideEffect .. => none

/-- The details of a marker as a replay compares them. -/
def comparedDetails (name : String) (details : Json) : Json :=
  if beginsWith name cancelMarkerHead then cancelDecision details else details

/-- The record that a replayed marker takes. A `patch:` gate also takes a `version:` one. -/
def takesMarker (name : String) (replayed : Json) : CapturedRecord → Option Json
  | .marker _ n captured =>
    if n = name then some captured
    else if (stripHead name "patch:").map versionMarkerName = some n then some replayed
    else none
  | .sideEffect .. => none

/-- `captured_marker_drift` -/
def capturedMarkerDrift (scopes : ℕ → ScopeInner) (stack : List ScopeFrame) :
    WorkflowCommand → Option String × (ℕ → ScopeInner)
  | .recordMarker name details =>
    if beginsWith name "version:" then (none, scopes)
    else
      let replayed := comparedDetails name details
      let taken := takeCaptured scopes stack ("MarkerRecorded(" ++ name ++ ")")
        (takesMarker name replayed)
      match taken.1 with
      | .notReplaying => (none, taken.2)
      | .value captured =>
        if captured = replayed then (none, taken.2)
        else (some ("marker '" ++ name ++ "' differs from the one that a scope cancel recorded"),
          taken.2)
      | .drift drift => (some drift, taken.2)
  | _ => (none, scopes)

namespace Cycle

def reportDrift (st : Cycle) (text : String) : Cycle :=
  { st with deferredNd := st.deferredNd ++ [text] }

/-- A routed command enters the buffer with the next order. -/
def buffer (st : Cycle) : Option (WorkflowCommand × List ℕ) → Cycle
  | none => st
  | some (cmd, scopes) =>
    { st with
      commands := st.commands ++ [⟨st.commandOrder, cmd, scopes⟩]
      commandOrder := st.commandOrder + 1
      pushed := st.pushed ++ [⟨st.commandOrder, cmd, scopes⟩] }

/-- `push_command` -/
def pushCommand (st : Cycle) (cmd : WorkflowCommand) : Cycle :=
  let drift := capturedMarkerDrift st.scopes st.stack cmd
  let routed := routeCommand drift.2 st.stack cmd
  let st := { st with scopes := routed.2 }
  let st := match drift.1 with
    | some text => st.reportDrift ("non-deterministic replay: " ++ text)
    | none => st
  st.buffer routed.1

/-- A side effect at the frontier: the captured value, or a fresh one. The author-named ones fail on
drift, the built-in ones report it and go on. -/
def recordSideEffect (st : Cycle) (kind : SideEffectKind) (name : Option String) (fresh : Json)
    (failsOnDrift : Bool) : Cycle :=
  let taken := takeCapturedSideEffect st.scopes st.stack kind name
  let st := { st with scopes := taken.2 }
  match taken.1 with
  | .notReplaying => st.pushCommand (.recordSideEffect kind name fresh)
  | .value value => st.pushCommand (.recordSideEffect kind name value)
  | .drift text =>
    if failsOnDrift then st
    else (st.reportDrift ("non-deterministic replay: " ++ text)).pushCommand
      (.recordSideEffect kind name fresh)

/-- `as_u64` and `u32::try_from` -/
def readVersion (details : Json) : Option UInt32 :=
  details.asU64.bind fun n => if n.toNat < 4294967296 then some n.toUInt32 else none

/-- A version gate at the frontier. -/
def version (st : Cycle) (changeId : String) (max : UInt32) : Cycle :=
  let name := versionMarkerName changeId
  let taken := takeCapturedMarker st.scopes st.stack name
  let st := { st with scopes := taken.2 }
  match taken.1 with
  | .notReplaying => st.pushCommand (.recordMarker name (ofU32 max))
  | .value details =>
    match readVersion details with
    | some captured => st.pushCommand (.recordMarker name (ofU32 captured))
    | none =>
      (st.reportDrift ("version gate '" ++ changeId ++
        "': the version that a scope cancel recorded is not a version number")).pushCommand
        (.recordMarker name (ofU32 max))
  | .drift text =>
    (st.reportDrift ("non-deterministic replay: " ++ text)).pushCommand
      (.recordMarker name (ofU32 max))

/-! ## The life of a scope -/

def updateScope (st : Cycle) (seq : ℕ) (inner : ScopeInner) : Cycle :=
  { st with scopes := Function.update st.scopes seq inner }

/-- Whether a captured record belongs to a deprecated gate. -/
def isDeprecated (deprecated : List String) (record : CapturedRecord) : Bool :=
  record.gateId.any deprecated.contains

/-- `ScopeRun::start`: `found` are the details of the scope's unconsumed cancel marker. A second
body is an error, and so is a marker that cannot be read. -/
def start (serde : MarkerSerde) (st : Cycle) (seq : ℕ) (found : Option Json)
    (deprecated : List String) : Cycle :=
  match (st.scopes seq).phase with
  | .idle =>
    let running := { st.scopes seq with phase := .running }
    match found.bind serde.decodeMarker with
    | none => st.updateScope seq running
    | some marker =>
      st.updateScope seq { running with
        holding := true
        records := marker.records.filter fun record => !isDeprecated deprecated record }
  | _ => st

def isWithdrawn (seq : ℕ) (buffered : BufferedCommand) : Bool :=
  buffered.scopes.contains seq &&
    match buffered.cmd with
    | .releaseMutex | .recordUpdateResult => false
    | _ => true

/-- The commands that `withdraw_scope_commands` takes out of the buffer. -/
def withdrawn (st : Cycle) (seq : ℕ) : List (ℕ × WorkflowCommand) :=
  (st.commands.filter (isWithdrawn seq)).map fun buffered => (buffered.order, buffered.cmd)

def withdraw (st : Cycle) (seq : ℕ) : Cycle :=
  { st with commands := st.commands.filter fun buffered => !isWithdrawn seq buffered }

/-- The marker that a live cancel records. The open members come from the matcher and the timers. -/
def cancelMarker (serde : MarkerSerde) (st : Cycle) (seq : ℕ)
    (openMembers : ScopeMembers → ScopeMembers) (horizon : ℕ) : CancelMarker :=
  ⟨scopeCancelReason, horizon, openMembers (st.scopes seq).members,
    capturedRecords serde (st.withdrawn seq)⟩

/-- The live branch of `settle_cancel`. -/
def recordCancel (serde : MarkerSerde) (st : Cycle) (seq : ℕ)
    (openMembers : ScopeMembers → ScopeMembers) (horizon : ℕ) : Cycle :=
  let marker := st.cancelMarker serde seq openMembers horizon
  let st := (st.withdraw seq).pushCommand
    (.recordMarker (cancelMarkerName seq) (serde.encodeMarker marker))
  if marker.members.isEmpty then st else st.pushCommand (.cancelRaceLosers marker.members)

/-- `ScopeRun::finish` -/
def finish (st : Cycle) (seq : ℕ) : Cycle :=
  st.updateScope seq { st.scopes seq with phase := .done, holding := false, held := [] }

/-- How a cancelled scope ends. -/
inductive Settled
  | cancelled (reason : String)
  | nonDeterministic (text : String)
deriving DecidableEq, Repr

/-- `settle_cancel`: `taken` are the details of the marker at the cursor, `unconsumed` says that
one lies elsewhere. The error of `serde` is left out of the text. -/
def settleCancel (serde : MarkerSerde) (st : Cycle) (seq : ℕ) (taken : Option Json)
    (unconsumed : Bool) (openMembers : ScopeMembers → ScopeMembers) (horizon : ℕ) :
    Settled × Cycle :=
  let name := cancelMarkerName seq
  match taken with
  | some details =>
    match serde.decodeMarker details with
    | none => (.nonDeterministic (name ++ ": the recorded cancel cannot be read"), st.finish seq)
    | some marker =>
      let unused := (st.scopes seq).records.length
      if unused > 0 then
        (.nonDeterministic ("cancellation scope " ++ toString seq ++
          ": the replayed body skipped " ++ toString unused ++
          " recorded decision(s) of the cancelling cycle"), st.finish seq)
      else (.cancelled marker.reason, st.finish seq)
  | none =>
    if (st.scopes seq).holding || unconsumed then
      (.nonDeterministic ("cancellation scope " ++ toString seq ++
        ": the recorded cancel is not at this point on replay"), st.finish seq)
    else
      (.cancelled scopeCancelReason, (st.recordCancel serde seq openMembers horizon).finish seq)

/-! ## Acts -/

/-- What a polled body does to the context. -/
inductive Act
  | start (seq : ℕ) (found : Option Json) (deprecated : List String)
  | enter (frame : ScopeFrame)
  | leave
  | push (cmd : WorkflowCommand)
  | sideEffect (kind : SideEffectKind) (name : Option String) (fresh : Json) (failsOnDrift : Bool)
  | version (changeId : String) (max : UInt32)
  | settle (seq : ℕ) (taken : Option Json) (unconsumed : Bool)
      (openMembers : ScopeMembers → ScopeMembers) (horizon : ℕ)
  | complete (seq : ℕ)

def step (serde : MarkerSerde) (st : Cycle) : Act → Cycle
  | .start seq found deprecated => st.start serde seq found deprecated
  | .enter frame => { st with stack := frame :: st.stack }
  | .leave => { st with stack := st.stack.tail }
  | .push cmd => st.pushCommand cmd
  | .sideEffect kind name fresh failsOnDrift => st.recordSideEffect kind name fresh failsOnDrift
  | .version changeId max => st.version changeId max
  | .settle seq taken unconsumed openMembers horizon =>
    (st.settleCancel serde seq taken unconsumed openMembers horizon).2
  | .complete seq => st.finish seq

def run (serde : MarkerSerde) (st : Cycle) (acts : List Act) : Cycle := acts.foldl (step serde) st

end Cycle

/-! ## What routing changes -/

/-- No scope changes its phase or starts to hold. -/
def Unmoved (before after : ℕ → ScopeInner) : Prop :=
  ∀ seq, (after seq).phase = (before seq).phase ∧ (after seq).holding = (before seq).holding

theorem Unmoved.refl (scopes : ℕ → ScopeInner) : Unmoved scopes scopes := fun _ => ⟨rfl, rfl⟩

theorem Unmoved.trans {a b c : ℕ → ScopeInner} (hab : Unmoved a b) (hbc : Unmoved b c) :
    Unmoved a c :=
  fun seq => ⟨(hbc seq).1.trans (hab seq).1, (hbc seq).2.trans (hab seq).2⟩

section Routing

variable (scopes : ℕ → ScopeInner) (stack : List ScopeFrame) (cmd : WorkflowCommand)

theorem noteMembers_same (seqs : List ℕ) (seq : ℕ) :
    (noteMembers scopes seqs cmd seq).phase = (scopes seq).phase ∧
      (noteMembers scopes seqs cmd seq).holding = (scopes seq).holding ∧
      (noteMembers scopes seqs cmd seq).records = (scopes seq).records := by
  unfold noteMembers
  split <;> exact ⟨rfl, rfl, rfl⟩

/-- Routing touches the members and the held commands only. -/
theorem routeCommand_same (seq : ℕ) :
    ((routeCommand scopes stack cmd).2 seq).phase = (scopes seq).phase ∧
      ((routeCommand scopes stack cmd).2 seq).holding = (scopes seq).holding ∧
      ((routeCommand scopes stack cmd).2 seq).records = (scopes seq).records := by
  unfold routeCommand
  split
  case h_1 holder inside _ =>
    by_cases h : seq = holder
    · subst h
      simpa using noteMembers_same scopes cmd inside seq
    · simpa [h] using noteMembers_same scopes cmd inside seq
  case h_2 => exact noteMembers_same scopes cmd _ seq

/-- A command is held exactly when a scope around it holds. -/
theorem routeCommand_cases :
    ((∃ seq ∈ cancellables stack, (scopes seq).holding = true) ∧
      (routeCommand scopes stack cmd).1 = none) ∨
    ((∀ seq ∈ cancellables stack, (scopes seq).holding = false) ∧
      (routeCommand scopes stack cmd).1 = some (cmd, cancellables stack)) := by
  unfold routeCommand
  split
  case h_1 holder inside h =>
    have hmem : holder ∈ (cancellables stack).reverse.dropWhile fun seq => !(scopes seq).holding := by
      rw [h]
      exact List.mem_cons_self
    have hholds : (!(scopes holder).holding) = false := by
      have hhead := List.head?_dropWhile_not (fun seq => !(scopes seq).holding)
        (cancellables stack).reverse
      rw [h] at hhead
      simpa using hhead
    refine .inl ⟨⟨holder, ?_, by simpa using hholds⟩, rfl⟩
    exact List.mem_reverse.mp ((List.dropWhile_sublist _).subset hmem)
  case h_2 h =>
    refine .inr ⟨fun seq hseq => ?_, rfl⟩
    have hall := List.dropWhile_eq_nil_iff.mp h seq (List.mem_reverse.mpr hseq)
    simpa using hall

theorem takeCaptured_unmoved (asked : String) (wanted : CapturedRecord → Option Json) :
    Unmoved scopes (takeCaptured scopes stack asked wanted).2 := by
  unfold takeCaptured
  split
  case h_1 => exact .refl scopes
  case h_2 holder _ =>
    split
    case h_1 => exact .refl scopes
    case h_2 next rest _ =>
      split
      case h_1 value _ =>
        intro seq
        by_cases h : seq = holder
        · subst h
          simp
        · simp [h]
      case h_2 => exact .refl scopes

theorem takeCapturedSideEffect_unmoved (kind : SideEffectKind) (name : Option String) :
    Unmoved scopes (takeCapturedSideEffect scopes stack kind name).2 :=
  takeCaptured_unmoved _ _ _ _

theorem takeCapturedMarker_unmoved (name : String) :
    Unmoved scopes (takeCapturedMarker scopes stack name).2 :=
  takeCaptured_unmoved _ _ _ _

theorem capturedMarkerDrift_unmoved : Unmoved scopes (capturedMarkerDrift scopes stack cmd).2 := by
  unfold capturedMarkerDrift
  split
  case h_1 name details =>
    split
    case isTrue => exact .refl scopes
    case isFalse =>
      have htaken := takeCaptured_unmoved scopes stack ("MarkerRecorded(" ++ name ++ ")")
        (takesMarker name (comparedDetails name details))
      dsimp only
      split
      case h_1 => exact htaken
      case h_2 => split <;> exact htaken
      case h_3 => exact htaken
  case h_2 => exact .refl scopes

end Routing

namespace Cycle

theorem updateScope_self (st : Cycle) (seq : ℕ) (inner : ScopeInner) :
    (st.updateScope seq inner).scopes seq = inner := Function.update_self ..

theorem updateScope_of_ne (st : Cycle) {seq other : ℕ} (inner : ScopeInner) (h : other ≠ seq) :
    (st.updateScope seq inner).scopes other = st.scopes other := Function.update_of_ne h ..

/-- **A pushed command is held, or it enters the buffer under its scopes.** -/
theorem pushCommand_cases (st : Cycle) (cmd : WorkflowCommand) :
    ((∃ seq ∈ cancellables st.stack, (st.scopes seq).holding = true) ∧
      (st.pushCommand cmd).commands = st.commands ∧ (st.pushCommand cmd).pushed = st.pushed ∧
      (st.pushCommand cmd).commandOrder = st.commandOrder) ∨
    ((∀ seq ∈ cancellables st.stack, (st.scopes seq).holding = false) ∧
      (st.pushCommand cmd).commands =
        st.commands ++ [⟨st.commandOrder, cmd, cancellables st.stack⟩] ∧
      (st.pushCommand cmd).pushed =
        st.pushed ++ [⟨st.commandOrder, cmd, cancellables st.stack⟩] ∧
      (st.pushCommand cmd).commandOrder = st.commandOrder + 1) := by
  have hsame := fun seq => (capturedMarkerDrift_unmoved st.scopes st.stack cmd seq).2
  unfold pushCommand
  dsimp only
  rcases routeCommand_cases (capturedMarkerDrift st.scopes st.stack cmd).2 st.stack cmd with
    ⟨⟨seq, hseq, hholds⟩, hrouted⟩ | ⟨hopen, hrouted⟩
  · rw [hrouted]
    refine .inl ⟨⟨seq, hseq, (hsame seq).symm.trans hholds⟩, ?_⟩
    split <;> exact ⟨rfl, rfl, rfl⟩
  · rw [hrouted]
    refine .inr ⟨fun seq hseq => (hsame seq).symm.trans (hopen seq hseq), ?_⟩
    split <;> exact ⟨rfl, rfl, rfl⟩

theorem pushCommand_scopes (st : Cycle) (cmd : WorkflowCommand) :
    (st.pushCommand cmd).scopes =
      (routeCommand (capturedMarkerDrift st.scopes st.stack cmd).2 st.stack cmd).2 := by
  unfold pushCommand buffer
  dsimp only
  split <;> split <;> rfl

theorem pushCommand_stack (st : Cycle) (cmd : WorkflowCommand) :
    (st.pushCommand cmd).stack = st.stack := by
  unfold pushCommand buffer
  dsimp only
  split <;> split <;> rfl

theorem Unmoved.pushCommand (st : Cycle) (cmd : WorkflowCommand) :
    Unmoved st.scopes (st.pushCommand cmd).scopes := by
  rw [pushCommand_scopes]
  intro seq
  have hdrift := capturedMarkerDrift_unmoved st.scopes st.stack cmd seq
  have hroute := routeCommand_same (capturedMarkerDrift st.scopes st.stack cmd).2 st.stack cmd seq
  exact ⟨hroute.1.trans hdrift.1, hroute.2.1.trans hdrift.2⟩

end Cycle

end Harvest.Scope
