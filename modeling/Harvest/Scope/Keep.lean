import Harvest.Scope.Cycle

/-!
# What a scope cancel withdraws

A cycle keeps, for every scope that can still be cancelled, the decisions pushed inside it: they are
in the buffer, or in the marker of a nested cancel that is. The invariant is over whole cycles, with
scopes nested to any depth and cancelled in any order that the nesting allows.

Proved here:
* `Kept.settle`: a cancel moves the decisions of its scope into its marker and loses none.
* `Kept.run`: the invariant along a cycle.
* `Kept.captured`: what a cancel captures is what was pushed inside its scope, in push order.
-/

namespace Harvest.Scope

open Lib (Line)
open Replay (versionMarkerName)

/-! ## The log -/

/-- The decisions pushed inside a scope and not passed through a shield, in push order. -/
def decisionsIn (seq : ℕ) (log : List BufferedCommand) : List CapturedRecord :=
  (log.filter fun buffered => buffered.scopes.contains seq).filterMap fun buffered =>
    decisionOf buffered.order buffered.cmd

theorem decisionsIn_concat (seq : ℕ) (log : List BufferedCommand) (buffered : BufferedCommand) :
    decisionsIn seq (log ++ [buffered]) = decisionsIn seq log ++
      if seq ∈ buffered.scopes then (decisionOf buffered.order buffered.cmd).toList else [] := by
  unfold decisionsIn
  rw [List.filter_append, List.filterMap_append]
  by_cases h : seq ∈ buffered.scopes
  · cases hdecision : decisionOf buffered.order buffered.cmd <;> simp [h, hdecision]
  · simp [h]

theorem decisionsIn_pairwise {seq : ℕ} {log : List BufferedCommand}
    (h : log.Pairwise fun a b => a.order < b.order) :
    (decisionsIn seq log).Pairwise fun a b => a.order < b.order := by
  refine (h.sublist List.filter_sublist).filterMap _ ?_
  intro a b hab record hrecord record' hrecord'
  rw [order_of_decisionOf hrecord, order_of_decisionOf hrecord']
  exact hab

/-- A version gate records a version number. -/
def NamesVersion : WorkflowCommand → Prop
  | .recordMarker name details => beginsWith name "version:" = true → ∃ n, details = ofU32 n
  | _ => True

/-! ## The nesting -/

/-- The stack puts each scope inside the scopes that the nesting puts around it. -/
inductive Nested (path : ℕ → List ℕ) : List ScopeFrame → Prop
  | nil : Nested path []
  | shield {rest : List ScopeFrame} (h : Nested path rest) : Nested path (.shield :: rest)
  | cancellable {seq : ℕ} {rest : List ScopeFrame} (hpath : path seq = cancellables rest)
      (h : Nested path rest) : Nested path (.cancellable seq :: rest)

theorem Nested.line {path : ℕ → List ℕ} {stack : List ScopeFrame} (h : Nested path stack) :
    Line path (cancellables stack) := by
  induction h with
  | nil => exact .nil
  | shield => exact .nil
  | cancellable hpath _ ih => exact .cons hpath ih

theorem Nested.tail {path : ℕ → List ℕ} {stack : List ScopeFrame} (h : Nested path stack) :
    Nested path stack.tail := by
  cases h with
  | nil => exact .nil
  | shield h => exact h
  | cancellable _ h => exact h

theorem mem_stack_of_mem_cancellables {stack : List ScopeFrame} {seq : ℕ}
    (h : seq ∈ cancellables stack) : .cancellable seq ∈ stack := by
  induction stack with
  | nil => cases h
  | cons frame rest ih =>
    cases frame with
    | shield => cases h
    | cancellable inner =>
      rcases List.mem_cons.mp h with rfl | h
      · exact List.mem_cons_self
      · exact List.mem_cons_of_mem _ (ih h)

namespace Cycle

/-- What polled bodies can do. A body runs in its own place of the nesting, and is not polled
again while it is polled. The markers of the engine's other decisions bear other names than those of
a cancel, and only a gate records a version. -/
def Allowed (path : ℕ → List ℕ) (st : Cycle) : Act → Prop
  | .enter (.cancellable seq) =>
    (st.scopes seq).phase = .running ∧ path seq = cancellables st.stack
  | .push (.recordMarker name _) =>
    beginsWith name cancelMarkerHead = false ∧ beginsWith name "version:" = false
  | .push (.recordSideEffect ..) => False
  | .settle seq .. =>
    (st.scopes seq).phase = .running ∧ path seq = cancellables st.stack ∧
      .cancellable seq ∉ st.stack
  | .complete seq => .cancellable seq ∉ st.stack
  | _ => True

def AllowedRun (serde : MarkerSerde) (path : ℕ → List ℕ) (st : Cycle) : List Act → Prop
  | [] => True
  | act :: rest => Allowed path st act ∧ AllowedRun serde path (st.step serde act) rest

/-- A scope that can still be cancelled: neither it nor a scope around it is done. -/
def Open (path : ℕ → List ℕ) (st : Cycle) (seq : ℕ) : Prop :=
  (st.scopes seq).phase ≠ .done ∧ ∀ outer ∈ path seq, (st.scopes outer).phase ≠ .done

def recordsOf (serde : MarkerSerde) (cmds : List BufferedCommand) : List CapturedRecord :=
  cmds.flatMap fun buffered => commandRecords serde buffered.order buffered.cmd

/-- The buffered commands of a scope hold the decisions that were pushed inside it. -/
def Complete (serde : MarkerSerde) (st : Cycle) (seq : ℕ) : Prop :=
  (recordsOf serde (st.commands.filter fun buffered => buffered.scopes.contains seq)).Perm
    (decisionsIn seq st.pushed)

/-- The buffer and its log agree with the stack. -/
structure Framed (path : ℕ → List ℕ) (st : Cycle) : Prop where
  nested : Nested path st.stack
  running : ∀ seq, .cancellable seq ∈ st.stack → (st.scopes seq).phase = .running
  lines : ∀ buffered ∈ st.commands, Line path buffered.scopes
  unheld : ∀ buffered ∈ st.commands, ∀ seq ∈ buffered.scopes,
    (st.scopes seq).holding = false ∧ (st.scopes seq).phase ≠ .idle
  ordered : st.pushed.Pairwise fun a b => a.order < b.order
  below : ∀ buffered ∈ st.pushed, buffered.order < st.commandOrder
  versions : ∀ buffered ∈ st.pushed, NamesVersion buffered.cmd

/-- **The invariant of a cycle.** No open scope has lost a decision. -/
structure Kept (serde : MarkerSerde) (path : ℕ → List ℕ) (st : Cycle) : Prop extends
    Framed path st where
  complete : ∀ seq, Open path st seq → Complete serde st seq

variable {serde : MarkerSerde} {path : ℕ → List ℕ} {st : Cycle}

theorem Open.of_unmoved {st' : Cycle} (hmoved : Unmoved st.scopes st'.scopes) {seq : ℕ}
    (h : Open path st' seq) : Open path st seq := by
  refine ⟨(hmoved seq).1 ▸ h.1, fun outer houter => ?_⟩
  exact (hmoved outer).1 ▸ h.2 outer houter

/-- The invariant reads no members, no held commands, no records and no reports. -/
theorem Kept.of_same (h : Kept serde path st) {st' : Cycle} (hstack : st'.stack = st.stack)
    (hmoved : Unmoved st.scopes st'.scopes) (hcommands : st'.commands = st.commands)
    (horder : st'.commandOrder = st.commandOrder) (hpushed : st'.pushed = st.pushed) :
    Kept serde path st' where
  nested := hstack ▸ h.nested
  running := fun seq hseq => (hmoved seq).1.trans (h.running seq (hstack ▸ hseq))
  lines := hcommands ▸ h.lines
  unheld := by
    intro buffered hbuffered seq hseq
    rw [(hmoved seq).1, (hmoved seq).2]
    exact h.unheld buffered (hcommands ▸ hbuffered) seq hseq
  ordered := hpushed ▸ h.ordered
  below := by
    rw [hpushed, horder]
    exact h.below
  versions := hpushed ▸ h.versions
  complete := by
    intro seq hopen
    unfold Complete
    rw [hcommands, hpushed]
    exact h.complete seq (hopen.of_unmoved hmoved)

/-! ## A push -/

theorem Framed.push (h : Framed path st) {cmd : WorkflowCommand} (hversion : NamesVersion cmd) :
    Framed path (st.pushCommand cmd) := by
  have hmoved := Unmoved.pushCommand st cmd
  have hstack := pushCommand_stack st cmd
  have hrunning : ∀ seq, .cancellable seq ∈ (st.pushCommand cmd).stack →
      ((st.pushCommand cmd).scopes seq).phase = .running :=
    fun seq hseq => (hmoved seq).1.trans (h.running seq (hstack ▸ hseq))
  rcases pushCommand_cases st cmd with ⟨_, hcommands, hpushed, horder⟩ |
    ⟨hopen, hcommands, hpushed, horder⟩
  · refine ⟨hstack ▸ h.nested, hrunning, hcommands ▸ h.lines, ?_, hpushed ▸ h.ordered, ?_,
      hpushed ▸ h.versions⟩
    · intro buffered hbuffered seq hseq
      rw [(hmoved seq).1, (hmoved seq).2]
      exact h.unheld buffered (hcommands ▸ hbuffered) seq hseq
    · rw [hpushed, horder]
      exact h.below
  · refine ⟨hstack ▸ h.nested, hrunning, ?_, ?_, ?_, ?_, ?_⟩
    · rw [hcommands, List.forall_mem_append, List.forall_mem_singleton]
      exact ⟨h.lines, h.nested.line⟩
    · intro buffered hbuffered seq hseq
      rw [(hmoved seq).1, (hmoved seq).2]
      rw [hcommands, List.mem_append, List.mem_singleton] at hbuffered
      rcases hbuffered with hbuffered | rfl
      · exact h.unheld buffered hbuffered seq hseq
      · refine ⟨hopen seq hseq, ?_⟩
        rw [h.running seq (mem_stack_of_mem_cancellables hseq)]
        decide
    · rw [hpushed, List.pairwise_append]
      refine ⟨h.ordered, List.pairwise_singleton _ _, fun a ha b hb => ?_⟩
      rw [List.mem_singleton.mp hb]
      exact h.below a ha
    · rw [hpushed, horder, List.forall_mem_append, List.forall_mem_singleton]
      exact ⟨fun buffered hbuffered => Nat.lt_succ_of_lt (h.below buffered hbuffered),
        Nat.lt_succ_self _⟩
    · rw [hpushed, List.forall_mem_append, List.forall_mem_singleton]
      exact ⟨h.versions, hversion⟩

/-- A command that gives the one decision it is. -/
def Plain (serde : MarkerSerde) (cmd : WorkflowCommand) : Prop :=
  ∀ order, commandRecords serde order cmd = (decisionOf order cmd).toList

theorem plain_marker {name : String} (h : beginsWith name cancelMarkerHead = false)
    (details : Json) : Plain serde (.recordMarker name details) := by
  intro order
  simp [commandRecords, decisionOf, h]

theorem filter_concat (cmds : List BufferedCommand) (buffered : BufferedCommand) (seq : ℕ) :
    recordsOf serde ((cmds ++ [buffered]).filter fun b => b.scopes.contains seq) =
      recordsOf serde (cmds.filter fun b => b.scopes.contains seq) ++
        if seq ∈ buffered.scopes then commandRecords serde buffered.order buffered.cmd else [] := by
  unfold recordsOf
  rw [List.filter_append, List.flatMap_append]
  by_cases h : seq ∈ buffered.scopes <;> simp [h]

theorem Complete.push {seq : ℕ} (h : Complete serde st seq) {cmd : WorkflowCommand}
    (hplain : Plain serde cmd) : Complete serde (st.pushCommand cmd) seq := by
  unfold Complete
  rcases pushCommand_cases st cmd with ⟨_, hcommands, hpushed, -⟩ | ⟨-, hcommands, hpushed, -⟩
  · rw [hcommands, hpushed]
    exact h
  · rw [hcommands, hpushed, filter_concat, decisionsIn_concat, hplain]
    exact h.append_right _

theorem Kept.push (h : Kept serde path st) {cmd : WorkflowCommand} (hplain : Plain serde cmd)
    (hversion : NamesVersion cmd) : Kept serde path (st.pushCommand cmd) :=
  ⟨h.toFramed.push hversion, fun seq hopen =>
    (h.complete seq (hopen.of_unmoved (Unmoved.pushCommand st cmd))).push hplain⟩

theorem Kept.report (h : Kept serde path st) (text : String) :
    Kept serde path (st.reportDrift text) :=
  h.of_same rfl (.refl _) rfl rfl rfl

theorem Kept.take (h : Kept serde path st) {scopes : ℕ → ScopeInner}
    (hmoved : Unmoved st.scopes scopes) : Kept serde path { st with scopes := scopes } :=
  h.of_same rfl hmoved rfl rfl rfl

theorem Kept.sideEffect (h : Kept serde path st) (kind : SideEffectKind) (name : Option String)
    (fresh : Json) (failsOnDrift : Bool) :
    Kept serde path (st.recordSideEffect kind name fresh failsOnDrift) := by
  have htaken := h.take (takeCapturedSideEffect_unmoved st.scopes st.stack kind name)
  have hplain : ∀ value, Plain serde (.recordSideEffect kind name value) := fun _ _ => rfl
  unfold recordSideEffect
  dsimp only
  split
  case h_1 => exact htaken.push (hplain _) trivial
  case h_2 => exact htaken.push (hplain _) trivial
  case h_3 =>
    split
    case isTrue => exact htaken
    case isFalse => exact (htaken.report _).push (hplain _) trivial

theorem Kept.version (h : Kept serde path st) (changeId : String) (max : UInt32) :
    Kept serde path (st.version changeId max) := by
  have htaken := h.take (takeCapturedMarker_unmoved st.scopes st.stack (versionMarkerName changeId))
  have hplain : ∀ n, Plain serde (.recordMarker (versionMarkerName changeId) (ofU32 n)) :=
    fun n => plain_marker (cancel_of_version changeId) _
  have hversion : ∀ n, NamesVersion (.recordMarker (versionMarkerName changeId) (ofU32 n)) :=
    fun n _ => ⟨n, rfl⟩
  unfold Cycle.version
  dsimp only
  split
  case h_1 => exact htaken.push (hplain _) (hversion _)
  case h_2 =>
    split
    case h_1 => exact htaken.push (hplain _) (hversion _)
    case h_2 => exact (htaken.report _).push (hplain _) (hversion _)
  case h_3 => exact (htaken.report _).push (hplain _) (hversion _)

/-! ## The life of a scope -/

/-- A scope that starts was idle, so no buffered command is its own. -/
theorem Kept.start (h : Kept serde path st) (seq : ℕ) (found : Option Json)
    (deprecated : List String) : Kept serde path (st.start serde seq found deprecated) := by
  suffices hset : (st.scopes seq).phase = .idle → ∀ inner : ScopeInner, inner.phase = .running →
      Kept serde path (st.updateScope seq inner) by
    unfold Cycle.start
    split
    case h_1 hidle =>
      dsimp only
      split
      case h_1 => exact hset hidle _ rfl
      case h_2 => exact hset hidle _ rfl
    case h_2 => exact h
  intro hidle inner hinner
  have hdone : ∀ other, ((st.updateScope seq inner).scopes other).phase ≠ .done →
      (st.scopes other).phase ≠ .done := by
    intro other hne
    by_cases heq : other = seq
    · rw [heq, hidle]
      decide
    · rwa [updateScope_of_ne _ _ heq] at hne
  refine ⟨⟨h.nested, fun other hon => ?_, h.lines, fun buffered hbuffered other hon => ?_, h.ordered,
    h.below, h.versions⟩, fun other hopen => h.complete other
      ⟨hdone other hopen.1, fun outer houter => hdone outer (hopen.2 outer houter)⟩⟩
  · by_cases heq : other = seq
    · rw [heq, updateScope_self]
      exact hinner
    · rw [updateScope_of_ne _ _ heq]
      exact h.running other hon
  · have hunheld := h.unheld buffered hbuffered other hon
    by_cases heq : other = seq
    · exact absurd (heq ▸ hidle) hunheld.2
    · rwa [updateScope_of_ne _ _ heq]

/-- A scope that finishes is polled no more. -/
theorem Framed.finish (h : Framed path st) {seq : ℕ} (hoff : .cancellable seq ∉ st.stack) :
    Framed path (st.finish seq) := by
  refine ⟨h.nested, fun other hon => ?_, h.lines, fun buffered hbuffered other hon => ?_, h.ordered,
    h.below, h.versions⟩
  · have hne : other ≠ seq := fun heq => hoff (heq ▸ hon)
    rw [Cycle.finish, updateScope_of_ne _ _ hne]
    exact h.running other hon
  · by_cases heq : other = seq
    · rw [heq, Cycle.finish, updateScope_self]
      exact ⟨rfl, by simp⟩
    · rw [Cycle.finish, updateScope_of_ne _ _ heq]
      exact h.unheld buffered hbuffered other hon

/-- What is open after a scope finished was open before, and does not lie in that scope. -/
theorem open_of_finish {seq other : ℕ} (h : Open path (st.finish seq) other) :
    Open path st other ∧ other ≠ seq ∧ seq ∉ path other := by
  have hdone : ((st.finish seq).scopes seq).phase = .done := by
    rw [Cycle.finish, updateScope_self]
  have hback : ∀ any, ((st.finish seq).scopes any).phase ≠ .done → (st.scopes any).phase ≠ .done := by
    intro any hne
    have hany : any ≠ seq := fun heq => hne (heq ▸ hdone)
    rwa [Cycle.finish, updateScope_of_ne _ _ hany] at hne
  refine ⟨⟨hback other h.1, fun outer houter => hback outer (h.2 outer houter)⟩, ?_, ?_⟩
  · intro heq
    exact h.1 (heq ▸ hdone)
  · intro hin
    exact h.2 seq hin hdone

theorem Kept.finish (h : Kept serde path st) {seq : ℕ} (hoff : .cancellable seq ∉ st.stack) :
    Kept serde path (st.finish seq) :=
  ⟨h.toFramed.finish hoff, fun other hopen => h.complete other (open_of_finish hopen).1⟩

/-! ## A cancel -/

theorem mem_of_isWithdrawn {seq : ℕ} {buffered : BufferedCommand}
    (h : isWithdrawn seq buffered = true) : seq ∈ buffered.scopes := by
  unfold isWithdrawn at h
  simpa using (Bool.and_eq_true_iff.mp h).1

/-- A command of the scope that stays in the buffer holds no decision. -/
theorem commandRecords_of_stays {seq : ℕ} {buffered : BufferedCommand}
    (hin : seq ∈ buffered.scopes) (h : isWithdrawn seq buffered = false) :
    commandRecords serde buffered.order buffered.cmd = [] := by
  cases hcmd : buffered.cmd with
  | recordSideEffect kind name value => simp [isWithdrawn, hcmd, hin] at h
  | recordMarker name details => simp [isWithdrawn, hcmd, hin] at h
  | _ => rfl

theorem recordsOf_isWithdrawn (seq : ℕ) (cmds : List BufferedCommand) :
    recordsOf serde (cmds.filter (isWithdrawn seq)) =
      recordsOf serde (cmds.filter fun buffered => buffered.scopes.contains seq) := by
  induction cmds with
  | nil => rfl
  | cons buffered rest ih =>
    unfold recordsOf at ih ⊢
    by_cases hin : seq ∈ buffered.scopes
    · have hown : ((buffered :: rest).filter fun buffered => buffered.scopes.contains seq) =
          buffered :: rest.filter fun buffered => buffered.scopes.contains seq :=
        List.filter_cons_of_pos (by simpa using hin)
      rw [hown, List.flatMap_cons, ← ih]
      cases hdrawn : isWithdrawn seq buffered with
      | true => rw [List.filter_cons_of_pos hdrawn, List.flatMap_cons]
      | false =>
        rw [List.filter_cons_of_neg (by simp [hdrawn]), commandRecords_of_stays hin hdrawn,
          List.nil_append]
    · have hdrawn : ¬ isWithdrawn seq buffered = true := fun h => hin (mem_of_isWithdrawn h)
      rw [List.filter_cons_of_neg hdrawn, List.filter_cons_of_neg (by simpa using hin), ih]

theorem gather_withdrawn (st : Cycle) (seq : ℕ) :
    gather serde (st.withdrawn seq) = recordsOf serde (st.commands.filter (isWithdrawn seq)) := by
  unfold gather withdrawn recordsOf
  rw [List.flatMap_map]

/-- **A cancel captures what was pushed inside its scope**, each decision once and in push order. -/
theorem Kept.captured (h : Kept serde path st) {seq : ℕ} (hopen : Open path st seq) :
    capturedRecords serde (st.withdrawn seq) = decisionsIn seq st.pushed := by
  refine capturedRecords_eq serde ?_ (decisionsIn_pairwise h.ordered)
  rw [gather_withdrawn, recordsOf_isWithdrawn]
  exact h.complete seq hopen

theorem Framed.withdraw (h : Framed path st) (seq : ℕ) : Framed path (st.withdraw seq) where
  nested := h.nested
  running := h.running
  lines := fun buffered hbuffered => h.lines buffered (List.mem_of_mem_filter hbuffered)
  unheld := fun buffered hbuffered => h.unheld buffered (List.mem_of_mem_filter hbuffered)
  ordered := h.ordered
  below := h.below
  versions := h.versions

/-- Of a scope around the cancelled one, every withdrawn command is its own too. -/
theorem Framed.withdraw_around (h : Framed path st) {seq other : ℕ} (haround : other ∈ path seq) :
    (recordsOf serde (st.commands.filter fun buffered => buffered.scopes.contains other)).Perm
      (recordsOf serde
        ((st.withdraw seq).commands.filter fun buffered => buffered.scopes.contains other) ++
          capturedRecords serde (st.withdrawn seq)) := by
  have hown : (st.commands.filter fun buffered => buffered.scopes.contains other).filter
      (isWithdrawn seq) = st.commands.filter (isWithdrawn seq) := by
    rw [List.filter_filter]
    refine List.filter_congr fun buffered hbuffered => ?_
    cases hdrawn : isWithdrawn seq buffered with
    | false => rfl
    | true => simpa using (h.lines buffered hbuffered).subset (mem_of_isWithdrawn hdrawn) haround
  have hsplit := (List.filter_append_perm (isWithdrawn seq)
    (st.commands.filter fun buffered => buffered.scopes.contains other)).flatMap_right
      fun buffered => commandRecords serde buffered.order buffered.cmd
  rw [hown, List.flatMap_append, List.filter_comm] at hsplit
  refine hsplit.symm.trans (List.perm_append_comm.trans (List.Perm.append_left _ ?_))
  exact ((capturedRecords_perm serde _).trans (List.Perm.of_eq (gather_withdrawn st seq))).symm

/-- Of a scope that neither is around the cancelled one nor lies in it, nothing is withdrawn. -/
theorem Framed.withdraw_apart (h : Framed path st) {seq other : ℕ} (hne : other ≠ seq)
    (haround : other ∉ path seq) (hinside : seq ∉ path other) :
    ((st.withdraw seq).commands.filter fun buffered => buffered.scopes.contains other) =
      st.commands.filter fun buffered => buffered.scopes.contains other := by
  unfold Cycle.withdraw
  dsimp only
  rw [List.filter_filter]
  refine List.filter_congr fun buffered hbuffered => ?_
  cases hmem : buffered.scopes.contains other with
  | false => rfl
  | true =>
    cases hdrawn : isWithdrawn seq buffered with
    | false => rfl
    | true =>
      rcases (h.lines buffered hbuffered).comparable (List.contains_iff_mem.mp hmem)
        (mem_of_isWithdrawn hdrawn) with heq | hin | hin
      · exact absurd heq hne
      · exact absurd hin haround
      · exact absurd hin hinside

/-- Under a scope that holds, nothing enters the buffer. -/
theorem Framed.withdraw_held (h : Framed path st) {seq holder : ℕ} (hholder : holder ∈ path seq)
    (hholds : (st.scopes holder).holding = true) : (st.withdraw seq).commands = st.commands := by
  refine List.filter_eq_self.mpr fun buffered hbuffered => ?_
  by_contra hwithdrawn
  have hown : seq ∈ buffered.scopes := mem_of_isWithdrawn (by simpa using hwithdrawn)
  have hin : holder ∈ buffered.scopes := (h.lines buffered hbuffered).subset hown hholder
  have hunheld := (h.unheld buffered hbuffered holder hin).1
  exact absurd (hunheld.symm.trans hholds) (by decide)

/-- The marker of a cancel holds what the cancel withdrew, in the scopes around it. -/
theorem Kept.complete_cancel (h : Kept serde path st) {seq other : ℕ}
    (hpath : path seq = cancellables st.stack) (hopen : Open path st other) (hne : other ≠ seq)
    (hout : seq ∉ path other) {marker : CancelMarker}
    (hrecords : marker.records = capturedRecords serde (st.withdrawn seq)) :
    Complete serde ((st.withdraw seq).pushCommand
      (.recordMarker (cancelMarkerName seq) (serde.encodeMarker marker))) other := by
  have hbefore : Complete serde st other := h.complete other hopen
  unfold Complete at hbefore ⊢
  rcases pushCommand_cases (st.withdraw seq)
      (.recordMarker (cancelMarkerName seq) (serde.encodeMarker marker)) with
    ⟨⟨holder, hholder, hholds⟩, hcommands, hpushed, -⟩ | ⟨-, hcommands, hpushed, -⟩
  · rw [hcommands, hpushed, h.withdraw_held (hpath ▸ hholder) hholds]
    exact hbefore
  · rw [hcommands, hpushed, filter_concat, decisionsIn_concat]
    dsimp only
    rw [show cancellables (st.withdraw seq).stack = path seq from hpath.symm]
    by_cases haround : other ∈ path seq
    · rw [if_pos haround, if_pos haround]
      have hmarker : commandRecords serde st.commandOrder
          (.recordMarker (cancelMarkerName seq) (serde.encodeMarker marker)) =
          capturedRecords serde (st.withdrawn seq) ++ (decisionOf st.commandOrder
            (.recordMarker (cancelMarkerName seq) (serde.encodeMarker marker))).toList := by
        simp [commandRecords, decisionOf, cancelMarkerName_begins,
          serde.decodeMarker_encodeMarker, hrecords]
      rw [show (st.withdraw seq).commandOrder = st.commandOrder from rfl, hmarker,
        ← List.append_assoc]
      exact ((h.withdraw_around haround).symm.trans hbefore).append_right _
    · rw [if_neg haround, if_neg haround, List.append_nil, List.append_nil,
        h.withdraw_apart hne haround hout]
      exact hbefore

theorem Kept.open_of_running (h : Kept serde path st) {seq : ℕ}
    (hrunning : (st.scopes seq).phase = .running) (hpath : path seq = cancellables st.stack) :
    Open path st seq := by
  refine ⟨by simp [hrunning], fun outer houter => ?_⟩
  rw [hpath] at houter
  simp [h.running outer (mem_stack_of_mem_cancellables houter)]

/-- A live cancel moves the decisions of its scope into its marker and loses none. -/
theorem Kept.recordCancel (h : Kept serde path st) {seq : ℕ}
    (hpath : path seq = cancellables st.stack) (hoff : .cancellable seq ∉ st.stack)
    (openMembers : ScopeMembers → ScopeMembers) (horizon : ℕ) :
    Kept serde path ((st.recordCancel serde seq openMembers horizon).finish seq) := by
  have hnamed : ∀ details, NamesVersion (.recordMarker (cancelMarkerName seq) details) := by
    intro details hversion
    rw [version_of_cancel] at hversion
    cases hversion
  suffices hlast : ∀ last : Cycle, Framed path last → last.stack = st.stack →
      Unmoved st.scopes last.scopes → (∀ other, Open path st other → other ≠ seq →
        seq ∉ path other → Complete serde last other) → Kept serde path (last.finish seq) by
    have hmarked := (h.toFramed.withdraw seq).push
      (hnamed (serde.encodeMarker (st.cancelMarker serde seq openMembers horizon)))
    have hmoved := Unmoved.pushCommand (st.withdraw seq) (.recordMarker (cancelMarkerName seq)
      (serde.encodeMarker (st.cancelMarker serde seq openMembers horizon)))
    have hstack := pushCommand_stack (st.withdraw seq) (.recordMarker (cancelMarkerName seq)
      (serde.encodeMarker (st.cancelMarker serde seq openMembers horizon)))
    unfold Cycle.recordCancel
    dsimp only
    split
    case isTrue =>
      exact hlast _ hmarked hstack hmoved fun other hopen hne hout =>
        h.complete_cancel hpath hopen hne hout rfl
    case isFalse =>
      refine hlast _ (hmarked.push trivial) ((pushCommand_stack _ _).trans hstack)
        (hmoved.trans (Unmoved.pushCommand _ _)) fun other hopen hne hout => ?_
      exact (h.complete_cancel hpath hopen hne hout rfl).push fun _ => rfl
  intro last hframed hstack hmoved hcomplete
  refine ⟨hframed.finish (hstack ▸ hoff), fun other hopen => ?_⟩
  obtain ⟨hlast, hne, hout⟩ := open_of_finish hopen
  exact hcomplete other (hlast.of_unmoved hmoved) hne hout

theorem Kept.settle (h : Kept serde path st) {seq : ℕ} (hpath : path seq = cancellables st.stack)
    (hoff : .cancellable seq ∉ st.stack) (taken : Option Json) (unconsumed : Bool)
    (openMembers : ScopeMembers → ScopeMembers) (horizon : ℕ) :
    Kept serde path (st.settleCancel serde seq taken unconsumed openMembers horizon).2 := by
  unfold settleCancel
  dsimp only
  split
  case h_1 =>
    split
    case h_1 => exact h.finish hoff
    case h_2 => split <;> exact h.finish hoff
  case h_2 =>
    split
    case isTrue => exact h.finish hoff
    case isFalse => exact h.recordCancel hpath hoff openMembers horizon

/-! ## Whole cycles -/

theorem Kept.enter (h : Kept serde path st) {seq : ℕ} (hrunning : (st.scopes seq).phase = .running)
    (hpath : path seq = cancellables st.stack) :
    Kept serde path { st with stack := .cancellable seq :: st.stack } := by
  refine ⟨⟨.cancellable hpath h.nested, fun other hon => ?_, h.lines, h.unheld, h.ordered, h.below,
    h.versions⟩, h.complete⟩
  rcases List.mem_cons.mp hon with heq | hon
  · cases heq
    exact hrunning
  · exact h.running other hon

theorem Kept.step (h : Kept serde path st) {act : Act} (hallowed : Allowed path st act) :
    Kept serde path (st.step serde act) := by
  cases act with
  | start seq found deprecated => exact h.start seq found deprecated
  | enter frame =>
    cases frame with
    | cancellable seq => exact h.enter hallowed.1 hallowed.2
    | shield =>
      refine ⟨⟨.shield h.nested, fun other hon => ?_, h.lines, h.unheld, h.ordered, h.below,
        h.versions⟩, h.complete⟩
      exact h.running other (List.mem_of_ne_of_mem (by simp) hon)
  | leave =>
    exact ⟨⟨h.nested.tail, fun other hon => h.running other (List.mem_of_mem_tail hon), h.lines,
      h.unheld, h.ordered, h.below, h.versions⟩, h.complete⟩
  | push cmd =>
    cases cmd with
    | recordMarker name details =>
      refine h.push (plain_marker hallowed.1 details) fun hversion => ?_
      rw [hallowed.2] at hversion
      cases hversion
    | recordSideEffect => exact hallowed.elim
    | _ => exact h.push (fun _ => rfl) trivial
  | sideEffect kind name fresh failsOnDrift => exact h.sideEffect kind name fresh failsOnDrift
  | version changeId max => exact h.version changeId max
  | settle seq taken unconsumed openMembers horizon =>
    exact h.settle hallowed.2.1 hallowed.2.2 taken unconsumed openMembers horizon
  | complete seq => exact h.finish hallowed

/-- The invariant along a cycle: one act keeps it, so every allowed run does. -/
theorem Kept.run (h : Kept serde path st) {acts : List Act}
    (hallowed : AllowedRun serde path st acts) : Kept serde path (st.run serde acts) := by
  induction acts generalizing st with
  | nil => exact h
  | cons act rest ih => exact ih (h.step hallowed.1) hallowed.2

/-- No body is polled and the buffer is empty when a cycle begins. -/
structure Begins (st : Cycle) : Prop where
  stack : st.stack = []
  commands : st.commands = []
  pushed : st.pushed = []

theorem Begins.kept (h : Begins st) : Kept serde path st where
  nested := h.stack ▸ .nil
  running := by simp [h.stack]
  lines := by simp [h.commands]
  unheld := by simp [h.commands]
  ordered := by simp [h.pushed]
  below := by simp [h.pushed]
  versions := by simp [h.pushed]
  complete := by simp [Complete, recordsOf, decisionsIn, h.commands, h.pushed]

end Cycle

end Harvest.Scope
