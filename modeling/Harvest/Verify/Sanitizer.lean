import Harvest.Verify.Summary

/-!
# Sanitizers and the paths of a body

A kill hides a kind from every read that its block strictly dominates, whenever the taint has
arrived. So a read sees what a path carries as long as no sanitizer for it has run anywhere on
that path; a value that is tainted again after it was sorted reads clean.

Proved here:
* `runBody_extends`: what a run keeps of its arguments, and where its kills come from.
* `carried_taint_is_read`: taint that a path carries past no sanitizer is read.
* `retainted_value_reads_clean`: taint that arrives after a sanitizer is hidden by it.
-/

namespace Harvest.Verify

open Harvest.Lib

section Simple

variable (an : Analyzer) (body : Body)

/-- A body of assignments, source calls and sanitizer calls, without aliases. -/
structure Simple : Prop where
  assigns : ∀ block ∈ body.blocks, ∀ dest rvalue, .assign dest rvalue ∈ block.statements →
    dest.projections = [] → rvalue.refOf = none ∧ an.copiedReference dest rvalue = none
  calls : ∀ block ∈ body.blocks, ∀ call target, block.terminator = .call call target →
    call.callee ≠ none ∧ an.isReborrow call = false ∧
      ((∃ kind ambient sentence, an.classify block call = .source kind ambient sentence) ∨
        ∃ clears, an.classify block call = .sanitizer clears)
  drops : ∀ block ∈ body.blocks, ∀ place target, block.terminator ≠ .drop place target

/-- The sanitizer call of a block clears the kind on the place. -/
def ClearedBy (block : BasicBlock) (place : Place) (kind : TaintKind) : Prop :=
  ∃ call target, block.terminator = .call call target ∧
    an.classify block call = .sanitizer kind ∧ (place = call.dest ∨ call.receiver = some place)

/-- A later state of a run: it keeps what is stored, and its new kills are made by sanitizers. -/
structure Extends (s s' : TaintState) : Prop where
  aliases : s'.aliases = []
  stores : ∀ place kind, s.Stores place kind → s'.Stores place kind
  kills : ∀ kill ∈ s'.kills, kill ∈ s.kills ∨
    ∃ block ∈ body.blocks, block.label = kill.block ∧ ClearedBy an block kill.place kill.kind

/-- A transfer of the run, from a state without aliases. -/
def Keeps (s s' : TaintState) : Prop := s.aliases = [] → Extends an body s s'

variable {an body}

theorem Keeps.refl (s : TaintState) : Keeps an body s s :=
  fun h => ⟨h, fun _ _ hs => hs, fun _ hk => .inl hk⟩

theorem Keeps.trans {s s' s'' : TaintState} (h : Keeps an body s s') (h' : Keeps an body s' s'') :
    Keeps an body s s'' := fun hs => by
  have h := h hs
  have h' := h' h.aliases
  refine ⟨h'.aliases, fun p k hp => h'.stores p k (h.stores p k hp), fun kill hkill => ?_⟩
  rcases h'.kills kill hkill with hkill | hmade
  · exact h.kills kill hkill
  · exact .inr hmade

theorem keeps_add (s : TaintState) (place : Place) (set : TaintSet) :
    Keeps an body s (s.add place set).1 := fun hs =>
  ⟨by rw [TaintState.add_aliases, hs], fun _ _ hp => TaintState.add_keeps hs hp place set,
    fun kill hkill => .inl (by rwa [TaintState.add_kills] at hkill)⟩

theorem keeps_addAll (s : TaintState) (places : List Place) (set : TaintSet) :
    Keeps an body s (addAll s places set).1 :=
  runEach_rel Keeps.refl Keeps.trans (fun s place _ => keeps_add s place set) s

theorem keeps_kill {block : BasicBlock} (hblock : block ∈ body.blocks) {place : Place}
    {kind : TaintKind} (hclears : ClearedBy an block place kind) (s : TaintState) :
    Keeps an body s (s.kill place kind block.label) := fun hs => by
  refine ⟨by rw [TaintState.kill_aliases, hs], fun p k hp => ?_, fun kill hkill => ?_⟩
  · obtain ⟨set, hmem, hhas⟩ := hp
    exact ⟨set, by rwa [TaintState.kill_places], hhas⟩
  · rcases TaintState.mem_kill hs hkill with hkill | rfl
    · exact .inl hkill
    · exact .inr ⟨block, hblock, rfl, hclears⟩

/-! ## The transfers of a simple body -/

section Transfers

variable (hsimple : Simple an body) {block : BasicBlock} (hblock : block ∈ body.blocks)
include hsimple hblock

theorem assignAlias_eq {dest : Place} {rvalue : Rvalue} (hmem : .assign dest rvalue ∈ block.statements)
    (s : TaintState) : assignAlias an s dest rvalue = s := by
  unfold assignAlias
  split_ifs with hroot
  · obtain ⟨href, hcopied⟩ := hsimple.assigns block hblock dest rvalue hmem hroot
    rw [href, hcopied]
    rfl
  · rfl

theorem runStatement_eq {dest : Place} {rvalue : Rvalue}
    (hmem : .assign dest rvalue ∈ block.statements) (s : TaintState) :
    runStatement an body block s (.assign dest rvalue) =
      s.add dest (rvalueTaint an body block s rvalue) := by
  simp only [runStatement, assignAlias_eq hsimple hblock hmem]

theorem runTerminator_source {call : Call} {target : Option String} {kind : TaintKind}
    {ambient : Bool} {sentence : String} (hterm : block.terminator = .call call target)
    (hclass : an.classify block call = .source kind ambient sentence) (s : TaintState) :
    runTerminator an body block s = transferSource an body block call kind ambient sentence
      (call.args.map fun operand => readOperand body block s operand false) s := by
  obtain ⟨hcallee, hreborrow, -⟩ := hsimple.calls block hblock call target hterm
  obtain ⟨callee, hcallee⟩ := Option.ne_none_iff_exists'.mp hcallee
  simp [runTerminator, hterm, transferCall, hcallee, hreborrow, hclass]

theorem runTerminator_sanitizer {call : Call} {target : Option String} {clears : TaintKind}
    (hterm : block.terminator = .call call target)
    (hclass : an.classify block call = .sanitizer clears) (s : TaintState) :
    runTerminator an body block s = transferSanitizer block call clears
      (call.args.map fun operand => readOperand body block s operand false) s := by
  obtain ⟨hcallee, hreborrow, -⟩ := hsimple.calls block hblock call target hterm
  obtain ⟨callee, hcallee⟩ := Option.ne_none_iff_exists'.mp hcallee
  simp [runTerminator, hterm, transferCall, hcallee, hreborrow, hclass]

omit hsimple in
theorem keeps_sanitizer {call : Call} {target : Option String} {clears : TaintKind}
    (hterm : block.terminator = .call call target)
    (hclass : an.classify block call = .sanitizer clears) (argTaints : List TaintSet)
    (s : TaintState) :
    Keeps an body s (transferSanitizer block call clears argTaints s).1 := by
  have hdest : ClearedBy an block call.dest clears := ⟨call, target, hterm, hclass, .inl rfl⟩
  unfold transferSanitizer
  dsimp only
  refine Keeps.trans ?_ (keeps_add _ _ _)
  refine Keeps.trans ?_ (keeps_kill hblock hdest _)
  cases hreceiver : call.receiver with
  | none => exact Keeps.refl s
  | some receiver => exact keeps_kill hblock ⟨call, target, hterm, hclass, .inr hreceiver⟩ s

theorem keeps_block (s : TaintState) : Keeps an body s (runBlock an body block s).1 := by
  have hstatements : Keeps an body s (runEach (runStatement an body block) s block.statements).1 := by
    refine runEach_rel Keeps.refl Keeps.trans (fun s statement hmem => ?_) s
    cases statement with
    | other => exact Keeps.refl s
    | assign dest rvalue =>
      rw [runStatement_eq hsimple hblock hmem]
      exact keeps_add _ _ _
  refine hstatements.trans ?_
  show Keeps an body _ (runTerminator an body block _).1
  cases hterm : block.terminator with
  | call call target =>
    obtain ⟨-, -, hclass⟩ := hsimple.calls block hblock call target hterm
    rcases hclass with ⟨kind, ambient, sentence, hclass⟩ | ⟨clears, hclass⟩
    · rw [runTerminator_source hsimple hblock hterm hclass]
      exact keeps_addAll _ _ _
    · rw [runTerminator_sanitizer hsimple hblock hterm hclass]
      exact keeps_sanitizer hblock hterm hclass _ _
  | drop place target => exact absurd hterm (hsimple.drops block hblock place target)
  | _ =>
    simp only [runTerminator, hterm]
    exact Keeps.refl _

end Transfers

/-! ## Whole runs -/

theorem keeps_implicitFlow (s : TaintState) : Keeps an body s (implicitFlow body s).1 :=
  runEach_rel Keeps.refl Keeps.trans (fun s _ _ => keeps_addAll s _ _) s

theorem keeps_rounds (hsimple : Simple an body) (rounds : Nat) :
    ∀ s : TaintState, Keeps an body s (runRounds an body rounds s).1 := by
  induction rounds with
  | zero => exact Keeps.refl
  | succ rounds ih =>
    intro s
    have hround : Keeps an body s (runBlocks an body s).1 :=
      runEach_rel Keeps.refl Keeps.trans (fun s block hblock => keeps_block hsimple hblock s) s
    unfold runRounds
    cases hchanged : (runBlocks an body s).2 with
    | true =>
      simp only [hchanged, if_true]
      exact hround.trans (ih _)
    | false =>
      simp only [hchanged, Bool.false_eq_true, if_false]
      exact hround

theorem keeps_passes (hsimple : Simple an body) (passes : Nat) :
    ∀ (s : TaintState) (exhausted : Bool),
      Keeps an body s (runPasses an body passes s exhausted).1 := by
  induction passes with
  | zero => exact fun s _ => Keeps.refl s
  | succ passes ih =>
    intro s exhausted
    have hpass := (keeps_rounds hsimple maxRounds s).trans (keeps_implicitFlow _)
    unfold runPasses
    dsimp only
    split_ifs
    · exact hpass.trans (ih _ _)
    · exact hpass

theorem keeps_foldl_add (seeds : List (Nat × TaintSet)) : ∀ s : TaintState,
    Keeps an body s (seeds.foldl (fun state (param, set) => (state.add ⟨param, []⟩ set).1) s) := by
  induction seeds with
  | nil => exact Keeps.refl
  | cons seed seeds ih =>
    intro s
    exact (keeps_add s _ _).trans (ih _)

theorem foldl_add_keeps {seeds : List (Nat × TaintSet)} {place : Place} {kind : TaintKind} :
    ∀ {s : TaintState}, s.aliases = [] → s.Stores place kind →
      (seeds.foldl (fun state (param, set) => (state.add ⟨param, []⟩ set).1) s).Stores place kind := by
  induction seeds with
  | nil => exact fun _ hstores => hstores
  | cons seed seeds ih =>
    intro s hs hstores
    exact ih (by rw [TaintState.add_aliases, hs]) (TaintState.add_keeps hs hstores _ _)

/-- The arguments are stored from the start. -/
theorem foldl_add_stores {seeds : List (Nat × TaintSet)} {param : Nat} {set : TaintSet}
    {kind : TaintKind} (hmem : (param, set) ∈ seeds) (hhas : set.has kind = true) :
    ∀ {s : TaintState}, s.aliases = [] →
      (seeds.foldl (fun state (param, set) => (state.add ⟨param, []⟩ set).1) s).Stores
        ⟨param, []⟩ kind := by
  induction seeds with
  | nil => cases hmem
  | cons seed seeds ih =>
    intro s hs
    have hadded : (s.add ⟨seed.1, []⟩ seed.2).1.aliases = [] := by rw [TaintState.add_aliases, hs]
    rw [List.foldl_cons]
    rcases List.mem_cons.mp hmem with rfl | hmem
    · exact foldl_add_keeps hadded (TaintState.add_stores hs _ hhas)
    · exact ih hmem hadded

variable (an body) in
/-- What a run of the body has kept at its end. -/
structure Ended (args : List TaintSet) (s : TaintState) : Prop where
  aliases : s.aliases = []
  seeds : ∀ param set, (param, set) ∈ body.params.zip args → ∀ kind, set.has kind = true →
    s.Stores ⟨param, []⟩ kind
  kills : ∀ kill ∈ s.kills,
    ∃ block ∈ body.blocks, block.label = kill.block ∧ ClearedBy an block kill.place kill.kind

theorem ended_passes (hsimple : Simple an body) (args : List TaintSet) {kills : List Kill}
    (hkills : ∀ kill ∈ kills,
      ∃ block ∈ body.blocks, block.label = kill.block ∧ ClearedBy an block kill.place kill.kind)
    (passes : Nat) (exhausted : Bool) :
    Ended an body args (runPasses an body passes (seedState body args kills) exhausted).1 := by
  have hseed : Extends an body { kills } (seedState body args kills) := keeps_foldl_add _ _ rfl
  have hrun := keeps_passes hsimple passes (seedState body args kills) exhausted hseed.aliases
  refine ⟨hrun.aliases, fun param set hmem kind hhas => ?_, fun kill hkill => ?_⟩
  · exact hrun.stores _ _ (foldl_add_stores hmem hhas rfl)
  · rcases hrun.kills kill hkill with hkill | hmade
    · rcases hseed.kills kill hkill with hkill | hmade
      · exact hkills kill hkill
      · exact hmade
    · exact hmade

theorem ended_attempts (hsimple : Simple an body) (args : List TaintSet) (attempts : Nat) :
    ∀ {s : TaintState} {kills : List Kill} (exhausted : Bool),
      (∀ kill ∈ kills, ∃ block ∈ body.blocks, block.label = kill.block ∧
        ClearedBy an block kill.place kill.kind) →
      (attempts = 0 → Ended an body args s) →
      Ended an body args (runAttempts an body args attempts s kills exhausted).1 := by
  induction attempts with
  | zero => exact fun _ _ hs => hs rfl
  | succ attempts ih =>
    intro s kills exhausted hkills _
    have hended := ended_passes hsimple args hkills maxImplicitPasses exhausted
    unfold runAttempts
    dsimp only
    split_ifs
    · exact hended
    · exact ih _ hended.kills fun _ => hended

theorem ended_runBody (hsimple : Simple an body) (args : List TaintSet) :
    Ended an body args (runBody an body args).1 :=
  ended_attempts hsimple args 3 false (by simp) (by simp)

/-! ## A closed state -/

variable (an body) in
/-- The fixpoint has converged: the transfer of no block adds a fact. -/
def Closed (s : TaintState) : Prop := ∀ block ∈ body.blocks, (runBlock an body block s).2 = false

instance (s : TaintState) : Decidable (Closed an body s) :=
  inferInstanceAs (Decidable (∀ block ∈ body.blocks, (runBlock an body block s).2 = false))

section Closed

variable (hsimple : Simple an body) {s : TaintState} (hs : s.aliases = []) (hclosed : Closed an body s)
  {block : BasicBlock} (hblock : block ∈ body.blocks)
include hsimple hs hclosed hblock

omit hs in
/-- Nothing changes before the terminator runs, and the terminator adds nothing. -/
theorem closed_block :
    (∀ statement ∈ block.statements, (runStatement an body block s statement).2 = false) ∧
      (runTerminator an body block s).2 = false := by
  have hrun := hclosed block hblock
  unfold runBlock at hrun
  dsimp only at hrun
  rw [Bool.or_eq_false_iff] at hrun
  obtain ⟨hsame, hall⟩ := runEach_unchanged (fun statement hmem hnew => by
    cases statement with
    | other => rfl
    | assign dest rvalue =>
      rw [runStatement_eq hsimple hblock hmem] at hnew ⊢
      exact TaintState.add_unchanged hnew) hrun.1
  rw [hsame] at hrun
  exact ⟨hall, hrun.2⟩

/-- What an assignment writes is stored. -/
theorem closed_assign {dest : Place} {rvalue : Rvalue} {kind : TaintKind}
    (hmem : .assign dest rvalue ∈ block.statements)
    (hhas : (rvalueTaint an body block s rvalue).has kind = true) : s.Stores dest kind := by
  have hnew := (closed_block hsimple hclosed hblock).1 _ hmem
  rw [runStatement_eq hsimple hblock hmem] at hnew
  have hstores := TaintState.add_stores hs dest hhas
  rwa [TaintState.add_unchanged hnew] at hstores

/-- What a source call writes is stored. -/
theorem closed_source {call : Call} {target : Option String} {kind k : TaintKind} {ambient : Bool}
    {sentence : String} (hterm : block.terminator = .call call target)
    (hclass : an.classify block call = .source kind ambient sentence) {place : Place}
    (hplace : place ∈ call.dest :: call.args.filterMap (writeBackTarget an))
    (hhas : (sourceTaint an body block call kind ambient sentence
      (call.args.map fun operand => readOperand body block s operand false)).has k = true) :
    s.Stores place k := by
  have hnew := (closed_block hsimple hclosed hblock).2
  rw [runTerminator_source hsimple hblock hterm hclass] at hnew
  obtain ⟨-, hall⟩ := runEach_unchanged (fun place _ hnew => TaintState.add_unchanged hnew) hnew
  have hstores := TaintState.add_stores hs place hhas
  rwa [TaintState.add_unchanged (hall place hplace)] at hstores

/-- What a sanitizer call lets through is stored. -/
theorem closed_sanitizer {call : Call} {target : Option String} {clears k : TaintKind}
    (hterm : block.terminator = .call call target)
    (hclass : an.classify block call = .sanitizer clears)
    (hhas : ((TaintSet.unionOf (call.args.map fun operand =>
      readOperand body block s operand false)).without [clears]).has k = true) :
    s.Stores call.dest k := by
  have hnew := (closed_block hsimple hclosed hblock).2
  rw [runTerminator_sanitizer hsimple hblock hterm hclass] at hnew
  -- the kills change no place
  have hkilled : ∃ killed : TaintState, killed.aliases = [] ∧ killed.places = s.places ∧
      transferSanitizer block call clears
        (call.args.map fun operand => readOperand body block s operand false) s =
          killed.add call.dest ((TaintSet.unionOf (call.args.map fun operand =>
            readOperand body block s operand false)).without [clears]) := by
    refine ⟨_, ?_, ?_, rfl⟩
    · cases call.receiver <;> simp [hs]
    · cases call.receiver <;> simp
  obtain ⟨killed, haliases, hplaces, heq⟩ := hkilled
  rw [heq] at hnew
  have hstores := TaintState.add_stores haliases call.dest hhas
  rw [TaintState.add_unchanged hnew] at hstores
  obtain ⟨set, hmem, hset⟩ := hstores
  exact ⟨set, hplaces ▸ hmem, hset⟩

end Closed

/-! ## What a path carries -/

/-- What happens to the places on a path. -/
inductive Event where
  | seed (param : Nat) (set : TaintSet)
  | assign (dest : Place) (rvalue : Rvalue)
  | call (block : BasicBlock) (call : Call)

/-- The events of a block, in order. -/
def blockEvents (block : BasicBlock) : List Event :=
  (block.statements.filterMap fun
    | .assign dest rvalue => some (.assign dest rvalue)
    | .other _ => none) ++
  match block.terminator with
  | .call call _ => [.call block call]
  | _ => []

variable (an body) in
/-- The blocks of a path have run, one after the other. The newest event stands first. -/
inductive Ran (args : List TaintSet) : List Nat → List Event → Prop
  | start : Ran args [] ((body.params.zip args).map fun seed => .seed seed.1 seed.2)
  | step {path : List Nat} {events : List Event} {v : Nat} {block : BasicBlock}
      (hran : Ran args path events) (hpath : body.PathTo path v)
      (hblock : body.blocks[v]? = some block) :
      Ran args (path ++ [v]) ((blockEvents block).reverse ++ events)

variable (an) in
/-- A sanitizer call that removes the kind from the place or from a place it is part of. -/
def Event.Clears (place : Place) (kind : TaintKind) : Event → Prop
  | .call block c => an.classify block c = .sanitizer kind ∧
      (c.dest.covers place = true ∨ ∃ receiver, c.receiver = some receiver ∧
        receiver.covers place = true)
  | _ => False

/-- Which sanitizers stop the taint of a place: those after it arrived, or all on the path. -/
inductive Window where
  | later
  | whole

def Window.events (newer older : List Event) : Window → List Event
  | .later => newer
  | .whole => newer ++ older

/-- What a path says: the place got the kind with the newest event, or a read sees it now. -/
inductive Taints where
  | gets (place : Place)
  | reads (place : Place) (discriminantOnly : Bool)

variable (an) in
/-- How a kind travels along a path. -/
inductive Carries (window : Window) : List Event → Taints → TaintKind → Prop
  | seed {param : Nat} {set : TaintSet} {kind : TaintKind} {older : List Event}
      (hhas : set.has kind = true) : Carries window (.seed param set :: older) (.gets ⟨param, []⟩) kind
  | constant {dest : Place} {rvalue : Rvalue} {kind : TaintKind} {older : List Event}
      (hhas : (an.staticTaint rvalue).has kind = true ∨ (an.constTaint rvalue).has kind = true) :
      Carries window (.assign dest rvalue :: older) (.gets dest) kind
  | assign {dest : Place} {rvalue : Rvalue} {kind : TaintKind} {older : List Event}
      {operand : Operand} {place : Place} (hmem : operand ∈ rvalue.reads)
      (hplace : operand.place = some place)
      (hreads : Carries window older
        (.reads place (rvalue.discriminantOf.any fun p => some p = operand.place)) kind) :
      Carries window (.assign dest rvalue :: older) (.gets dest) kind
  | source {block : BasicBlock} {call : Call} {kind : TaintKind} {sentence : String} {target : Place}
      {older : List Event} (hclass : an.classify block call = .source kind false sentence)
      (htarget : target ∈ call.dest :: call.args.filterMap (writeBackTarget an)) :
      Carries window (.call block call :: older) (.gets target) kind
  | ambient {block : BasicBlock} {call : Call} {kind k : TaintKind} {sentence : String}
      {receiver target : Place} {older : List Event}
      (hclass : an.classify block call = .source kind true sentence)
      (hreceiver : call.receiver = some receiver)
      (hreads : Carries window older (.reads receiver false) k)
      (htarget : target ∈ call.dest :: call.args.filterMap (writeBackTarget an)) :
      Carries window (.call block call :: older) (.gets target) kind
  | passed {block : BasicBlock} {call : Call} {kind k : TaintKind} {ambient : Bool}
      {sentence : String} {operand : Operand} {place target : Place} {older : List Event}
      (hclass : an.classify block call = .source kind ambient sentence)
      (hmem : operand ∈ call.args) (hplace : operand.place = some place)
      (hreads : Carries window older (.reads place false) k)
      (htarget : target ∈ call.dest :: call.args.filterMap (writeBackTarget an)) :
      Carries window (.call block call :: older) (.gets target) k
  | sanitized {block : BasicBlock} {call : Call} {clears k : TaintKind} {operand : Operand}
      {place : Place} {older : List Event} (hclass : an.classify block call = .sanitizer clears)
      (hmem : operand ∈ call.args) (hplace : operand.place = some place)
      (hreads : Carries window older (.reads place false) k) (hother : k ≠ clears) :
      Carries window (.call block call :: older) (.gets call.dest) k
  | reads {held place : Place} {discriminantOnly : Bool} {kind : TaintKind}
      {newer older : List Event} (hgets : Carries window older (.gets held) kind)
      (hseen : held.seenBy place discriminantOnly = true)
      (hclean : ∀ event ∈ window.events newer older, ¬ event.Clears an place kind) :
      Carries window (newer ++ older) (.reads place discriminantOnly) kind

/-! ## Carried taint is read -/

section Carried

variable {args : List TaintSet} {path : List Nat} {full : List Event}

/-- Where an event of a path comes from: an argument, or a block behind a completed prefix. -/
theorem Ran.split (h : Ran body args path full) {event : Event} {older : List Event}
    (hsuffix : event :: older <:+ full) :
    (∃ param set, event = .seed param set ∧ (param, set) ∈ body.params.zip args) ∨
      ∃ front v block events, Ran body args front events ∧ body.PathTo front v ∧
        body.blocks[v]? = some block ∧ event ∈ blockEvents block ∧ events <:+ older := by
  induction h with
  | start =>
    obtain ⟨⟨param, set⟩, hmem, rfl⟩ := List.mem_map.mp (hsuffix.subset List.mem_cons_self)
    exact .inl ⟨param, set, rfl, hmem⟩
  | @step path events v block hran hpath hblock ih =>
    rcases List.suffix_or_suffix_of_suffix hsuffix (List.suffix_append _ events) with hin | hin
    · exact ih hin
    · rcases List.suffix_cons_iff.mp hin with heq | hbehind
      · exact ih (heq ▸ List.suffix_refl _)
      · right
        refine ⟨path, v, block, events, hran, hpath, hblock, ?_, hbehind⟩
        obtain ⟨rest, rfl⟩ := hbehind
        obtain ⟨front, hfront⟩ := hsuffix
        have hboth : (front ++ event :: rest) ++ events = (blockEvents block).reverse ++ events := by
          rw [← hfront]
          simp
        have hsame := List.append_cancel_right hboth
        rw [← List.mem_reverse, ← hsame]
        exact List.mem_append_right _ List.mem_cons_self

/-- The events of every block of a path have happened. -/
theorem Ran.mem (h : Ran body args path full) {v : Nat} (hv : v ∈ path) {block : BasicBlock}
    (hblock : body.blocks[v]? = some block) : ∀ event ∈ blockEvents block, event ∈ full := by
  induction h with
  | start => cases hv
  | @step path events w other hran hpath hother ih =>
    intro event hevent
    rcases List.mem_append.mp hv with hv | hv
    · exact List.mem_append_right _ (ih hv event hevent)
    · rw [List.mem_singleton.mp hv, hother, Option.some.injEq] at hblock
      exact List.mem_append_left _ (List.mem_reverse.mpr (hblock ▸ hevent))

variable {s : TaintState}

/-- A kill that counts in a block has happened on every path to it. -/
theorem not_killed (hended : Ended an body args s) {front : List Nat} {events older : List Event}
    {v : Nat} (hran : Ran body args front events) (hpath : body.PathTo front v)
    (holder : events <:+ older) {place : Place} {kind : TaintKind}
    (hclean : ∀ event ∈ older, ¬ event.Clears an place kind) :
    kind ∉ s.killedKindsAt body place v := by
  intro hkilled
  obtain ⟨kill, hkill, rfl, hcovers, killAt, hat, hne, hdom⟩ := TaintState.mem_killedKindsAt.mp hkilled
  have hvisited := Body.strictly_dominated_visited hpath hdom hne
  obtain ⟨block, hblock, hlabel, call, target, hterm, hclass, hplace⟩ := hended.kills kill hkill
  obtain ⟨at_, hget⟩ := List.getElem?_of_mem hblock
  have hsame : killAt = at_ := by
    have hown := Body.indexOf_label hget
    rw [hlabel, hat] at hown
    exact Option.some.inj hown
  have hevent : Event.call block call ∈ blockEvents block := by simp [blockEvents, hterm]
  refine hclean _ (holder.subset (hran.mem hvisited (hsame ▸ hget) _ hevent)) ⟨hclass, ?_⟩
  rcases hplace with heq | hreceiver
  · exact .inl (heq ▸ hcovers)
  · exact .inr ⟨_, hreceiver, hcovers⟩

/-- A read in a block behind a path that has cleared nothing of it. -/
theorem read_of_stored (hended : Ended an body args s) {front : List Nat}
    {events older : List Event} {v : Nat} {block : BasicBlock}
    (hran : Ran body args front events) (hpath : body.PathTo front v)
    (hblock : body.blocks[v]? = some block) (holder : events <:+ older) {held place : Place}
    {kind : TaintKind} {discriminantOnly : Bool} (hstores : s.Stores held kind)
    (hseen : held.seenBy place discriminantOnly = true)
    (hclean : ∀ event ∈ older, ¬ event.Clears an place kind) :
    (s.readAt body place discriminantOnly block.label).has kind = true := by
  rw [TaintState.has_readAt hended.aliases (Body.indexOf_label hblock),
    TaintState.has_read hended.aliases]
  exact ⟨⟨held, hseen, hstores⟩, not_killed hended hran hpath holder hclean⟩

/-- What the state knows of what a path carries. -/
def Known (s : TaintState) (an : Analyzer) (events : List Event) (kind : TaintKind) : Taints → Prop
  | .gets place => s.Stores place kind
  | .reads place discriminantOnly =>
    (∃ held, held.seenBy place discriminantOnly = true ∧ s.Stores held kind) ∧
      ∀ event ∈ events, ¬ event.Clears an place kind

theorem has_rvalueTaint {block : BasicBlock} {rvalue : Rvalue} {kind : TaintKind}
    (h : (an.staticTaint rvalue).has kind = true ∨ (an.constTaint rvalue).has kind = true ∨
      ∃ operand ∈ rvalue.reads, (readOperand body block s operand
        (rvalue.discriminantOf.any fun p => some p = operand.place)).has kind = true) :
    (rvalueTaint an body block s rvalue).has kind = true := by
  unfold rvalueTaint
  dsimp only
  rw [TaintSet.has_absorb, TaintSet.has_absorb, TaintSet.has_unionOf]
  rcases h with h | h | ⟨operand, hmem, hhas⟩
  · exact .inl (.inr h)
  · exact .inr h
  · exact .inl (.inl ⟨_, List.mem_map.mpr ⟨operand, hmem, rfl⟩, hhas⟩)

/-- A source call writes what its arguments hold. -/
theorem has_sourceTaint_passed {block : BasicBlock} {call : Call} {kind k : TaintKind}
    {ambient : Bool} {sentence : String} {argTaints : List TaintSet}
    (h : ∃ set ∈ argTaints, TaintSet.has set k = true) :
    (sourceTaint an body block call kind ambient sentence argTaints).has k = true := by
  have hunion := TaintSet.has_unionOf.mpr h
  unfold sourceTaint
  dsimp only
  split_ifs
  · exact TaintSet.has_insert.mpr (.inl hunion)
  · exact hunion

/-- A source call writes its own kind, when its receiver is not ambient or is tainted. -/
theorem has_sourceTaint_own {block : BasicBlock} {call : Call} {kind : TaintKind}
    {ambient : Bool} {sentence : String} {argTaints : List TaintSet}
    (h : ambient = false ∨ ∃ set k, argTaints.head? = some set ∧ TaintSet.has set k = true) :
    (sourceTaint an body block call kind ambient sentence argTaints).has kind = true := by
  unfold sourceTaint
  dsimp only
  rw [if_pos ?_]
  · exact TaintSet.has_insert.mpr (.inr rfl)
  · rcases h with rfl | ⟨set, k, hhead, hhas⟩
    · rfl
    · obtain ⟨fact, hfact, -⟩ := TaintSet.has_iff.mp hhas
      have hne : set.isEmpty = false := by
        rw [List.isEmpty_eq_false_iff]
        exact List.ne_nil_of_mem hfact
      simp [hhead, hne]

theorem mem_blockEvents_assign {block : BasicBlock} {dest : Place} {rvalue : Rvalue}
    (h : Event.assign dest rvalue ∈ blockEvents block) : .assign dest rvalue ∈ block.statements := by
  unfold blockEvents at h
  rcases List.mem_append.mp h with h | h
  · obtain ⟨statement, hmem, heq⟩ := List.mem_filterMap.mp h
    cases statement <;> simp_all
  · cases hterm : block.terminator <;> simp [hterm] at h

theorem mem_blockEvents_call {block owner : BasicBlock} {call : Call}
    (h : Event.call owner call ∈ blockEvents block) :
    owner = block ∧ ∃ target, block.terminator = .call call target := by
  unfold blockEvents at h
  rcases List.mem_append.mp h with h | h
  · obtain ⟨statement, hmem, heq⟩ := List.mem_filterMap.mp h
    cases statement <;> simp at heq
  · cases hterm : block.terminator <;> simp_all

theorem Ran.seed_at (h : Ran body args path full) {param : Nat} {set : TaintSet}
    {older : List Event} (hsuffix : .seed param set :: older <:+ full) :
    (param, set) ∈ body.params.zip args := by
  rcases h.split hsuffix with ⟨param', set', heq, hmem⟩ | ⟨_, _, block, _, _, _, _, hevent, _⟩
  · cases heq
    exact hmem
  · unfold blockEvents at hevent
    rcases List.mem_append.mp hevent with hevent | hevent
    · obtain ⟨statement, hmem, heq⟩ := List.mem_filterMap.mp hevent
      cases statement <;> simp at heq
    · cases hterm : block.terminator <;> simp [hterm] at hevent

theorem Ran.assign_at (h : Ran body args path full) {dest : Place} {rvalue : Rvalue}
    {older : List Event} (hsuffix : .assign dest rvalue :: older <:+ full) :
    ∃ front v block events, Ran body args front events ∧ body.PathTo front v ∧
      body.blocks[v]? = some block ∧ .assign dest rvalue ∈ block.statements ∧ events <:+ older := by
  rcases h.split hsuffix with ⟨_, _, heq, _⟩ | ⟨front, v, block, events, hran, hpath, hblock, hevent, hold⟩
  · cases heq
  · exact ⟨front, v, block, events, hran, hpath, hblock, mem_blockEvents_assign hevent, hold⟩

theorem Ran.call_at (h : Ran body args path full) {block : BasicBlock} {call : Call}
    {older : List Event} (hsuffix : .call block call :: older <:+ full) :
    ∃ front v events target, Ran body args front events ∧ body.PathTo front v ∧
      body.blocks[v]? = some block ∧ block.terminator = .call call target ∧ events <:+ older := by
  rcases h.split hsuffix with ⟨_, _, heq, _⟩ | ⟨front, v, owner, events, hran, hpath, hblock, hevent, hold⟩
  · cases heq
  · obtain ⟨rfl, target, hterm⟩ := mem_blockEvents_call hevent
    exact ⟨front, v, events, target, hran, hpath, hblock, hterm, hold⟩

/-- An operand that the path carries a kind to, read in the block where the path stands. -/
theorem readOperand_known (hended : Ended an body args s) {front : List Nat}
    {events older : List Event} {v : Nat} {block : BasicBlock}
    (hran : Ran body args front events) (hpath : body.PathTo front v)
    (hblock : body.blocks[v]? = some block) (holder : events <:+ older) {operand : Operand}
    {place : Place} {kind : TaintKind} {discriminantOnly : Bool}
    (hplace : operand.place = some place)
    (hknown : Known s an older kind (.reads place discriminantOnly)) :
    (readOperand body block s operand discriminantOnly).has kind = true := by
  obtain ⟨⟨held, hseen, hstores⟩, hclean⟩ := hknown
  simp only [readOperand, hplace]
  exact read_of_stored hended hran hpath hblock holder hstores hseen hclean

/-- **What a path carries past no sanitizer, the closed state knows.** -/
theorem carries_known (hsimple : Simple an body) (hended : Ended an body args s)
    (hclosed : Closed an body s) {events : List Event} {taints : Taints} {kind : TaintKind}
    (h : Carries an .whole events taints kind) :
    ∀ {path : List Nat} {full : List Event}, Ran body args path full → events <:+ full →
      Known s an events kind taints := by
  have hs := hended.aliases
  induction h with
  | seed hhas =>
    intro path full hran hsuffix
    exact hended.seeds _ _ (hran.seed_at hsuffix) _ hhas
  | constant hhas =>
    intro path full hran hsuffix
    obtain ⟨_, _, block, _, _, _, hblock, hstatement, _⟩ := hran.assign_at hsuffix
    refine closed_assign hsimple hs hclosed (List.mem_of_getElem? hblock) hstatement
      (has_rvalueTaint ?_)
    rcases hhas with hhas | hhas
    · exact .inl hhas
    · exact .inr (.inl hhas)
  | @assign dest rvalue kind older operand place hmem hplace hreads ih =>
    intro path full hran hsuffix
    have hknown := ih hran ((List.suffix_cons _ _).trans hsuffix)
    obtain ⟨front, v, block, events, hfront, hpath, hblock, hstatement, hold⟩ := hran.assign_at hsuffix
    refine closed_assign hsimple hs hclosed (List.mem_of_getElem? hblock) hstatement
      (has_rvalueTaint (.inr (.inr ⟨operand, hmem, ?_⟩)))
    exact readOperand_known hended hfront hpath hblock hold hplace hknown
  | source hclass htarget =>
    intro path full hran hsuffix
    obtain ⟨_, _, _, target, _, _, hblock, hterm, _⟩ := hran.call_at hsuffix
    exact closed_source hsimple hs hclosed (List.mem_of_getElem? hblock) hterm hclass htarget
      (has_sourceTaint_own (.inl rfl))
  | @ambient block call kind k sentence receiver target older hclass hreceiver hreads htarget ih =>
    intro path full hran hsuffix
    have hknown := ih hran ((List.suffix_cons _ _).trans hsuffix)
    obtain ⟨front, v, events, _, hfront, hpath, hblock, hterm, hold⟩ := hran.call_at hsuffix
    refine closed_source hsimple hs hclosed (List.mem_of_getElem? hblock) hterm hclass htarget
      (has_sourceTaint_own (.inr ?_))
    obtain ⟨operand, hhead, hplace⟩ := Option.bind_eq_some_iff.mp hreceiver
    refine ⟨_, k, ?_, readOperand_known hended hfront hpath hblock hold hplace hknown⟩
    rw [List.head?_map, hhead]
    rfl
  | @passed block call kind k ambient sentence operand place target older hclass hmem hplace hreads
      htarget ih =>
    intro path full hran hsuffix
    have hknown := ih hran ((List.suffix_cons _ _).trans hsuffix)
    obtain ⟨front, v, events, _, hfront, hpath, hblock, hterm, hold⟩ := hran.call_at hsuffix
    refine closed_source hsimple hs hclosed (List.mem_of_getElem? hblock) hterm hclass htarget
      (has_sourceTaint_passed ⟨_, List.mem_map.mpr ⟨operand, hmem, rfl⟩, ?_⟩)
    exact readOperand_known hended hfront hpath hblock hold hplace hknown
  | @sanitized block call clears k operand place older hclass hmem hplace hreads hother ih =>
    intro path full hran hsuffix
    have hknown := ih hran ((List.suffix_cons _ _).trans hsuffix)
    obtain ⟨front, v, events, _, hfront, hpath, hblock, hterm, hold⟩ := hran.call_at hsuffix
    refine closed_sanitizer hsimple hs hclosed (List.mem_of_getElem? hblock) hterm hclass ?_
    rw [TaintSet.has_without, TaintSet.has_unionOf]
    refine ⟨⟨_, List.mem_map.mpr ⟨operand, hmem, rfl⟩, ?_⟩, by simpa using hother⟩
    exact readOperand_known hended hfront hpath hblock hold hplace hknown
  | reads hgets hseen hclean ih =>
    intro path full hran hsuffix
    exact ⟨⟨_, hseen, ih hran ((List.suffix_append _ _).trans hsuffix)⟩, hclean⟩

end Carried

/-- **Carried taint is read.** In a body of assignments, source calls and sanitizer calls whose
fixpoint has converged, a kind that a path carries to a place is read there, unless a sanitizer
that removes it from the place or from a place it came through has run on that path. -/
theorem carried_taint_is_read (hsimple : Simple an body) (args : List TaintSet)
    (hclosed : Closed an body (runBody an body args).1) {path : List Nat} {events : List Event}
    (hran : Ran body args path events) {b : Nat} {block : BasicBlock} (hpath : body.PathTo path b)
    (hblock : body.blocks[b]? = some block) {place : Place} {kind : TaintKind}
    (hcarries : Carries an .whole events (.reads place false) kind) :
    ((runBody an body args).1.readAt body place false block.label).has kind = true := by
  have hended := ended_runBody hsimple args
  obtain ⟨⟨held, hseen, hstores⟩, hclean⟩ :=
    carries_known hsimple hended hclosed hcarries hran (List.suffix_refl _)
  exact read_of_stored hended hran hpath hblock (List.suffix_refl _) hstores hseen hclean

end Simple

/-! ## A value that is tainted again -/

namespace Sorted

/-- The keys of a map come in an order that differs between runs; sorting fixes it. -/
def analyzer : Analyzer where
  hops := []
  staticTaint _ := []
  constTaint _ := []
  copiedReference _ _ := none
  isMutRef _ := false
  isReborrow _ := false
  classify _ call :=
    if call.callee = some "keys" then .source .order false "hash order"
    else if call.callee = some "sort" then .sanitizer .order
    else .quiet
  followCall _ state := (state, false)

/-- The collection, and the result of the sort. -/
def keys : Place := ⟨1, []⟩
def sorted : Place := ⟨2, []⟩

def keysBlock (label target : String) : BasicBlock :=
  { label, statements := [], terminator := .call ⟨keys, some "keys", []⟩ (some target) }

def sortBlock (label target : String) : BasicBlock :=
  { label, statements := [], terminator := .call ⟨sorted, some "sort", [.copy keys]⟩ (some target) }

/-- The keys are collected, sorted on one branch only, and read. -/
def branching : Body where
  path := "workflow"
  params := []
  blocks := [keysBlock "bb0" "bb1",
    { label := "bb1", statements := [], terminator := .switchInt (.copy ⟨3, []⟩) ["bb2", "bb3"] },
    sortBlock "bb2" "bb3", { label := "bb3", statements := [], terminator := .ret }]
  labels := by decide

/-- The keys are collected, sorted, collected again, and read. -/
def collectedTwice : Body where
  path := "workflow"
  params := []
  blocks := [keysBlock "bb0" "bb1", sortBlock "bb1" "bb2", keysBlock "bb2" "bb3",
    { label := "bb3", statements := [], terminator := .ret }]
  labels := by decide

/-- A body whose blocks collect, sort or call nothing. -/
theorem simple_of_blocks {body : Body} (hblocks : ∀ block ∈ body.blocks, block.statements = [] ∧
    ((∃ label target, block = keysBlock label target) ∨
      (∃ label target, block = sortBlock label target) ∨
      (∃ operand targets, block.terminator = .switchInt operand targets) ∨ block.terminator = .ret)) :
    Simple analyzer body := by
  refine ⟨?_, ?_, ?_⟩
  · intro block hblock dest rvalue hmem
    rw [(hblocks block hblock).1] at hmem
    cases hmem
  · intro block hblock call target hterm
    rcases (hblocks block hblock).2 with ⟨l, t, rfl⟩ | ⟨l, t, rfl⟩ | ⟨o, t, hswitch⟩ | hret
    · cases hterm
      exact ⟨by simp, rfl, .inl ⟨.order, false, "hash order", rfl⟩⟩
    · cases hterm
      exact ⟨by simp, rfl, .inr ⟨.order, rfl⟩⟩
    · rw [hswitch] at hterm
      cases hterm
    · rw [hret] at hterm
      cases hterm
  · intro block hblock place target hterm
    rcases (hblocks block hblock).2 with ⟨l, t, rfl⟩ | ⟨l, t, rfl⟩ | ⟨o, t, hswitch⟩ | hret
    · cases hterm
    · cases hterm
    · rw [hswitch] at hterm
      cases hterm
    · rw [hret] at hterm
      cases hterm

theorem branching_simple : Simple analyzer branching := by
  refine simple_of_blocks fun block hblock => ?_
  simp only [branching, List.mem_cons, List.not_mem_nil, or_false] at hblock
  rcases hblock with rfl | rfl | rfl | rfl
  · exact ⟨rfl, .inl ⟨_, _, rfl⟩⟩
  · exact ⟨rfl, .inr (.inr (.inl ⟨_, _, rfl⟩))⟩
  · exact ⟨rfl, .inr (.inl ⟨_, _, rfl⟩)⟩
  · exact ⟨rfl, .inr (.inr (.inr rfl))⟩

theorem collectedTwice_simple : Simple analyzer collectedTwice := by
  refine simple_of_blocks fun block hblock => ?_
  simp only [collectedTwice, List.mem_cons, List.not_mem_nil, or_false] at hblock
  rcases hblock with rfl | rfl | rfl | rfl
  · exact ⟨rfl, .inl ⟨_, _, rfl⟩⟩
  · exact ⟨rfl, .inr (.inl ⟨_, _, rfl⟩)⟩
  · exact ⟨rfl, .inl ⟨_, _, rfl⟩⟩
  · exact ⟨rfl, .inr (.inr (.inr rfl))⟩

theorem branching_path : branching.PathTo [0, 1] 3 :=
  ⟨⟨by decide, by decide, trivial⟩, rfl, by decide, by decide⟩

theorem collectedTwice_path : collectedTwice.PathTo [0, 1, 2] 3 :=
  ⟨⟨by decide, by decide, by decide, trivial⟩, rfl, by decide, by decide⟩

/-- The events of the branch that does not sort. -/
def unsorted : List Event := [.call (keysBlock "bb0" "bb1") ⟨keys, some "keys", []⟩]

theorem branching_ran : Ran branching [] [0, 1] unsorted := by
  have hentry : branching.PathTo [] 0 := ⟨trivial, rfl, by decide, by decide⟩
  have hbranch : branching.PathTo [0] 1 := ⟨⟨by decide, trivial⟩, rfl, by decide, by decide⟩
  exact .step (.step .start hentry rfl) hbranch rfl

/-- The events of the body that collects twice, newest first. -/
def collected : List Event :=
  [.call (keysBlock "bb2" "bb3") ⟨keys, some "keys", []⟩,
    .call (sortBlock "bb1" "bb2") ⟨sorted, some "sort", [.copy keys]⟩,
    .call (keysBlock "bb0" "bb1") ⟨keys, some "keys", []⟩]

theorem collectedTwice_ran : Ran collectedTwice [] [0, 1, 2] collected := by
  have hentry : collectedTwice.PathTo [] 0 := ⟨trivial, rfl, by decide, by decide⟩
  have hsort : collectedTwice.PathTo [0] 1 := ⟨⟨by decide, trivial⟩, rfl, by decide, by decide⟩
  have hagain : collectedTwice.PathTo [0, 1] 2 :=
    ⟨⟨by decide, by decide, trivial⟩, rfl, by decide, by decide⟩
  exact .step (.step (.step .start hentry rfl) hsort rfl) hagain rfl

/-- The keys got their order from the newest event. -/
theorem carries_keys {window : Window} {label target : String} {older : List Event}
    (hclean : ∀ event ∈ window.events [] (.call (keysBlock label target) ⟨keys, some "keys", []⟩ :: older),
      ¬ event.Clears analyzer keys .order) :
    Carries analyzer window (.call (keysBlock label target) ⟨keys, some "keys", []⟩ :: older)
      (.reads keys false) .order :=
  have hgets : Carries analyzer window
      (.call (keysBlock label target) ⟨keys, some "keys", []⟩ :: older) (.gets keys) .order :=
    .source rfl List.mem_cons_self
  @Carries.reads analyzer window keys keys false .order [] _ hgets (by decide) hclean

theorem branching_carries : Carries analyzer .whole unsorted (.reads keys false) .order := by
  refine carries_keys fun event hevent => ?_
  rw [show event = _ from List.mem_singleton.mp hevent]
  rintro ⟨hclass, -⟩
  cases hclass

end Sorted

/-- The branch that does not sort is read as unsorted. -/
theorem carried_taint_is_read_branching :
    ((runBody Sorted.analyzer Sorted.branching []).1.readAt Sorted.branching Sorted.keys false
      "bb3").has .order = true :=
  carried_taint_is_read Sorted.branching_simple [] (by decide +kernel) Sorted.branching_ran
    Sorted.branching_path rfl Sorted.branching_carries

/-- **A value that is tainted again after it was sorted reads clean.** The collection gets its
order in `bb2`, no sanitizer runs after that, and `bb3` reads nothing. -/
theorem retainted_value_reads_clean :
    Simple Sorted.analyzer Sorted.collectedTwice ∧
      Closed Sorted.analyzer Sorted.collectedTwice
        (runBody Sorted.analyzer Sorted.collectedTwice []).1 ∧
      Ran Sorted.collectedTwice [] [0, 1, 2] Sorted.collected ∧
      Sorted.collectedTwice.PathTo [0, 1, 2] 3 ∧
      Carries Sorted.analyzer .later Sorted.collected (.reads Sorted.keys false) .order ∧
      ((runBody Sorted.analyzer Sorted.collectedTwice []).1.readAt Sorted.collectedTwice Sorted.keys
        false "bb3").has .order = false :=
  ⟨Sorted.collectedTwice_simple, by decide +kernel, Sorted.collectedTwice_ran,
    Sorted.collectedTwice_path, Sorted.carries_keys (by simp [Window.events]), by decide +kernel⟩

end Harvest.Verify
