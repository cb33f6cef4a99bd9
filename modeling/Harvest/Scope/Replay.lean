import Harvest.Scope.Keep

/-!
# The replay of a cancelled scope

A cancelled scope replays its body from the records of its marker: each decision that the body asks
for takes the next record, and what is left over at the end is drift.

Proved here:
* `serves_next`: the act that asks for the next record gets its value and reports nothing.
* `serves_run`: a body that asks for the records in order takes all of them.
* `a_scope_cancel_keeps_every_decision`: a cancel captures what was pushed inside its scope, and
  such a replay takes it back.
-/

namespace Harvest.Scope

open Replay (versionMarkerName)

/-- A decision as a replayed body asks for it. -/
inductive Ask
  | sideEffect (kind : SideEffectKind) (name : Option String)
  | version (name : String)
  | marker (name : String) (details : Json)
deriving DecidableEq, Repr

/-- The question that a record answers. -/
def CapturedRecord.ask : CapturedRecord → Ask
  | .sideEffect _ kind name _ => .sideEffect kind name
  | .marker _ name details =>
    if beginsWith name "version:" then .version name else .marker name details

/-- One question of a replayed body: what it got, and what the act reported. -/
structure Served where
  ask : Ask
  answer : Captured
  reported : List String
deriving DecidableEq, Repr

/-- What the body gets for a record that it asked for. -/
def CapturedRecord.served (record : CapturedRecord) : Served := ⟨record.ask, .value record.value, []⟩

/-- A version record holds a version number. -/
def CapturedRecord.NamesVersion : CapturedRecord → Prop
  | .marker _ name details => beginsWith name "version:" = true → ∃ n, details = ofU32 n
  | .sideEffect .. => True

namespace Cycle

/-- A pushed marker asks for itself, a version gate has asked before. -/
def servedMarker (st : Cycle) : WorkflowCommand → Option (Ask × Captured)
  | .recordMarker name details =>
    if beginsWith name "version:" then none
    else
      some (.marker name (comparedDetails name details),
        match (capturedMarkerDrift st.scopes st.stack (.recordMarker name details)).1 with
        | none => .value (comparedDetails name details)
        | some text => .drift text)
  | _ => none

/-- The captured decision that an act asks for, and its answer. -/
def served (serde : MarkerSerde) (st : Cycle) : Act → Option (Ask × Captured)
  | .sideEffect kind name _ _ =>
    some (.sideEffect kind name, (takeCapturedSideEffect st.scopes st.stack kind name).1)
  | .version changeId _ =>
    some (.version (versionMarkerName changeId),
      (takeCapturedMarker st.scopes st.stack (versionMarkerName changeId)).1)
  | .push cmd => st.servedMarker cmd
  | .settle seq none unconsumed openMembers horizon =>
    if (st.scopes seq).holding || unconsumed then none
    else st.servedMarker (.recordMarker (cancelMarkerName seq)
      (serde.encodeMarker (st.cancelMarker serde seq openMembers horizon)))
  | _ => none

/-- The questions that scope `seq` answers along a run. -/
def servedBy (serde : MarkerSerde) (seq : ℕ) (st : Cycle) : List Act → List Served
  | [] => []
  | act :: rest =>
    let after := st.step serde act
    (if replaying st.scopes st.stack = some seq then
      ((st.served serde act).map fun pair =>
        ⟨pair.1, pair.2, after.deferredNd.drop st.deferredNd.length⟩).toList
    else []) ++ servedBy serde seq after rest

/-- The act ends the run of scope `seq`. -/
def Act.Finishes (seq : ℕ) : Act → Prop
  | .settle other .. => other = seq
  | .complete other => other = seq
  | _ => False

/-! ## Taking a record -/

section Take

variable {scopes : ℕ → ScopeInner} {stack : List ScopeFrame} {seq : ℕ}

theorem takeCaptured_other (h : replaying scopes stack ≠ some seq) (asked : String)
    (wanted : CapturedRecord → Option Json) :
    ((takeCaptured scopes stack asked wanted).2 seq).records = (scopes seq).records := by
  unfold takeCaptured
  split
  case h_1 => rfl
  case h_2 holder hholder =>
    have hne : seq ≠ holder := fun heq => h (heq ▸ hholder)
    split
    case h_1 => rfl
    case h_2 =>
      split
      case h_1 => simp [hne]
      case h_2 => rfl

theorem takeCaptured_next (h : replaying scopes stack = some seq) {next : CapturedRecord}
    {rest : List CapturedRecord} (hrecords : (scopes seq).records = next :: rest) {asked : String}
    {wanted : CapturedRecord → Option Json} {value : Json} (hwanted : wanted next = some value) :
    takeCaptured scopes stack asked wanted =
      (.value value, Function.update scopes seq { scopes seq with records := rest }) := by
  unfold takeCaptured
  rw [h]
  dsimp only
  rw [hrecords]
  dsimp only
  rw [hwanted]

theorem capturedMarkerDrift_other (h : replaying scopes stack ≠ some seq) (cmd : WorkflowCommand) :
    ((capturedMarkerDrift scopes stack cmd).2 seq).records = (scopes seq).records := by
  unfold capturedMarkerDrift
  split
  case h_1 name details =>
    split
    case isTrue => rfl
    case isFalse =>
      have htaken := takeCaptured_other h ("MarkerRecorded(" ++ name ++ ")")
        (takesMarker name (comparedDetails name details))
      dsimp only
      split
      case h_1 => exact htaken
      case h_2 => split <;> exact htaken
      case h_3 => exact htaken
  case h_2 => rfl

/-- The next record is the marker that is pushed. -/
theorem capturedMarkerDrift_next (h : replaying scopes stack = some seq) {order : ℕ} {name : String}
    {details : Json} {rest : List CapturedRecord} (hversion : beginsWith name "version:" = false)
    (hrecords : (scopes seq).records = .marker order name (comparedDetails name details) :: rest) :
    capturedMarkerDrift scopes stack (.recordMarker name details) =
      (none, Function.update scopes seq { scopes seq with records := rest }) := by
  have hwanted : takesMarker name (comparedDetails name details)
      (.marker order name (comparedDetails name details)) = some (comparedDetails name details) := by
    simp [takesMarker]
  unfold capturedMarkerDrift
  dsimp only
  rw [hversion, takeCaptured_next h hrecords hwanted]
  simp

end Take

/-! ## Pushing while a scope waits -/

/-- Scope `seq` replays its cancel and still has these records. -/
structure Waits (seq : ℕ) (records : List CapturedRecord) (st : Cycle) : Prop where
  phase : (st.scopes seq).phase = .running
  holding : (st.scopes seq).holding = true
  records : (st.scopes seq).records = records

section Waiting

variable {seq : ℕ} {records rest : List CapturedRecord} {next : CapturedRecord} {st : Cycle}

theorem Waits.of_unmoved (h : Waits seq records st) {st' : Cycle}
    (hmoved : Unmoved st.scopes st'.scopes) {left : List CapturedRecord}
    (hleft : (st'.scopes seq).records = left) : Waits seq left st' :=
  ⟨(hmoved seq).1.trans h.phase, (hmoved seq).2.trans h.holding, hleft⟩

theorem pushCommand_records (st : Cycle) (cmd : WorkflowCommand) (seq : ℕ) :
    ((st.pushCommand cmd).scopes seq).records =
      ((capturedMarkerDrift st.scopes st.stack cmd).2 seq).records := by
  rw [pushCommand_scopes]
  exact (routeCommand_same _ _ _ _).2.2

theorem pushCommand_deferredNd {cmd : WorkflowCommand}
    (h : (capturedMarkerDrift st.scopes st.stack cmd).1 = none) :
    (st.pushCommand cmd).deferredNd = st.deferredNd := by
  unfold pushCommand buffer
  dsimp only
  rw [h]
  split <;> rfl

/-- A command that asks for nothing. -/
theorem capturedMarkerDrift_silent {cmd : WorkflowCommand} (h : st.servedMarker cmd = none)
    (scopes : ℕ → ScopeInner) (stack : List ScopeFrame) :
    capturedMarkerDrift scopes stack cmd = (none, scopes) := by
  cases cmd with
  | recordMarker name details =>
    unfold servedMarker at h
    dsimp only at h
    split at h
    case isTrue hversion => simp [capturedMarkerDrift, hversion]
    case isFalse => cases h
  | _ => rfl

theorem Waits.push_silent (h : Waits seq records st) {cmd : WorkflowCommand}
    (hsilent : st.servedMarker cmd = none) :
    Waits seq records (st.pushCommand cmd) ∧ (st.pushCommand cmd).deferredNd = st.deferredNd := by
  have hdrift := capturedMarkerDrift_silent hsilent st.scopes st.stack
  refine ⟨h.of_unmoved (Unmoved.pushCommand st cmd) ?_, pushCommand_deferredNd (by rw [hdrift])⟩
  rw [pushCommand_records, hdrift]
  exact h.records

theorem Waits.push_other (h : Waits seq records st)
    (hother : replaying st.scopes st.stack ≠ some seq) (cmd : WorkflowCommand) :
    Waits seq records (st.pushCommand cmd) := by
  refine h.of_unmoved (Unmoved.pushCommand st cmd) ?_
  rw [pushCommand_records, capturedMarkerDrift_other hother]
  exact h.records

/-- A pushed marker takes the record that asks for it. -/
theorem Waits.push_next (h : Waits seq (next :: rest) st)
    (hreplaying : replaying st.scopes st.stack = some seq) {cmd : WorkflowCommand} {ask : Ask}
    {answer : Captured} (hserved : st.servedMarker cmd = some (ask, answer))
    (hask : ask = next.ask) :
    answer = .value next.value ∧ Waits seq rest (st.pushCommand cmd) ∧
      (st.pushCommand cmd).deferredNd = st.deferredNd := by
  cases cmd with
  | recordMarker name details =>
    unfold servedMarker at hserved
    dsimp only at hserved
    split at hserved
    case isTrue => cases hserved
    case isFalse hversion =>
      obtain ⟨rfl, rfl⟩ := Prod.mk.inj (Option.some.inj hserved)
      cases next with
      | sideEffect => cases hask
      | marker order name' details' =>
        unfold CapturedRecord.ask at hask
        dsimp only at hask
        split at hask
        case isTrue => cases hask
        case isFalse =>
          obtain ⟨rfl, hdetails⟩ := Ask.marker.inj hask
          obtain rfl := hdetails
          have hdrift := capturedMarkerDrift_next hreplaying (by simpa using hversion) h.records
          refine ⟨by rw [hdrift]; rfl, h.of_unmoved (Unmoved.pushCommand st _) ?_,
            pushCommand_deferredNd (by rw [hdrift])⟩
          rw [pushCommand_records, hdrift]
          simp
  | _ => cases hserved

theorem readVersion_ofU32 (n : UInt32) : readVersion (ofU32 n) = some n := by
  have hlt : n.toNat < 4294967296 := n.toNat_lt
  simp [readVersion, ofU32, Json.asU64, hlt]

theorem Waits.finish_other (h : Waits seq records st) {other : ℕ} (hne : seq ≠ other) :
    Waits seq records (st.finish other) := by
  have hsame : (st.finish other).scopes seq = st.scopes seq := updateScope_of_ne _ _ hne
  exact ⟨by rw [hsame, h.phase], by rw [hsame, h.holding], by rw [hsame, h.records]⟩

theorem Waits.start_other (h : Waits seq records st) (serde : MarkerSerde) (other : ℕ)
    (found : Option Json) (deprecated : List String) :
    Waits seq records (st.start serde other found deprecated) := by
  unfold Cycle.start
  split
  case h_1 hidle =>
    have hne : seq ≠ other := by
      rintro rfl
      rw [h.phase] at hidle
      cases hidle
    have hset : ∀ inner, Waits seq records (st.updateScope other inner) := by
      intro inner
      have hsame := updateScope_of_ne st inner hne
      exact ⟨by rw [hsame, h.phase], by rw [hsame, h.holding], by rw [hsame, h.records]⟩
    dsimp only
    split <;> exact hset _
  case h_2 => exact h

theorem Waits.report (h : Waits seq records st) (text : String) :
    Waits seq records (st.reportDrift text) := ⟨h.phase, h.holding, h.records⟩

/-- A side effect of another scope leaves the records alone. -/
theorem Waits.sideEffect_other (h : Waits seq records st)
    (hother : replaying st.scopes st.stack ≠ some seq) (kind : SideEffectKind)
    (name : Option String) (fresh : Json) (failsOnDrift : Bool) :
    Waits seq records (st.recordSideEffect kind name fresh failsOnDrift) := by
  have htaken : Waits seq records
      { st with scopes := (takeCapturedSideEffect st.scopes st.stack kind name).2 } :=
    h.of_unmoved (takeCapturedSideEffect_unmoved _ _ _ _)
      ((takeCaptured_other hother _ _).trans h.records)
  unfold recordSideEffect
  dsimp only
  split
  case h_1 => exact (htaken.push_silent rfl).1
  case h_2 => exact (htaken.push_silent rfl).1
  case h_3 =>
    split
    case isTrue => exact htaken
    case isFalse => exact ((htaken.report _).push_silent rfl).1

theorem servedMarker_version (st : Cycle) (changeId : String) (details : Json) :
    st.servedMarker (.recordMarker (versionMarkerName changeId) details) = none := by
  have hversion : beginsWith (versionMarkerName changeId) "version:" = true :=
    beginsWith_append "version:" changeId
  simp [servedMarker, hversion]

theorem Waits.version_other (h : Waits seq records st)
    (hother : replaying st.scopes st.stack ≠ some seq) (changeId : String) (max : UInt32) :
    Waits seq records (st.version changeId max) := by
  have htaken : Waits seq records
      { st with scopes := (takeCapturedMarker st.scopes st.stack (versionMarkerName changeId)).2 } :=
    h.of_unmoved (takeCapturedMarker_unmoved _ _ _)
      ((takeCaptured_other hother _ _).trans h.records)
  unfold Cycle.version
  dsimp only
  split
  case h_1 => exact (htaken.push_silent (servedMarker_version _ _ _)).1
  case h_2 =>
    split
    case h_1 => exact (htaken.push_silent (servedMarker_version _ _ _)).1
    case h_2 => exact ((htaken.report _).push_silent (servedMarker_version _ _ _)).1
  case h_3 => exact ((htaken.report _).push_silent (servedMarker_version _ _ _)).1

/-- After its marker, the cancel of another scope asks for nothing. -/
theorem Waits.recordCancel {serde : MarkerSerde} {other : ℕ}
    {openMembers : ScopeMembers → ScopeMembers} {horizon : ℕ}
    (h : Waits seq records ((st.withdraw other).pushCommand (.recordMarker (cancelMarkerName other)
      (serde.encodeMarker (st.cancelMarker serde other openMembers horizon)))))
    (hne : seq ≠ other) :
    Waits seq records ((st.recordCancel serde other openMembers horizon).finish other) ∧
      ((st.recordCancel serde other openMembers horizon).finish other).deferredNd =
        ((st.withdraw other).pushCommand (.recordMarker (cancelMarkerName other)
          (serde.encodeMarker (st.cancelMarker serde other openMembers horizon)))).deferredNd := by
  unfold Cycle.recordCancel
  dsimp only
  split
  case isTrue => exact ⟨h.finish_other hne, rfl⟩
  case isFalse =>
    refine ⟨Waits.finish_other ?_ hne, ?_⟩
    · exact (h.push_silent rfl).1
    · exact (h.push_silent rfl).2


/-! ## One act -/

/-- The cancel of another scope asks for its marker, after it withdrew its commands. -/
theorem served_settle {serde : MarkerSerde} {other : ℕ} {unconsumed : Bool}
    {openMembers : ScopeMembers → ScopeMembers} {horizon : ℕ}
    (hlive : ¬ ((st.scopes other).holding || unconsumed) = true) :
    st.served serde (.settle other none unconsumed openMembers horizon) =
      (st.withdraw other).servedMarker (.recordMarker (cancelMarkerName other)
        (serde.encodeMarker (st.cancelMarker serde other openMembers horizon))) :=
  (if_neg hlive).trans rfl

/-- A side effect takes the record that asks for it. -/
theorem Waits.sideEffect_next (h : Waits seq (next :: rest) st)
    (hreplaying : replaying st.scopes st.stack = some seq) {kind : SideEffectKind}
    {name : Option String} (hask : .sideEffect kind name = next.ask) (fresh : Json)
    (failsOnDrift : Bool) :
    (takeCapturedSideEffect st.scopes st.stack kind name).1 = .value next.value ∧
      Waits seq rest (st.recordSideEffect kind name fresh failsOnDrift) ∧
      (st.recordSideEffect kind name fresh failsOnDrift).deferredNd = st.deferredNd := by
  cases next with
  | marker order name' details =>
    unfold CapturedRecord.ask at hask
    dsimp only at hask
    split at hask <;> cases hask
  | sideEffect order kind' name' value =>
    obtain ⟨rfl, rfl⟩ := Ask.sideEffect.inj hask
    have htaken : takeCapturedSideEffect st.scopes st.stack kind name =
        (.value value, Function.update st.scopes seq { st.scopes seq with records := rest }) :=
      takeCaptured_next hreplaying h.records (by simp)
    have hwaits : Waits seq rest { st with
        scopes := Function.update st.scopes seq { st.scopes seq with records := rest } } :=
      ⟨by simp [h.phase], by simp [h.holding], by simp⟩
    unfold recordSideEffect
    rw [htaken]
    exact ⟨rfl, hwaits.push_silent rfl⟩

/-- A version gate takes the record that asks for it. -/
theorem Waits.version_next (h : Waits seq (next :: rest) st)
    (hreplaying : replaying st.scopes st.stack = some seq) {changeId : String}
    (hask : .version (versionMarkerName changeId) = next.ask) (hversion : next.NamesVersion)
    (max : UInt32) :
    (takeCapturedMarker st.scopes st.stack (versionMarkerName changeId)).1 = .value next.value ∧
      Waits seq rest (st.version changeId max) ∧
      (st.version changeId max).deferredNd = st.deferredNd := by
  cases next with
  | sideEffect => cases hask
  | marker order name details =>
    unfold CapturedRecord.ask at hask
    dsimp only at hask
    split at hask
    case isFalse => cases hask
    case isTrue hnamed =>
      obtain rfl := Ask.version.inj hask
      obtain ⟨n, rfl⟩ := hversion hnamed
      have htaken : takeCapturedMarker st.scopes st.stack (versionMarkerName changeId) =
          (.value (ofU32 n),
            Function.update st.scopes seq { st.scopes seq with records := rest }) :=
        takeCaptured_next hreplaying h.records (by simp)
      have hwaits : Waits seq rest { st with
          scopes := Function.update st.scopes seq { st.scopes seq with records := rest } } :=
        ⟨by simp [h.phase], by simp [h.holding], by simp⟩
      unfold Cycle.version
      dsimp only
      rw [htaken]
      dsimp only
      rw [readVersion_ofU32]
      exact ⟨rfl, hwaits.push_silent (servedMarker_version _ _ _)⟩

/-- An act that asks scope `seq` for nothing leaves its records alone. -/
theorem Waits.step_other (h : Waits seq records st) {serde : MarkerSerde} {act : Act}
    (hkeeps : ¬ act.Finishes seq)
    (hnone : replaying st.scopes st.stack ≠ some seq ∨ st.served serde act = none) :
    Waits seq records (st.step serde act) := by
  cases act with
  | start other found deprecated => exact h.start_other serde other found deprecated
  | enter frame => exact ⟨h.phase, h.holding, h.records⟩
  | leave => exact ⟨h.phase, h.holding, h.records⟩
  | push cmd =>
    rcases hnone with hother | hsilent
    · exact h.push_other hother cmd
    · exact (h.push_silent hsilent).1
  | sideEffect kind name fresh failsOnDrift =>
    exact h.sideEffect_other (hnone.resolve_right (by simp [served])) kind name fresh failsOnDrift
  | version changeId max =>
    exact h.version_other (hnone.resolve_right (by simp [served])) changeId max
  | complete other => exact h.finish_other fun heq => hkeeps heq.symm
  | settle other taken unconsumed openMembers horizon =>
    have hne : seq ≠ other := fun heq => hkeeps heq.symm
    have hdrawn : Waits seq records (st.withdraw other) := ⟨h.phase, h.holding, h.records⟩
    change Waits seq records (st.settleCancel serde other taken unconsumed openMembers horizon).2
    unfold settleCancel
    dsimp only
    split
    case h_1 =>
      split
      case h_1 => exact h.finish_other hne
      case h_2 => split <;> exact h.finish_other hne
    case h_2 =>
      split
      case isTrue => exact h.finish_other hne
      case isFalse hlive =>
        refine (Waits.recordCancel ?_ hne).1
        rcases hnone with hother | hsilent
        · exact hdrawn.push_other hother _
        · rw [served_settle hlive] at hsilent
          exact (hdrawn.push_silent hsilent).1

/-- The act that asks for the next record gets its value and reports nothing. -/
theorem serves_next (h : Waits seq (next :: rest) st) {serde : MarkerSerde} {act : Act}
    (hkeeps : ¬ act.Finishes seq) (hreplaying : replaying st.scopes st.stack = some seq)
    {ask : Ask} {answer : Captured} (hserved : st.served serde act = some (ask, answer))
    (hask : ask = next.ask) (hversion : next.NamesVersion) :
    answer = .value next.value ∧ Waits seq rest (st.step serde act) ∧
      (st.step serde act).deferredNd = st.deferredNd := by
  cases act with
  | start => cases hserved
  | enter => cases hserved
  | leave => cases hserved
  | complete => cases hserved
  | push cmd => exact h.push_next hreplaying hserved hask
  | sideEffect kind name fresh failsOnDrift =>
    obtain ⟨rfl, rfl⟩ := Prod.mk.inj (Option.some.inj hserved)
    exact h.sideEffect_next hreplaying hask fresh failsOnDrift
  | version changeId max =>
    obtain ⟨rfl, rfl⟩ := Prod.mk.inj (Option.some.inj hserved)
    exact h.version_next hreplaying hask hversion max
  | settle other taken unconsumed openMembers horizon =>
    have hne : seq ≠ other := fun heq => hkeeps heq.symm
    have hdrawn : Waits seq (next :: rest) (st.withdraw other) := ⟨h.phase, h.holding, h.records⟩
    cases taken with
    | some details => cases hserved
    | none =>
      by_cases hlive : (st.scopes other).holding || unconsumed
      · simp [served, hlive] at hserved
      · rw [served_settle hlive] at hserved
        obtain ⟨hanswer, hwaits, hdeferred⟩ := hdrawn.push_next hreplaying hserved hask
        obtain ⟨hdone, hsame⟩ := hwaits.recordCancel hne
        have hstep : st.step serde (.settle other none unconsumed openMembers horizon) =
            (st.recordCancel serde other openMembers horizon).finish other := by
          simp [step, settleCancel, hlive]
        rw [hstep]
        exact ⟨hanswer, hdone, hsame.trans hdeferred⟩

/-! ## A whole replay -/

/-- **A body that asks for the records in order takes all of them.** Each question gets the value of
its record, no act that asks reports drift, and no record is left. -/
theorem serves_run {serde : MarkerSerde} {acts : List Act} (h : Waits seq records st)
    (hkeeps : ∀ act ∈ acts, ¬ act.Finishes seq) (hversions : ∀ record ∈ records, record.NamesVersion)
    (hasked : (servedBy serde seq st acts).map (·.ask) = records.map (·.ask)) :
    servedBy serde seq st acts = records.map (·.served) ∧ Waits seq [] (st.run serde acts) := by
  induction acts generalizing st records with
  | nil =>
    obtain rfl : records = [] := List.map_eq_nil_iff.mp hasked.symm
    exact ⟨rfl, h⟩
  | cons act acts ih =>
    obtain ⟨hact, hacts⟩ := List.forall_mem_cons.mp hkeeps
    unfold servedBy at hasked ⊢
    dsimp only at hasked ⊢
    by_cases hreplaying : replaying st.scopes st.stack = some seq
    · rw [if_pos hreplaying] at hasked ⊢
      cases hserved : st.served serde act with
      | none =>
        rw [hserved] at hasked
        exact ih (h.step_other hact (.inr hserved)) hacts hversions hasked
      | some pair =>
        obtain ⟨ask, answer⟩ := pair
        rw [hserved] at hasked
        cases records with
        | nil => cases hasked
        | cons next rest =>
          obtain ⟨hask, hrest⟩ := List.cons.inj hasked
          obtain ⟨hversion, hversions⟩ := List.forall_mem_cons.mp hversions
          obtain ⟨rfl, hwaits, hdeferred⟩ := serves_next h hact hreplaying hserved hask hversion
          obtain ⟨htail, hdone⟩ := ih hwaits hacts hversions hrest
          refine ⟨?_, hdone⟩
          rw [htail, hdeferred, List.drop_length]
          obtain rfl : ask = next.ask := hask
          rfl
    · rw [if_neg hreplaying] at hasked ⊢
      exact ih (h.step_other hact (.inl hreplaying)) hacts hversions hasked

theorem waits_start {serde : MarkerSerde} (hidle : (st.scopes seq).phase = .idle)
    (marker : CancelMarker) (deprecated : List String) :
    Waits seq (marker.records.filter fun record => !isDeprecated deprecated record)
      (st.start serde seq (some (serde.encodeMarker marker)) deprecated) := by
  have hstart : st.start serde seq (some (serde.encodeMarker marker)) deprecated =
      st.updateScope seq { st.scopes seq with
        phase := .running
        holding := true
        records := marker.records.filter fun record => !isDeprecated deprecated record } := by
    simp [Cycle.start, hidle, serde.decodeMarker_encodeMarker]
  rw [hstart]
  exact ⟨by rw [updateScope_self], by rw [updateScope_self], by rw [updateScope_self]⟩

/-- With no record left, the recorded cancel is settled. -/
theorem settled_of_waits {serde : MarkerSerde} (h : Waits seq [] st) (marker : CancelMarker)
    (unconsumed : Bool) (openMembers : ScopeMembers → ScopeMembers) (horizon : ℕ) :
    (st.settleCancel serde seq (some (serde.encodeMarker marker)) unconsumed openMembers
      horizon).1 = .cancelled marker.reason := by
  simp [settleCancel, serde.decodeMarker_encodeMarker, h.records]

theorem namesVersion_of_mem {log : List BufferedCommand}
    (h : ∀ buffered ∈ log, NamesVersion buffered.cmd) {record : CapturedRecord}
    (hrecord : record ∈ decisionsIn seq log) : record.NamesVersion := by
  obtain ⟨buffered, hbuffered, hdecision⟩ := List.mem_filterMap.mp hrecord
  have hnames := h buffered (List.mem_of_mem_filter hbuffered)
  cases hcmd : buffered.cmd with
  | recordSideEffect kind name value =>
    rw [hcmd] at hdecision
    cases hdecision
    trivial
  | recordMarker name details =>
    rw [hcmd] at hdecision hnames
    cases hdecision
    intro hversion
    have hcancel : beginsWith name cancelMarkerHead = false :=
      Bool.eq_false_iff.mpr fun hcancel => not_cancel_and_version hcancel hversion
    rw [if_neg (by simp [hcancel])]
    exact hnames hversion
  | _ =>
    rw [hcmd] at hdecision
    cases hdecision

end Waiting

/-- **A scope cancel keeps every decision it withdraws.** What the cancel captures is what was pushed
inside its scope since the cycle began and not through a shield: each decision once, in push order,
a nested cancel without its own records. A replay that asks for these decisions in order, those of
deprecated gates apart, gets each value, reports no drift, leaves no record and settles the cancel. -/
theorem a_scope_cancel_keeps_every_decision (serde : MarkerSerde) (path : ℕ → List ℕ) (begun : Cycle)
    (hbegun : Begins begun) (acts : List Act) (hallowed : AllowedRun serde path begun acts) (seq : ℕ)
    (openMembers : ScopeMembers → ScopeMembers) (horizon : ℕ)
    (hcancel : Allowed path (begun.run serde acts)
      (.settle seq none false openMembers horizon)) :
    let live := begun.run serde acts
    let marker := live.cancelMarker serde seq openMembers horizon
    marker.records = decisionsIn seq live.pushed ∧
      marker.records.Pairwise (fun a b => a.order < b.order) ∧
      ∀ (replay : Cycle) (deprecated : List String) (reacts : List Act),
        (replay.scopes seq).phase = .idle → (∀ act ∈ reacts, ¬ act.Finishes seq) →
        let started := replay.start serde seq (some (serde.encodeMarker marker)) deprecated
        let kept := marker.records.filter fun record => !isDeprecated deprecated record
        (servedBy serde seq started reacts).map (·.ask) = kept.map (·.ask) →
          servedBy serde seq started reacts = kept.map (·.served) ∧
          ((started.run serde reacts).scopes seq).records = [] ∧
          ((started.run serde reacts).settleCancel serde seq (some (serde.encodeMarker marker)) false
            openMembers horizon).1 = .cancelled scopeCancelReason := by
  intro live marker
  have hfirst : Kept serde path begun := hbegun.kept
  have hkept : Kept serde path live := hfirst.run hallowed
  have hopen : Open path live seq := hkept.open_of_running hcancel.1 hcancel.2.1
  have hcaptured : marker.records = decisionsIn seq live.pushed := hkept.captured hopen
  refine ⟨hcaptured, hcaptured ▸ decisionsIn_pairwise hkept.ordered, ?_⟩
  intro replay deprecated reacts hidle hkeeps started kept hasked
  have hversions : ∀ record ∈ kept, record.NamesVersion := by
    intro record hrecord
    have hmem : record ∈ marker.records := List.mem_of_mem_filter hrecord
    rw [hcaptured] at hmem
    exact namesVersion_of_mem hkept.versions hmem
  obtain ⟨hserved, hdone⟩ := serves_run (waits_start hidle marker deprecated) hkeeps hversions hasked
  exact ⟨hserved, hdone.records, settled_of_waits hdone marker false openMembers horizon⟩

/-! ## A nested cancel -/

/-- A concrete wire form. Numbers are as `serde_json` writes them, ids do not occur below. -/
def plainSerde : MarkerSerde where
  number n := if n < 18446744073709551616 then Json.ofNat n else .arr (List.replicate n .null)
  readNumber
    | .num (.posInt n) => some n.toNat
    | .arr items => some items.length
    | _ => none
  readNumber_number n := by
    by_cases h : n < 18446744073709551616
    · simp [h, Json.ofNat, Nat.mod_eq_of_lt]
    · simp [h]
  uuid id := .arr (List.replicate id.toNat .null)
  readUuid
    | .arr items => some (BitVec.ofNat 128 items.length)
    | _ => none
  readUuid_uuid id := by simp

def idleCycle : Cycle := ⟨[], fun _ => .new, [], 0, [], []⟩

/-- Scope 2 runs in scope 1 and is cancelled, then scope 1 passes a version gate. -/
def nestedCancel : List Act :=
  [.enter (.cancellable 1), .sideEffect .now none (.ofNat 5) false, .start 2 none [],
    .enter (.cancellable 2), .push (.recordMarker "race:1" (.ofNat 2)), .leave,
    .settle 2 none false id 7, .version "tax" 3]

def nestedRecords : List CapturedRecord :=
  [.sideEffect 0 .now none (.ofNat 5), .marker 1 "race:1" (.ofNat 2),
    .marker 2 "cancel_scope:2"
      (plainSerde.encodeMarker ⟨scopeCancelReason, 7, .empty, []⟩),
    .marker 3 "version:tax" (.ofNat 3)]

/-- Scope 2 lies in scope 1. -/
def inOne (seq : ℕ) : List ℕ := if seq = 2 then [1] else []

theorem nestedCancel_allowed : AllowedRun plainSerde inOne
    (idleCycle.start plainSerde 1 none []) (nestedCancel ++ [.leave]) :=
  ⟨⟨by decide +kernel, by decide +kernel⟩, trivial, trivial,
    ⟨by decide +kernel, by decide +kernel⟩, ⟨by decide, by decide⟩, trivial,
    ⟨by decide +kernel, by decide +kernel, by decide +kernel⟩, trivial, trivial, trivial⟩

def nestedMarker : CancelMarker :=
  ((idleCycle.start plainSerde 1 none []).run plainSerde (nestedCancel ++ [.leave])).cancelMarker
    plainSerde 1 id 7

def replayStart : Cycle :=
  idleCycle.start plainSerde 1 (some (plainSerde.encodeMarker nestedMarker)) []

/-- The cancel of scope 1 captures all four decisions, and the same body takes them back. -/
theorem nested_cancel_is_replayed :
    nestedMarker.records = nestedRecords ∧
      servedBy plainSerde 1 replayStart nestedCancel = nestedRecords.map (·.served) ∧
      ((replayStart.run plainSerde nestedCancel).scopes 1).records = [] := by
  obtain ⟨-, -, hreplay⟩ := a_scope_cancel_keeps_every_decision plainSerde inOne
    (idleCycle.start plainSerde 1 none [])
    ⟨by decide +kernel, by decide +kernel, by decide +kernel⟩ (nestedCancel ++ [.leave])
    nestedCancel_allowed 1 id 7 ⟨by decide +kernel, by decide +kernel, by decide +kernel⟩
  have hrecords : nestedMarker.records = nestedRecords := by decide +kernel
  have hkept : (nestedMarker.records.filter fun record => !isDeprecated [] record) =
      nestedRecords := by decide +kernel
  obtain ⟨hserved, hdone, -⟩ := hreplay idleCycle [] nestedCancel rfl
    (by simp [nestedCancel, Act.Finishes]) (by decide +kernel)
  refine ⟨hrecords, ?_, ?_⟩
  · rw [← hkept]
    unfold replayStart nestedMarker
    exact hserved
  · unfold replayStart nestedMarker
    exact hdone

end Cycle

end Harvest.Scope
