import Harvest.Audit.Record

/-!
# The chain verifier

`ChainVerifier` takes the stored rows of a shard in `export_seq` order and reports what
does not fit. HMAC-SHA256 is a parameter `hmac`. Sums of sequence numbers are taken in `Int`:
an `i64` at the end of its range only changes the number a finding prints.

Proved here:
* `intact_pushAll`: a verifier that has found nothing has seen rows that all verify, each
  one number after the last or after a gap that the row itself explains.
* `pushAll_honest`: rows chained as the exporter chains them raise no finding.
* `finish_intact`: what a clean end says about the checkpoint head.
-/

namespace Harvest.Audit

section Chain

variable {K : Type} (hmac : K → Bytes → ChainHash) (texts : TimeText)

/-- `link` -/
def link (key : K) (prev : ChainHash) (newestBefore : Option Int64)
    (record : AuditExportRecord) : ChainHash :=
  hmac key (linkBytes texts prev newestBefore record)

/-- `ChainCheckpoint::mac` -/
def ChainCheckpoint.mac (checkpoint : ChainCheckpoint) (key : K) (shard : Int32) : ChainHash :=
  hmac key (checkpointBytes shard checkpoint)

/-- `newest_through` -/
def newestThrough (newestBefore : Option Int64) (at_ : Int64) : Int64 :=
  match newestBefore with
  | none => at_
  | some newest => if newest.toInt ≤ at_.toInt then at_ else newest

theorem le_newestThrough (newest : Option Int64) (at_ : Int64) :
    at_.toInt ≤ (newestThrough newest at_).toInt := by
  unfold newestThrough
  split
  · exact Int.le_refl _
  · split <;> omega

theorem newest_le_newestThrough (newest at_ : Int64) :
    newest.toInt ≤ (newestThrough (some newest) at_).toInt := by
  simp only [newestThrough]
  split <;> omega

/-- `ChainRow` -/
structure ChainRow where
  record : AuditExportRecord
  prev : Option ChainHash
  hash : Option ChainHash
  newestBefore : Option Int64
  deriving DecidableEq

/-- `ChainFinding` -/
inductive ChainFinding where
  | tampered (seq : Int)
  | linkMismatch (seq : Int)
  | unchained (seq : Int)
  | gap (afterSeq beforeSeq : Int)
  | headMismatch (expectedSeq : Int) (foundSeq : Option Int64)
  | checkpointMissing
  | checkpointInvalid
  | rolledBack (knownSeq : Int) (headSeq : Option Int64)
  | knownLinkMismatch (seq : Int)
  | knownLinkUnverifiable (seq : Int)
  | sharedDatabase
  | checkpointBehindCursor (headSeq lastAssignedSeq : Int)
  | cursorBehindCheckpoint (headSeq lastAssignedSeq : Int)
  deriving DecidableEq

/-- `KnownLink` -/
structure KnownLink where
  seq : Int64
  hash : ChainHash

/-- `ChainReport` -/
structure ChainReport where
  checked : Nat := 0
  unchainedPrefix : Nat := 0
  startSeq : Option Int64 := none
  anchorSeq : Option Int64 := none
  lastSeq : Option Int64 := none
  lastHash : Option ChainHash := none
  findings : List ChainFinding := []
  retentionGaps : List ChainFinding := []

/-- `ChainReport::is_intact` -/
def ChainReport.isIntact (report : ChainReport) : Prop := report.findings = []

/-- `Previous` -/
structure Previous where
  seq : Int64
  hash : Option ChainHash
  newest : Option Int64

/-- `ChainVerifier`, with the keys for the keyed HMAC states. -/
structure ChainVerifier (K : Type) where
  keys : List K
  retentionCutoff : Option Int64 := none
  report : ChainReport := {}
  previous : Option Previous := none
  knownHead : Option KnownLink := none
  knownSeen : Bool := false
  successorSeen : Bool := false

/-- `RETENTION_SLACK`: one hour. -/
def retentionSlack : Int := 3600000000

namespace ChainVerifier

def addFinding (v : ChainVerifier K) (finding : ChainFinding) : ChainVerifier K :=
  { v with report := { v.report with findings := v.report.findings ++ [finding] } }

/-- `is_old` -/
def isOld (v : ChainVerifier K) (at_ : Int64) : Bool :=
  match v.retentionCutoff with
  | none => false
  | some cutoff => at_.toInt < cutoff.toInt + retentionSlack

/-- `gap` -/
def gap (v : ChainVerifier K) (afterSeq beforeSeq : Int) (newestBefore : Option Int64) :
    ChainVerifier K :=
  if newestBefore.any v.isOld then
    { v with report :=
      { v.report with retentionGaps := v.report.retentionGaps ++ [.gap afterSeq beforeSeq] } }
  else v.addFinding (.gap afterSeq beforeSeq)

/-- `mismatch` of `push`: the row at the known link has another hash, or the row after it
names another one and the known row itself is gone. -/
def knownMismatch (v : ChainVerifier K) (known : KnownLink) (row : ChainRow) : Bool :=
  if row.record.seq = known.seq then row.hash != some known.hash
  else if row.record.seq.toInt = known.seq.toInt + 1 then
    !v.knownSeen && row.prev != some known.hash
  else false

/-- The first part of `push`: the known link holds wherever it is. -/
def checkKnown (v : ChainVerifier K) (row : ChainRow) : ChainVerifier K :=
  match v.knownHead with
  | none => v
  | some known =>
    let seen := { v with
      knownSeen := v.knownSeen || row.record.seq == known.seq
      successorSeen := v.successorSeen || row.record.seq.toInt == known.seq.toInt + 1 }
    if v.knownMismatch known row then seen.addFinding (.knownLinkMismatch known.seq.toInt)
    else seen

/-- `in_chain`: the checkpoint start decides, when there is one. -/
def inChain (v : ChainVerifier K) (row : ChainRow) : Bool :=
  match v.report.startSeq with
  | some start => start.toInt ≤ row.record.seq.toInt
  | none => v.previous.isSome || row.hash.isSome

/-- `own_hash_matches` -/
def ownHashMatches (keys : List K) (row : ChainRow) : Bool :=
  row.prev.any fun prev => keys.any fun key =>
    row.hash == some (link hmac texts key prev row.newestBefore row.record)

/-- The gap test of `push`. -/
def checkGap (v : ChainVerifier K) (seq : Int64) (newestBefore : Option Int64) :
    ChainVerifier K :=
  match v.previous with
  | some previous =>
    if seq.toInt ≠ previous.seq.toInt + 1 then v.gap previous.seq.toInt seq.toInt newestBefore
    else v
  | none =>
    match v.report.startSeq with
    | some start =>
      if start.toInt < seq.toInt then v.gap (start.toInt - 1) seq.toInt newestBefore else v
    | none => v

/-- The link test of `push`: it needs both neighbours present and chained. -/
def checkLink (v : ChainVerifier K) (row : ChainRow) : ChainVerifier K :=
  match v.previous with
  | some ⟨seq, some hash, newest⟩ =>
    if row.record.seq.toInt = seq.toInt + 1 ∧
        (row.prev ≠ some hash ∨ row.newestBefore ≠ newest) then
      v.addFinding (.linkMismatch row.record.seq.toInt)
    else v
  | _ => v

/-- `push` for a row of the chain. -/
def pushChained (v : ChainVerifier K) (row : ChainRow) : ChainVerifier K :=
  let seq := row.record.seq
  -- Only a link that verifies can explain a gap.
  let valid := ownHashMatches hmac texts v.keys row
  let v := v.checkGap seq (if valid then row.newestBefore else none)
  match row.hash with
  | none => { v.addFinding (.unchained seq.toInt) with previous := some ⟨seq, none, none⟩ }
  | some hash =>
    let v := v.checkLink row
    let v := { v with report :=
      { v.report with anchorSeq := if v.report.anchorSeq.isNone then some seq else v.report.anchorSeq } }
    let v := if valid then v else v.addFinding (.tampered seq.toInt)
    { v with
      report := { v.report with
        checked := v.report.checked + 1
        lastSeq := some seq
        lastHash := some hash }
      previous := some
        ⟨seq, some hash, some (newestThrough row.newestBefore row.record.occurredAt)⟩ }

/-- `push` -/
def push (v : ChainVerifier K) (row : ChainRow) : ChainVerifier K :=
  let v := v.checkKnown row
  if v.inChain row then pushChained hmac texts v row
  else { v with report := { v.report with unchainedPrefix := v.report.unchainedPrefix + 1 } }

def pushAll (v : ChainVerifier K) (rows : List ChainRow) : ChainVerifier K :=
  rows.foldl (push hmac texts) v

/-- `found` of `check_head`: the newest chained row seen. -/
def found (v : ChainVerifier K) : Option (Int64 × ChainHash) :=
  v.report.lastSeq.bind fun seq => v.report.lastHash.map fun hash => (seq, hash)

/-- `check_head` -/
def checkHead (v : ChainVerifier K) (checkpoint : ChainCheckpoint) : ChainVerifier K :=
  if v.found = some (checkpoint.headSeq, checkpoint.head) then v
  -- A re-anchored chain with no row yet.
  else if v.found = none ∧ checkpoint.headSeq.toInt < checkpoint.startSeq.toInt then v
  else if (∀ f ∈ v.found, f.1.toInt < checkpoint.headSeq.toInt) ∧ v.isOld checkpoint.newestAt then
    let afterSeq := (v.report.lastSeq.map Int64.toInt).getD (checkpoint.startSeq.toInt - 1)
    { v with report := { v.report with
      retentionGaps := v.report.retentionGaps ++ [.gap afterSeq (checkpoint.headSeq.toInt + 1)] } }
  else v.addFinding (.headMismatch checkpoint.headSeq.toInt v.report.lastSeq)

/-- `finish` -/
def finish (v : ChainVerifier K) (checkpoint : Option ChainCheckpoint) : ChainReport :=
  let v := match checkpoint with
    | some checkpoint => v.checkHead checkpoint
    | none => v
  let headSeq := (checkpoint.map ChainCheckpoint.headSeq).or v.report.lastSeq
  let v := match v.knownHead with
    | none => v
    | some known =>
      if headSeq.all (fun head : Int64 => head.toInt < known.seq.toInt) then
        v.addFinding (.rolledBack known.seq.toInt headSeq)
      else if !v.knownSeen && !v.successorSeen then
        v.addFinding (.knownLinkUnverifiable known.seq.toInt)
      else v
  v.report

theorem pushAll_append (v : ChainVerifier K) (rows rows' : List ChainRow) :
    pushAll hmac texts v (rows ++ rows') = pushAll hmac texts (pushAll hmac texts v rows) rows' :=
  List.foldl_append

theorem found_of_last {v : ChainVerifier K} {seq : Int64} {hash : ChainHash}
    (h : (v.report.lastSeq, v.report.lastHash) = (some seq, some hash)) :
    v.found = some (seq, hash) := by
  rw [Prod.mk.injEq] at h
  simp [found, h.1, h.2]

/-! ## What a test leaves alone -/

@[simp] theorem addFinding_findings (v : ChainVerifier K) (f : ChainFinding) :
    (v.addFinding f).report.findings = v.report.findings ++ [f] := rfl

/-- The fields that only `push` itself changes. -/
structure Frame (v v' : ChainVerifier K) : Prop where
  keys : v'.keys = v.keys
  cutoff : v'.retentionCutoff = v.retentionCutoff
  start : v'.report.startSeq = v.report.startSeq
  previous : v'.previous = v.previous
  last : (v'.report.lastSeq, v'.report.lastHash) = (v.report.lastSeq, v.report.lastHash)
  -- Findings are only ever added.
  findings : v'.report.findings = [] → v.report.findings = []

theorem Frame.refl (v : ChainVerifier K) : Frame v v := ⟨rfl, rfl, rfl, rfl, rfl, id⟩

theorem Frame.trans {v v' v'' : ChainVerifier K} (h : Frame v v') (h' : Frame v' v'') :
    Frame v v'' :=
  ⟨h'.keys.trans h.keys, h'.cutoff.trans h.cutoff, h'.start.trans h.start,
    h'.previous.trans h.previous, h'.last.trans h.last, fun hnil => h.findings (h'.findings hnil)⟩

theorem frame_addFinding (v : ChainVerifier K) (f : ChainFinding) : Frame v (v.addFinding f) :=
  ⟨rfl, rfl, rfl, rfl, rfl, fun h => absurd h (by simp)⟩

theorem Frame.isOld {v v' : ChainVerifier K} (h : Frame v v') (at_ : Int64) :
    v'.isOld at_ = v.isOld at_ := by
  unfold ChainVerifier.isOld
  rw [h.cutoff]

theorem frame_gap (v : ChainVerifier K) (a b : Int) (newest : Option Int64) :
    Frame v (v.gap a b newest) := by
  unfold gap
  split
  · exact ⟨rfl, rfl, rfl, rfl, rfl, id⟩
  · exact frame_addFinding v _

theorem frame_checkKnown (v : ChainVerifier K) (row : ChainRow) : Frame v (v.checkKnown row) := by
  unfold checkKnown
  split
  · exact Frame.refl v
  · dsimp only
    split
    · exact ⟨rfl, rfl, rfl, rfl, rfl, fun h => absurd h (by simp)⟩
    · exact ⟨rfl, rfl, rfl, rfl, rfl, id⟩

theorem frame_checkGap (v : ChainVerifier K) (seq : Int64) (newest : Option Int64) :
    Frame v (v.checkGap seq newest) := by
  unfold checkGap
  split
  · split
    · exact frame_gap v _ _ _
    · exact Frame.refl v
  · split
    · split
      · exact frame_gap v _ _ _
      · exact Frame.refl v
    · exact Frame.refl v

theorem frame_checkLink (v : ChainVerifier K) (row : ChainRow) : Frame v (v.checkLink row) := by
  unfold checkLink
  split
  · split
    · exact frame_addFinding v _
    · exact Frame.refl v
  · exact Frame.refl v

/-! ## What a clean report has seen -/

/-- The number the verifier expects next. -/
def nextSeq (start : Int64) : Option Int64 → Int
  | none => start.toInt
  | some previous => previous.toInt + 1

theorem gap_clean {v : ChainVerifier K} {a b : Int} {newest : Option Int64}
    (h : (v.gap a b newest).report.findings = []) : newest.any v.isOld = true := by
  unfold gap at h
  split at h
  · assumption
  · simp at h

theorem checkGap_clean {v : ChainVerifier K} {start seq : Int64} {newest : Option Int64}
    (hstart : v.report.startSeq = some start) (hin : start.toInt ≤ seq.toInt)
    (h : (v.checkGap seq newest).report.findings = []) :
    seq.toInt = nextSeq start (v.previous.map Previous.seq) ∨ newest.any v.isOld = true := by
  unfold checkGap at h
  cases hprevious : v.previous with
  | none =>
    simp only [hprevious, hstart] at h
    split at h
    · exact .inr (gap_clean h)
    · left
      simp only [Option.map_none, nextSeq]
      omega
  | some previous =>
    simp only [hprevious] at h
    split at h
    · exact .inr (gap_clean h)
    · left
      simp only [Option.map_some, nextSeq]
      omega

theorem ownHashMatches_iff {keys : List K} {row : ChainRow} :
    ownHashMatches hmac texts keys row = true ↔
      ∃ key ∈ keys, ∃ prev, row.prev = some prev ∧
        row.hash = some (link hmac texts key prev row.newestBefore row.record) := by
  unfold ownHashMatches
  cases row.prev with
  | none => simp
  | some prev => simp

/-- A row of the chain that raises no finding. -/
theorem pushChained_clean {v : ChainVerifier K} {start : Int64} {row : ChainRow}
    (hstart : v.report.startSeq = some start) (hin : start.toInt ≤ row.record.seq.toInt)
    (h : (pushChained hmac texts v row).report.findings = []) :
    v.report.findings = [] ∧ ownHashMatches hmac texts v.keys row = true ∧
      (row.record.seq.toInt = nextSeq start (v.previous.map Previous.seq) ∨
        row.newestBefore.any v.isOld = true) := by
  unfold pushChained at h
  cases hhash : row.hash with
  | none => simp [hhash] at h
  | some hash =>
    simp only [hhash] at h
    by_cases hvalid : ownHashMatches hmac texts v.keys row = true
    · simp only [hvalid, if_true] at h
      have hgap := (frame_checkLink _ row).findings h
      exact ⟨(frame_checkGap v _ _).findings hgap, hvalid, checkGap_clean hstart hin hgap⟩
    · simp [hvalid] at h

/-- What a row of the chain leaves behind. -/
theorem pushChained_state (v : ChainVerifier K) (row : ChainRow) :
    let v' := pushChained hmac texts v row
    v'.keys = v.keys ∧ v'.retentionCutoff = v.retentionCutoff ∧
      v'.report.startSeq = v.report.startSeq ∧
      v'.previous.map Previous.seq = some row.record.seq ∧
      (row.hash ≠ none →
        (v'.report.lastSeq, v'.report.lastHash) = (some row.record.seq, row.hash)) := by
  intro v'
  have hgap := frame_checkGap v row.record.seq
  cases hhash : row.hash with
  | none =>
    simp only [v', pushChained, hhash]
    exact ⟨(hgap _).keys, (hgap _).cutoff, (hgap _).start, rfl, fun h => absurd rfl h⟩
  | some hash =>
    have hlink := fun newest => (hgap newest).trans (frame_checkLink _ row)
    simp only [v', pushChained, hhash]
    split
    · exact ⟨(hlink _).keys, (hlink _).cutoff, (hlink _).start, rfl, by simp⟩
    · exact ⟨(hlink _).keys, (hlink _).cutoff, (hlink _).start, rfl, by simp⟩

end ChainVerifier

/-- Rows that all verify, each one number after the last or after a gap that it explains
itself. -/
def Accepted (keys : List K) (old : Int64 → Bool) (start : Int64) :
    Option Int64 → List ChainRow → Prop
  | _, [] => True
  | previous, row :: rest =>
    ChainVerifier.ownHashMatches hmac texts keys row = true ∧
      (row.record.seq.toInt = ChainVerifier.nextSeq start previous ∨
        row.newestBefore.any old = true) ∧
      Accepted keys old start (some row.record.seq) rest

namespace ChainVerifier

variable {hmac texts}

theorem push_inChain {v : ChainVerifier K} {start : Int64} {row : ChainRow}
    (hstart : v.report.startSeq = some start) (hin : start.toInt ≤ row.record.seq.toInt) :
    push hmac texts v row = pushChained hmac texts (v.checkKnown row) row := by
  have hin' : (v.checkKnown row).inChain row = true := by
    simp [inChain, (frame_checkKnown v row).start, hstart, hin]
  simp [push, hin']

/-- A row before the chain start changes none of what the later rows are compared with. -/
theorem frame_push_before {v : ChainVerifier K} {start : Int64} {row : ChainRow}
    (hstart : v.report.startSeq = some start) (hbefore : row.record.seq.toInt < start.toInt) :
    Frame v (push hmac texts v row) := by
  have hknown := frame_checkKnown v row
  have hout : (v.checkKnown row).inChain row = false := by
    simp [inChain, hknown.start, hstart, hbefore]
  simp only [push, hout, Bool.false_eq_true, if_false]
  exact ⟨hknown.keys, hknown.cutoff, hknown.start, hknown.previous, hknown.last, hknown.findings⟩

theorem frame_pushAll_before {start : Int64} {rows : List ChainRow} :
    ∀ {v : ChainVerifier K}, v.report.startSeq = some start →
      (∀ row ∈ rows, row.record.seq.toInt < start.toInt) →
      Frame v (pushAll hmac texts v rows) := by
  induction rows with
  | nil =>
    intro v _ _
    exact Frame.refl v
  | cons row rows ih =>
    intro v hstart hbefore
    have hrow : Frame v (push hmac texts v row) :=
      frame_push_before hstart (hbefore row List.mem_cons_self)
    exact hrow.trans (ih (hrow.start.trans hstart)
      fun r hr => hbefore r (List.mem_cons_of_mem _ hr))

/-- **A clean report saw accepted rows**, and remembers the last of them. -/
theorem intact_pushAll {start : Int64} {rows : List ChainRow} :
    ∀ {v : ChainVerifier K}, v.report.startSeq = some start →
      (∀ row ∈ rows, start.toInt ≤ row.record.seq.toInt) →
      (pushAll hmac texts v rows).report.findings = [] →
      v.report.findings = [] ∧
        Accepted hmac texts v.keys v.isOld start (v.previous.map Previous.seq) rows ∧
        ((pushAll hmac texts v rows).report.lastSeq,
            (pushAll hmac texts v rows).report.lastHash) =
          (rows.getLast?.elim (v.report.lastSeq, v.report.lastHash)
            fun row => (some row.record.seq, row.hash)) ∧
        (pushAll hmac texts v rows).retentionCutoff = v.retentionCutoff := by
  induction rows with
  | nil =>
    intro v _ _ h
    exact ⟨h, trivial, rfl, rfl⟩
  | cons row rows ih =>
    intro v hstart hin h
    have hrow := hin row List.mem_cons_self
    have hknown := frame_checkKnown v row
    have hpush : push hmac texts v row = pushChained hmac texts (v.checkKnown row) row :=
      push_inChain hstart hrow
    obtain ⟨hkeys, hcutoff, hstart', hprevious, hlast⟩ :=
      pushChained_state hmac texts (v.checkKnown row) row
    rw [← hpush] at hkeys hcutoff hstart' hprevious hlast
    obtain ⟨hclean, haccepted, hend, hcut⟩ := ih (v := push hmac texts v row)
      (hstart'.trans (hknown.start.trans hstart))
      (fun r hr => hin r (List.mem_cons_of_mem _ hr)) h
    rw [hpush] at hclean
    obtain ⟨hclean, hvalid, hgap⟩ := pushChained_clean hmac texts
      (hknown.start.trans hstart) hrow hclean
    have hold : (push hmac texts v row).isOld = v.isOld := by
      funext at_
      unfold isOld
      rw [hcutoff, hknown.cutoff]
    have hhash : row.hash ≠ none := by
      obtain ⟨_, _, _, _, hhash⟩ := (ownHashMatches_iff hmac texts).mp hvalid
      simp [hhash]
    rw [hknown.keys] at hkeys hvalid
    rw [hknown.previous, show (v.checkKnown row).isOld = v.isOld from funext hknown.isOld] at hgap
    rw [hprevious, hkeys, hold] at haccepted
    refine ⟨hknown.findings hclean, ⟨hvalid, hgap, haccepted⟩, ?_, ?_⟩
    · refine hend.trans ?_
      cases hrows : rows.getLast? with
      | none =>
        obtain rfl := List.getLast?_eq_none_iff.mp hrows
        exact hlast hhash
      | some last => simp [List.getLast?_cons, hrows]
    · exact hcut.trans (hcutoff.trans hknown.cutoff)

/-- The checkpoint head a clean end has accepted. -/
def HeadAccepted (v : ChainVerifier K) (checkpoint : ChainCheckpoint) : Prop :=
  v.found = some (checkpoint.headSeq, checkpoint.head) ∨
    (v.found = none ∧ checkpoint.headSeq.toInt < checkpoint.startSeq.toInt) ∨
    v.isOld checkpoint.newestAt = true

theorem checkHead_clean {v : ChainVerifier K} {checkpoint : ChainCheckpoint}
    (h : (v.checkHead checkpoint).report.findings = []) :
    v.report.findings = [] ∧ HeadAccepted v checkpoint := by
  unfold checkHead at h
  split_ifs at h with hfound hempty hpurged
  · exact ⟨h, .inl hfound⟩
  · exact ⟨h, .inr (.inl hempty)⟩
  · exact ⟨h, .inr (.inr hpurged.2)⟩
  · simp at h

theorem finish_intact {v : ChainVerifier K} {checkpoint : ChainCheckpoint}
    (h : (v.finish (some checkpoint)).isIntact) :
    v.report.findings = [] ∧ HeadAccepted v checkpoint := by
  unfold finish ChainReport.isIntact at h
  apply checkHead_clean
  dsimp only at h
  split at h
  · exact h
  · split at h
    · simp at h
    · split at h
      · simp at h
      · exact h

end ChainVerifier

/-! ## Rows chained as the exporter chains them -/

/-- The rows all verify, are consecutive from the expected number on, and each names the
row before it. -/
def Honest (keys : List K) (start : Int64) : Option Previous → List ChainRow → Prop
  | _, [] => True
  | previous, row :: rest =>
    ChainVerifier.ownHashMatches hmac texts keys row = true ∧
      row.record.seq.toInt = ChainVerifier.nextSeq start (previous.map Previous.seq) ∧
      (∀ p ∈ previous, row.prev = p.hash ∧ row.newestBefore = p.newest) ∧
      Honest keys start (some ⟨row.record.seq, row.hash,
        some (newestThrough row.newestBefore row.record.occurredAt)⟩) rest

namespace ChainVerifier

variable {hmac texts}

theorem push_honest {v : ChainVerifier K} {start : Int64} {row : ChainRow}
    (hknown : v.knownHead = none) (hstart : v.report.startSeq = some start)
    (hin : start.toInt ≤ row.record.seq.toInt)
    (hvalid : ownHashMatches hmac texts v.keys row = true)
    (hnext : row.record.seq.toInt = nextSeq start (v.previous.map Previous.seq))
    (hlink : ∀ p ∈ v.previous, row.prev = p.hash ∧ row.newestBefore = p.newest) :
    let v' := push hmac texts v row
    v'.report.findings = v.report.findings ∧ v'.knownHead = none ∧
      v'.previous = some ⟨row.record.seq, row.hash,
        some (newestThrough row.newestBefore row.record.occurredAt)⟩ ∧
      v'.found = row.hash.map fun hash => (row.record.seq, hash) := by
  have hsame : v.checkKnown row = v := by simp [checkKnown, hknown]
  have hgap : v.checkGap row.record.seq row.newestBefore = v := by
    unfold checkGap
    cases hprevious : v.previous with
    | none =>
      simp only [hprevious, Option.map_none, nextSeq] at hnext
      simp [hstart, hnext]
    | some previous =>
      simp only [hprevious, Option.map_some, nextSeq] at hnext
      simp [hnext]
  have hmatch : v.checkLink row = v := by
    unfold checkLink
    split
    · next previous hash newest hprevious =>
      have := hlink _ hprevious
      simp [this.1, this.2]
    · rfl
  obtain ⟨_, _, _, _, hhash⟩ := (ownHashMatches_iff hmac texts).mp hvalid
  rw [push_inChain hstart hin, hsame]
  simp only [pushChained, hhash, hvalid, if_true, hgap, hmatch]
  exact ⟨trivial, hknown, trivial, rfl⟩

/-- **Honest rows raise no finding.** -/
theorem pushAll_honest {start : Int64} {rows : List ChainRow} :
    ∀ {v : ChainVerifier K}, v.knownHead = none → v.report.startSeq = some start →
      start.toInt ≤ nextSeq start (v.previous.map Previous.seq) →
      Honest hmac texts v.keys start v.previous rows →
      (pushAll hmac texts v rows).report.findings = v.report.findings ∧
        (pushAll hmac texts v rows).knownHead = none ∧
        (pushAll hmac texts v rows).found = (rows.getLast?.elim v.found
          fun row => row.hash.map fun hash => (row.record.seq, hash)) := by
  induction rows with
  | nil =>
    intro v hknown _ _ _
    exact ⟨rfl, hknown, rfl⟩
  | cons row rows ih =>
    intro v hknown hstart hreached hhonest
    obtain ⟨hvalid, hnext, hlink, hrest⟩ := hhonest
    have hin : start.toInt ≤ row.record.seq.toInt := by omega
    obtain ⟨hfindings, hknown', hprevious, hfound⟩ :=
      push_honest hknown hstart hin hvalid hnext hlink
    have hpush : push hmac texts v row = pushChained hmac texts (v.checkKnown row) row :=
      push_inChain hstart hin
    obtain ⟨hkeys, _, hstart', _⟩ := pushChained_state hmac texts (v.checkKnown row) row
    rw [← hpush] at hkeys hstart'
    have hframe := frame_checkKnown v row
    obtain ⟨hend, hknown'', hlast⟩ := ih (v := push hmac texts v row) hknown'
      (hstart'.trans (hframe.start.trans hstart))
      (by simp only [hprevious, Option.map_some, nextSeq]; omega)
      (by rw [hprevious, hkeys, hframe.keys]; exact hrest)
    refine ⟨hend.trans hfindings, hknown'', hlast.trans ?_⟩
    cases hrows : rows.getLast? with
    | none =>
      obtain rfl := List.getLast?_eq_none_iff.mp hrows
      exact hfound
    | some last => simp [List.getLast?_cons, hrows]

end ChainVerifier

end Chain

end Harvest.Audit
