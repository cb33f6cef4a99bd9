import Harvest.Lib.Gaps
import Harvest.Audit.Verify

/-!
# Retention

Export ticks, re-anchors and retention purges on one shard. The verifier explains a gap only
through a time that a later link or the checkpoint carries, so an honest purge is accepted
because the newest time through a purged row is old itself.

Proved here:
* `pushAll_surviving`: what the verifier reports of a chain with rows missing.
* `Linked.surviving`: what is left of a stamped chain when only old rows are purged.
* `honest_run_no_false_alarm`: every such run verifies without a finding, and the retention
  gaps are the maximal ranges of purged numbers.
-/

namespace Harvest.Audit

open Harvest.Lib

/-! ## A chain with rows missing -/

section Surviving

variable {K : Type} (hmac : K → Bytes → ChainHash) (texts : TimeText)

/-- Rows of a chain that ends at the checkpoint. Each row verifies and follows the one before
it, or comes after a gap that it explains; a gap at the end is explained by the checkpoint. -/
def Surviving (keys : List K) (old : Int64 → Bool) (cp : ChainCheckpoint) :
    Option Previous → List ChainRow → Prop
  | previous, [] =>
    let next := ChainVerifier.nextSeq cp.startSeq (previous.map Previous.seq)
    (next = cp.headSeq.toInt + 1 ∧ ∀ p ∈ previous, p.hash = some cp.head) ∨
      (next ≤ cp.headSeq.toInt ∧ old cp.newestAt = true)
  | previous, row :: rest =>
    let next := ChainVerifier.nextSeq cp.startSeq (previous.map Previous.seq)
    ChainVerifier.ownHashMatches hmac texts keys row = true ∧
      ((row.record.seq.toInt = next ∧
          ∀ p ∈ previous, row.prev = p.hash ∧ row.newestBefore = p.newest) ∨
        (next < row.record.seq.toInt ∧ row.newestBefore.any old = true)) ∧
      Surviving keys old cp (some ⟨row.record.seq, row.hash,
        some (newestThrough row.newestBefore row.record.occurredAt)⟩) rest

/-- The gaps of a chain as findings. -/
def gapFindings (gaps : List (Int × Int)) : List ChainFinding :=
  gaps.map fun g => .gap g.1 g.2

namespace ChainVerifier

variable {hmac texts}

/-- A verifier that has seen the chain through `previous`, and nothing else of note. -/
structure Tracks (v : ChainVerifier K) (ks : List K) (limit : Option Int64) (first : Int64)
    (before : Option Previous) (found : List (Int × Int)) : Prop where
  keys : v.keys = ks
  cutoff : v.retentionCutoff = limit
  start : v.report.startSeq = some first
  known : v.knownHead = none
  previous : v.previous = before
  last : v.report.lastSeq = before.map Previous.seq ∧
    v.report.lastHash = before.bind Previous.hash
  findings : v.report.findings = []
  gaps : v.report.retentionGaps = gapFindings found
  chained : ∀ p ∈ before, Previous.hash p ≠ none

section Push

variable {v : ChainVerifier K} {keys : List K} {cutoff : Option Int64} {start : Int64}
variable {previous : Option Previous} {found : List (Int × Int)} {row : ChainRow}

/-- The state after a row of the chain that verifies. -/
def afterRow (row : ChainRow) : Previous :=
  ⟨row.record.seq, row.hash, some (newestThrough row.newestBefore row.record.occurredAt)⟩

theorem hash_ne_none (hvalid : ownHashMatches hmac texts keys row = true) : row.hash ≠ none := by
  obtain ⟨_, _, _, _, hhash⟩ := (ownHashMatches_iff hmac texts).mp hvalid
  simp [hhash]

/-- The rest of `push` once the gap test is done and the link test finds nothing. -/
theorem Tracks.pushChained {v' : ChainVerifier K}
    (h : Tracks v' keys cutoff start previous found) (hkeys : v.keys = keys)
    (hvalid : ownHashMatches hmac texts keys row = true)
    (hgap : v.checkGap row.record.seq row.newestBefore = v')
    (hlink : v'.checkLink row = v') :
    Tracks (v.pushChained hmac texts row) keys cutoff start (some (afterRow row)) found := by
  obtain ⟨hash, hhash⟩ := Option.ne_none_iff_exists'.mp (hash_ne_none hvalid)
  rw [← hkeys] at hvalid
  simp only [ChainVerifier.pushChained, hvalid, if_true, hgap, hhash, hlink]
  exact {
    keys := h.keys
    cutoff := h.cutoff
    start := h.start
    known := h.known
    previous := by simp [afterRow, hhash]
    last := by simp [afterRow, hhash]
    findings := h.findings
    gaps := h.gaps
    chained := by simp [afterRow, hhash] }

theorem Tracks.push_eq (h : Tracks v keys cutoff start previous found)
    (hin : start.toInt ≤ row.record.seq.toInt) :
    v.push hmac texts row = v.pushChained hmac texts row := by
  have hsame : v.checkKnown row = v := by simp [checkKnown, h.known]
  rw [push_inChain h.start hin, hsame]

/-- The next row of the chain. -/
theorem Tracks.push_next (h : Tracks v keys cutoff start previous found)
    (hin : start.toInt ≤ row.record.seq.toInt)
    (hvalid : ownHashMatches hmac texts keys row = true)
    (hnext : row.record.seq.toInt = nextSeq start (previous.map Previous.seq))
    (hlink : ∀ p ∈ previous, row.prev = p.hash ∧ row.newestBefore = p.newest) :
    Tracks (v.push hmac texts row) keys cutoff start (some (afterRow row)) found := by
  have hgap : v.checkGap row.record.seq row.newestBefore = v := by
    unfold checkGap
    rw [h.previous]
    cases previous with
    | none =>
      simp only [Option.map_none, nextSeq] at hnext
      simp [h.start, hnext]
    | some p =>
      simp only [Option.map_some, nextSeq] at hnext
      simp [hnext]
  have hsame : v.checkLink row = v := by
    unfold checkLink
    rw [h.previous]
    cases previous with
    | none => rfl
    | some p =>
      obtain ⟨hprev, hnewest⟩ := hlink p rfl
      obtain ⟨seq, hash, newest⟩ := p
      cases hash <;> simp_all
  rw [h.push_eq hin]
  exact h.pushChained h.keys hvalid hgap hsame

/-- A gap that is explained. -/
theorem Tracks.gap (h : Tracks v keys cutoff start previous found) {a b : Int}
    {newest : Option Int64} (hold : newest.any v.isOld = true) :
    Tracks (v.gap a b newest) keys cutoff start previous (found ++ [(a, b)]) := by
  simp only [ChainVerifier.gap, hold, if_true]
  exact {
    keys := h.keys
    cutoff := h.cutoff
    start := h.start
    known := h.known
    previous := h.previous
    last := h.last
    findings := h.findings
    gaps := by simp [h.gaps, gapFindings]
    chained := h.chained }

/-- A row of the chain after a gap that it explains. -/
theorem Tracks.push_gap (h : Tracks v keys cutoff start previous found)
    (hin : start.toInt ≤ row.record.seq.toInt)
    (hvalid : ownHashMatches hmac texts keys row = true)
    (hnext : nextSeq start (previous.map Previous.seq) < row.record.seq.toInt)
    (hold : row.newestBefore.any v.isOld = true) :
    Tracks (v.push hmac texts row) keys cutoff start (some (afterRow row))
      (found ++ [(nextSeq start (previous.map Previous.seq) - 1, row.record.seq.toInt)]) := by
  have hgap : v.checkGap row.record.seq row.newestBefore =
      v.gap (nextSeq start (previous.map Previous.seq) - 1) row.record.seq.toInt
        row.newestBefore := by
    unfold checkGap
    rw [h.previous]
    cases previous with
    | none =>
      simp only [Option.map_none, nextSeq] at hnext ⊢
      simp [h.start, hnext]
    | some p =>
      simp only [Option.map_some, nextSeq] at hnext ⊢
      rw [if_pos (by omega), Int.add_sub_cancel]
  have htracks := h.gap (a := nextSeq start (previous.map Previous.seq) - 1)
    (b := row.record.seq.toInt) hold
  have hsame : (v.gap (nextSeq start (previous.map Previous.seq) - 1) row.record.seq.toInt
      row.newestBefore).checkLink row = v.gap (nextSeq start (previous.map Previous.seq) - 1)
        row.record.seq.toInt row.newestBefore := by
    unfold checkLink
    rw [htracks.previous]
    cases previous with
    | none => rfl
    | some p =>
      obtain ⟨seq, hash, newest⟩ := p
      simp only [Option.map_some, nextSeq] at hnext
      cases hash with
      | none => rfl
      | some hash => exact if_neg fun hlink => by omega
  rw [h.push_eq hin]
  exact htracks.pushChained h.keys hvalid hgap hsame

/-- `is_old` under a cutoff. -/
def oldUnder (cutoff : Option Int64) (at_ : Int64) : Bool :=
  match cutoff with
  | none => false
  | some cutoff => at_.toInt < cutoff.toInt + retentionSlack

theorem Tracks.isOld_eq (h : Tracks v keys cutoff start previous found) :
    v.isOld = oldUnder cutoff := by
  funext at_
  have hcutoff := h.cutoff
  cases cutoff with
  | none => simp only [isOld, oldUnder, hcutoff]
  | some cutoff => simp only [isOld, oldUnder, hcutoff]

theorem Tracks.found_eq (h : Tracks v keys cutoff start previous found) :
    v.found = previous.bind fun p => p.hash.map fun hash => (p.seq, hash) := by
  unfold ChainVerifier.found
  rw [h.last.1, h.last.2]
  cases previous <;> rfl

/-- The end of the chain: the head was seen, or the checkpoint explains why not. -/
theorem Tracks.checkHead {cp : ChainCheckpoint}
    (h : Tracks v keys cutoff cp.startSeq previous found)
    (hend : Surviving hmac texts keys (oldUnder cutoff) cp previous []) :
    Tracks (v.checkHead cp) keys cutoff cp.startSeq previous
      (found ++ Lib.gaps (nextSeq cp.startSeq (previous.map Previous.seq)) cp.headSeq.toInt []) := by
  have hfound := h.found_eq
  unfold ChainVerifier.checkHead Lib.gaps
  rcases hend with ⟨hnext, hhash⟩ | ⟨hnext, hold⟩
  · -- the head itself, or a chain with no row yet
    rw [if_neg (show ¬ nextSeq cp.startSeq (previous.map Previous.seq) ≤ cp.headSeq.toInt by omega),
      List.append_nil]
    cases previous with
    | none =>
      simp only [Option.map_none, nextSeq] at hnext
      have hempty : v.found = none ∧ cp.headSeq.toInt < cp.startSeq.toInt := ⟨hfound, by omega⟩
      rw [if_neg (by simp [hempty.1]), if_pos hempty]
      exact h
    | some p =>
      simp only [Option.map_some, nextSeq] at hnext
      have hseq : p.seq = cp.headSeq := Int64.toInt_inj.mp (by omega)
      have hhead : v.found = some (cp.headSeq, cp.head) := by
        rw [hfound]
        simp [hhash p rfl, hseq]
      rw [if_pos hhead]
      exact h
  · rw [if_pos hnext]
    have hbefore : ∀ f ∈ v.found, f.1.toInt < cp.headSeq.toInt := by
      rw [hfound]
      cases previous with
      | none => simp
      | some p =>
        simp only [Option.map_some, nextSeq] at hnext
        intro f hf
        obtain ⟨hash, -, rfl⟩ := Option.map_eq_some_iff.mp hf
        show p.seq.toInt < cp.headSeq.toInt
        omega
    have hother : v.found ≠ some (cp.headSeq, cp.head) := by
      intro hhead
      have := hbefore _ hhead
      simp at this
    have hrows : ¬ (v.found = none ∧ cp.headSeq.toInt < cp.startSeq.toInt) := by
      rintro ⟨hnone, hempty⟩
      cases previous with
      | none =>
        simp only [Option.map_none, nextSeq] at hnext
        omega
      | some p =>
        rw [hfound] at hnone
        exact h.chained p rfl (by simpa using hnone)
    rw [if_neg hother, if_neg hrows, if_pos ⟨hbefore, by rw [h.isOld_eq]; exact hold⟩]
    have hafter : (v.report.lastSeq.map Int64.toInt).getD (cp.startSeq.toInt - 1) =
        nextSeq cp.startSeq (previous.map Previous.seq) - 1 := by
      rw [h.last.1]
      cases previous with
      | none => rfl
      | some p => simp [nextSeq]
    exact {
      keys := h.keys
      cutoff := h.cutoff
      start := h.start
      known := h.known
      previous := h.previous
      last := h.last
      findings := h.findings
      gaps := by simp [h.gaps, gapFindings, hafter]
      chained := h.chained }

/-- **A chain with rows missing verifies** when each gap is explained, and its gaps are the
gaps between the rows. -/
theorem pushAll_surviving {cp : ChainCheckpoint} {rows : List ChainRow} :
    ∀ {v : ChainVerifier K} {previous : Option Previous} {found : List (Int × Int)},
      Tracks v keys cutoff cp.startSeq previous found →
      cp.startSeq.toInt ≤ nextSeq cp.startSeq (previous.map Previous.seq) →
      Surviving hmac texts keys (oldUnder cutoff) cp previous rows →
      ∃ previous', Tracks ((v.pushAll hmac texts rows).checkHead cp) keys cutoff cp.startSeq previous'
        (found ++ Lib.gaps (nextSeq cp.startSeq (previous.map Previous.seq)) cp.headSeq.toInt
          (rows.map fun row => row.record.seq.toInt)) := by
  induction rows with
  | nil =>
    intro v previous found h _ hend
    exact ⟨previous, h.checkHead hend⟩
  | cons row rows ih =>
    intro v previous found h hreached hsurviving
    obtain ⟨hvalid, hplace, hrest⟩ := hsurviving
    have hnext' : nextSeq cp.startSeq ((some (afterRow row)).map Previous.seq) =
        row.record.seq.toInt + 1 := rfl
    rcases hplace with ⟨hnext, hlink⟩ | ⟨hnext, hold⟩
    · have hrow := h.push_next (by omega) hvalid hnext hlink
      obtain ⟨previous', htracks⟩ := ih hrow (by omega) hrest
      refine ⟨previous', ?_⟩
      rw [hnext'] at htracks
      rw [List.map_cons, Lib.gaps, if_pos hnext, List.nil_append]
      exact htracks
    · have hrow := h.push_gap (by omega) hvalid hnext (by rw [h.isOld_eq]; exact hold)
      obtain ⟨previous', htracks⟩ := ih hrow (by omega) hrest
      refine ⟨previous', ?_⟩
      rw [hnext', List.append_assoc] at htracks
      rw [List.map_cons, Lib.gaps, if_neg (by omega)]
      exact htracks

end Push

end ChainVerifier

/-! ## What is left of a stamped chain -/

section Left

variable {hmac texts}

/-- The newest time through a stamp is the time of a row at or before it. -/
theorem Linked.newest_attained {chain : List Stamp} :
    ∀ {prev : ChainHash} {newest : Option Int64} {seq : Int}, Linked prev newest seq chain →
      ∀ s ∈ chain, newest = some s.newest ∨
        ∃ s' ∈ chain, s'.record.seq.toInt ≤ s.record.seq.toInt ∧ s.newest = s'.record.occurredAt := by
  induction chain with
  | nil => simp
  | cons s chain ih =>
    rintro prev newest seq ⟨hprev, hnewest, hseq, hrest⟩ s₁ hs₁
    have hself : newest = some s.newest ∨ s.newest = s.record.occurredAt := by
      unfold Stamp.newest newestThrough
      rw [hnewest]
      cases newest with
      | none => exact .inr rfl
      | some t =>
        simp only
        split
        · exact .inr rfl
        · exact .inl rfl
    rcases List.mem_cons.mp hs₁ with rfl | htail
    · exact hself.imp_right fun h => ⟨s₁, List.mem_cons_self, Int.le_refl _, h⟩
    · have hafter := hrest.seq_ge s₁ htail
      rcases ih hrest s₁ htail with hcarried | ⟨s', hs', hle, heq⟩
      · have hsame : s₁.newest = s.newest := (Option.some.inj hcarried).symm
        rw [hsame]
        exact hself.imp_right fun h => ⟨s, List.mem_cons_self, by omega, h⟩
      · exact .inr ⟨s', List.mem_cons_of_mem _ hs', hle, heq⟩

/-- **What is left of a chain** when the newest time through each purged row is old. The
verifier stands at `previous`: right before the chain, or before a gap that is old. -/
theorem Linked.surviving {keys : List K} {old : Int64 → Bool} {cp : ChainCheckpoint}
    {live chain : List Stamp} (hlive : live.Sublist chain) :
    ∀ {prev : ChainHash} {newest : Option Int64} {seq : Int} {previous : Option Previous},
      Linked prev newest seq chain → (∀ s ∈ chain, MadeUnder hmac texts keys s) →
      (∀ s ∈ chain, s ∉ live → old s.newest = true) →
      seq + chain.length = cp.headSeq.toInt + 1 →
      ((chain = [] ∧ previous = none ∧ newest = none) ∨
        tip prev newest chain = (cp.head, some cp.newestAt)) →
      ((seq = ChainVerifier.nextSeq cp.startSeq (previous.map Previous.seq) ∧
          ∀ p ∈ previous, p.hash = some prev ∧ p.newest = newest) ∨
        (ChainVerifier.nextSeq cp.startSeq (previous.map Previous.seq) < seq ∧
          newest.any old = true)) →
      Surviving hmac texts keys old cp previous (live.map Stamp.chainRow) := by
  induction hlive with
  | slnil =>
    intro prev newest seq previous _ _ _ hlength htip hplace
    simp only [List.length_nil] at hlength
    rcases hplace with ⟨hnext, hprevious⟩ | ⟨hnext, hold⟩
    · refine .inl ⟨by omega, fun p hp => ?_⟩
      rcases htip with ⟨-, hnone, -⟩ | htip
      · rw [hnone] at hp
        cases hp
      · rw [(hprevious p hp).1]
        exact congrArg (fun t => some t.1) htip
    · refine .inr ⟨by omega, ?_⟩
      have hnewest : newest = some cp.newestAt := by
        rcases htip with ⟨-, -, hnone⟩ | htip
        · simp [hnone] at hold
        · exact congrArg Prod.snd htip
      rwa [hnewest, Option.any_some] at hold
  | @cons live chain s hsub ih =>
    rintro prev newest seq previous ⟨hprev, hnewest, hseq, hrest⟩ hmade hold hlength htip hplace
    have hgone : s ∉ live := fun hmem => by
      have := hrest.seq_ge s (hsub.subset hmem)
      omega
    have hpurged := hold s List.mem_cons_self hgone
    rw [List.length_cons] at hlength
    refine ih hrest (fun s' hs' => hmade s' (List.mem_cons_of_mem _ hs'))
      (fun s' hs' => hold s' (List.mem_cons_of_mem _ hs')) (by omega)
      (.inr (htip.resolve_left fun h => List.cons_ne_nil _ _ h.1)) (.inr ⟨?_, hpurged⟩)
    rcases hplace with ⟨hnext, -⟩ | ⟨hnext, -⟩ <;> omega
  | @cons_cons live chain s hsub ih =>
    rintro prev newest seq previous ⟨hprev, hnewest, hseq, hrest⟩ hmade hold hlength htip hplace
    obtain ⟨key, hkey, hhash⟩ := hmade s List.mem_cons_self
    rw [List.length_cons] at hlength
    refine ⟨(ChainVerifier.ownHashMatches_iff hmac texts).mpr
      ⟨key, hkey, s.prev, rfl, congrArg some hhash⟩, ?_, ?_⟩
    · rcases hplace with ⟨hnext, hprevious⟩ | ⟨hnext, hgap⟩
      · refine .inl ⟨hseq.trans hnext, fun p hp => ?_⟩
        obtain ⟨hphash, hpnewest⟩ := hprevious p hp
        exact ⟨by rw [hphash, ← hprev]; rfl, by rw [hpnewest, ← hnewest]; rfl⟩
      · refine .inr ⟨hseq ▸ hnext, ?_⟩
        show s.newestBefore.any old = true
        rw [hnewest, hgap]
    · refine ih hrest (fun s' hs' => hmade s' (List.mem_cons_of_mem _ hs')) ?_ (by omega)
        (.inr (htip.resolve_left fun h => List.cons_ne_nil _ _ h.1)) (.inl ⟨?_, ?_⟩)
      · intro s' hs' hgone
        have hafter := hrest.seq_ge s' hs'
        refine hold s' (List.mem_cons_of_mem _ hs') fun hmem => ?_
        rcases List.mem_cons.mp hmem with rfl | hmem
        · omega
        · exact hgone hmem
      · exact congrArg (· + 1) hseq.symm
      · intro p hp
        cases hp
        exact ⟨rfl, rfl⟩

end Left
end Surviving

/-! ## Ticks, re-anchors and purges -/

/-- `ORDER BY export_seq ASC`, rows without a number last. -/
def seqLe (row row' : AuditExportRow) : Bool :=
  match row.exportSeq, row'.exportSeq with
  | _, none => true
  | none, some _ => false
  | some a, some b => a.toInt ≤ b.toInt

theorem seqLe_trans (a b c : AuditExportRow) (hab : seqLe a b = true) (hbc : seqLe b c = true) :
    seqLe a c = true := by
  unfold seqLe at *
  cases ha : a.exportSeq <;> cases hb : b.exportSeq <;> cases hc : c.exportSeq <;>
    simp_all
  omega

theorem seqLe_total (a b : AuditExportRow) : (seqLe a b || seqLe b a) = true := by
  unfold seqLe
  cases ha : a.exportSeq <;> cases hb : b.exportSeq <;> simp_all
  omega

theorem seqLe_imp {a b : AuditExportRow} (h : seqLe a b = true) : a.SeqLe b := by
  intro x hx y hy
  rw [Option.mem_def] at hx hy
  simpa [seqLe, hx, hy] using h

/-- The tables with these rows. -/
def Database.ofRows (cursors : List AuditExportCursor) (rows : List AuditExportRow) : Database where
  cursors := cursors
  log := rows.mergeSort seqLe
  ordered := by
    have hsorted : (rows.mergeSort seqLe).Pairwise fun row row' => seqLe row row' = true :=
      List.pairwise_mergeSort seqLe_trans seqLe_total rows
    exact hsorted.imp fun h => seqLe_imp h

/-- `SET export_seq = $1 + claimed.rn`: the next numbers, in the order of the claim. -/
def numberRows (last : Int64) : List AuditExportRow → List AuditExportRow
  | [] => []
  | row :: rows => { row with exportSeq := some (last + 1) } :: numberRows (last + 1) rows

/-- The `UPDATE` of `stamp_chain`. -/
def writeStamps (shard : Int32) (stamps : List Stamp) (rows : List AuditExportRow) :
    List AuditExportRow :=
  rows.map fun row =>
    match stamps.find? fun s => s.record.id = row.id with
    | none => row
    | some s => { row with
        chainPrev := some s.prev.val, chainNewestBefore := s.newestBefore
        chainHash := some s.hash.val, chainShard := some shard }

section Run

variable {K : Type} (hmac : K → Bytes → ChainHash) (texts : TimeText) (shard : Int32)

/-- The cursor columns that `write_checkpoint` sets. -/
def AuditExportCursor.withCheckpoint (cursor : AuditExportCursor) (key : K) (cp : ChainCheckpoint) :
    AuditExportCursor :=
  { cursor with
    chainStartSeq := some cp.startSeq, chainHeadSeq := some cp.headSeq
    chainHead := some cp.head.val, chainNewestAt := some cp.newestAt
    chainMac := some (cp.mac hmac key shard).val }

/-- The shard with its history: what the checks of a run speak about, beside the tables. -/
structure ShardRun (K : Type) where
  db : Database
  /-- The stamps of the current chain. -/
  chain : List Stamp := []
  /-- The times of all rows, in the order of their numbers. -/
  occurred : List Int64 := []
  /-- The key of the stored checkpoint. -/
  signer : Option K := none
  /-- The keys used so far. -/
  keys : List K := []
  /-- The cutoffs of the purges so far. -/
  cutoffs : List Int64 := []

inductive ShardAction (K : Type) where
  /-- A tick that finds `rows` without a number, in the order of its claim. -/
  | tick (key : AuditChainKey K) (rows : List AuditExportRow)
  | reanchor (key : AuditChainKey K) (now : Int64)
  /-- A purge of those stamped rows before the cutoff that it picks. -/
  | purge (cutoff : Int64) (picked : AuditExportRow → Bool)

/-- The cursors with the shard's own replaced. -/
def setCursor (cursors : List AuditExportCursor) (cursor : AuditExportCursor) :
    List AuditExportCursor :=
  cursors.map fun c => if c.shardId = cursor.shardId then cursor else c

/-- A tick of the exporter: number the rows, stamp them, move the cursor. -/
def tickShard (run : ShardRun K) (key : AuditChainKey K) (rows : List AuditExportRow)
    (cursor : AuditExportCursor) : ShardRun K :=
  let through := cursor.lastAssignedSeq + Int64.ofNat rows.length
  let numbered := Database.ofRows run.db.cursors
    (run.db.log ++ numberRows cursor.lastAssignedSeq rows)
  let moved := { cursor with lastAssignedSeq := through }
  let occurred := run.occurred ++ rows.map AuditExportRow.occurredAt
  match claimShardChained hmac texts key numbered shard through with
  | none => { run with
      db := Database.ofRows (setCursor run.db.cursors moved) numbered.log, occurred }
  | some (stamps, cp) => { run with
      db := Database.ofRows
        (setCursor run.db.cursors (moved.withCheckpoint hmac shard key.active cp))
        (writeStamps shard stamps numbered.log)
      chain := run.chain ++ stamps
      occurred
      signer := some key.active
      keys := key.active :: run.keys }

def reanchorShard (run : ShardRun K) (key : AuditChainKey K) (now : Int64)
    (cursor : AuditExportCursor) : ShardRun K :=
  match reanchorShardChain run.db shard now with
  | none => run
  | some cp => { run with
      db := Database.ofRows
        (setCursor run.db.cursors (cursor.withCheckpoint hmac shard key.active cp)) run.db.log
      chain := []
      signer := some key.active
      keys := key.active :: run.keys }

/-- Whether a purge with this cutoff may delete the row. -/
def purgeable (cutoff : Int64) (row : AuditExportRow) : Bool :=
  row.chainHash.isSome && row.occurredAt.toInt < cutoff.toInt

def purgeShard (run : ShardRun K) (cutoff : Int64) (picked : AuditExportRow → Bool) : ShardRun K :=
  { run with
    db := Database.ofRows run.db.cursors
      (run.db.log.filter fun row => !(purgeable cutoff row && picked row))
    cutoffs := cutoff :: run.cutoffs }

def shardStep (run : ShardRun K) : ShardAction K → ShardRun K
  | .tick key rows =>
    match run.db.find shard with
    | none => run
    | some cursor =>
      if cursor.retiredAt.isSome then run else tickShard hmac texts shard run key rows cursor
  | .reanchor key now =>
    match run.db.find shard with
    | none => run
    | some cursor => reanchorShard hmac shard run key now cursor
  | .purge cutoff picked => purgeShard run cutoff picked

/-- `a` did not occur more than the slack after `b`, which has a later number. -/
def WithinSlack (a b : Int64) : Prop := a.toInt ≤ b.toInt + retentionSlack

/-- The cursor has `n` numbers left. -/
def numbersLeft (run : ShardRun K) (n : Nat) : Prop :=
  ∀ cursor, run.db.find shard = some cursor → cursor.lastAssignedSeq.toInt + n < 2 ^ 63

/-- What a run promises: the rows of a tick are new, its accept list holds the key of the
stored checkpoint, no row occurred more than the slack before a row with a smaller number, and
the numbers do not run out. -/
def ShardAllowed (run : ShardRun K) : ShardAction K → Prop
  | .tick key rows =>
    (rows.map AuditExportRow.id).Nodup ∧ (∀ row ∈ rows, ∀ old ∈ run.db.log, row.id ≠ old.id) ∧
      (∀ k ∈ run.signer, k ∈ key.active :: key.accepted) ∧
      (run.occurred ++ rows.map AuditExportRow.occurredAt).Pairwise WithinSlack ∧
      numbersLeft shard run rows.length
  | .reanchor _ _ => numbersLeft shard run 1
  | .purge _ _ => True

/-- A shard whose cursor was just created. -/
def ShardRun.start : ShardRun K :=
  { db := Database.ofRows
      [{ shardId := shard, lastAssignedSeq := 0, retiredAt := none, chainHead := none
         chainStartSeq := none, chainHeadSeq := none, chainNewestAt := none, chainMac := none }] [] }

/-- A number of the current chain whose row is gone. -/
def Deleted (run : ShardRun K) (n : Int) : Prop :=
  ∃ s ∈ run.chain, s.record.seq.toInt = n ∧ s.row ∉ run.db.log

end Run

/-! ## Numbered rows -/

/-- The number of a row that has one. -/
def rowSeq (row : AuditExportRow) : Int := (row.exportSeq.map Int64.toInt).getD 0

/-- Rows with numbers above `low` through `high`, each above the one before it. -/
structure Numbered (low high : Int) (rows : List AuditExportRow) : Prop where
  increasing : rows.Pairwise fun row row' => rowSeq row < rowSeq row'
  some_seq : ∀ row ∈ rows, ∃ seq, row.exportSeq = some seq ∧ low < seq.toInt ∧ seq.toInt ≤ high

theorem rowSeq_eq {row : AuditExportRow} {seq : Int64} (h : row.exportSeq = some seq) :
    rowSeq row = seq.toInt := by
  simp [rowSeq, h]

theorem toInt_succ {n : Int64} (h : n.toInt + 1 < 2 ^ 63) : (n + 1).toInt = n.toInt + 1 := by
  have hlow := n.le_toInt
  rw [Int64.toInt_add, show (1 : Int64).toInt = 1 from rfl]
  exact Int.bmod_eq_of_le (by omega) (by omega)

theorem toInt_add_ofNat {n : Int64} {k : Nat} (hlow : 0 ≤ n.toInt) (h : n.toInt + k < 2 ^ 63) :
    (n + Int64.ofNat k).toInt = n.toInt + k := by
  rw [Int64.toInt_add, Int64.toInt_ofNat_of_lt (by omega)]
  exact Int.bmod_eq_of_le (by omega) (by omega)

namespace Numbered

variable {low mid high : Int} {rows rows' : List AuditExportRow}

theorem mono (h : Numbered low high rows) {high' : Int} (hle : high ≤ high') :
    Numbered low high' rows where
  increasing := h.increasing
  some_seq := fun row hrow => by
    obtain ⟨seq, hseq, hl, hr⟩ := h.some_seq row hrow
    exact ⟨seq, hseq, hl, by omega⟩

theorem sublist (h : Numbered low high rows) (hsub : rows'.Sublist rows) :
    Numbered low high rows' where
  increasing := h.increasing.sublist hsub
  some_seq := fun row hrow => h.some_seq row (hsub.subset hrow)

theorem append (h : Numbered low mid rows) (h' : Numbered mid high rows') (hlow : low ≤ mid)
    (hhigh : mid ≤ high) : Numbered low high (rows ++ rows') where
  increasing := by
    refine List.pairwise_append.mpr ⟨h.increasing, h'.increasing, fun row hrow row' hrow' => ?_⟩
    obtain ⟨seq, hseq, -, hle⟩ := h.some_seq row hrow
    obtain ⟨seq', hseq', hgt, -⟩ := h'.some_seq row' hrow'
    rw [rowSeq_eq hseq, rowSeq_eq hseq']
    omega
  some_seq := fun row hrow => by
    rcases List.mem_append.mp hrow with hrow | hrow
    · obtain ⟨seq, hseq, hl, hr⟩ := h.some_seq row hrow
      exact ⟨seq, hseq, hl, by omega⟩
    · obtain ⟨seq, hseq, hl, hr⟩ := h'.some_seq row hrow
      exact ⟨seq, hseq, by omega, hr⟩

/-- Numbered rows are already in the order of the query. -/
theorem log_eq (h : Numbered low high rows) (cursors : List AuditExportCursor) :
    (Database.ofRows cursors rows).log = rows := by
  refine List.mergeSort_of_pairwise (h.increasing.imp_of_mem ?_)
  intro row row' hrow hrow' hlt
  obtain ⟨seq, hseq, -⟩ := h.some_seq row hrow
  obtain ⟨seq', hseq', -⟩ := h.some_seq row' hrow'
  rw [rowSeq_eq hseq, rowSeq_eq hseq'] at hlt
  simp only [seqLe, hseq, hseq', decide_eq_true_eq]
  omega

theorem sequenced_eq {db : Database} (h : Numbered low high db.log) {after bound : Int}
    (hafter : after ≤ low) (hbound : high ≤ bound) : db.sequenced after bound = db.log := by
  refine List.filter_eq_self.mpr fun row hrow => ?_
  obtain ⟨seq, hseq, hl, hr⟩ := h.some_seq row hrow
  exact inRange_iff.mpr ⟨seq, hseq, by omega, by omega⟩

/-- No two rows share a number, so the paging reads every row. -/
theorem readRows_eq {db : Database} (h : Numbered low high db.log) (bound after : Int) :
    db.readRows bound after = db.sequenced after bound := by
  fun_induction Database.readRows db bound after with
  | case1 after hend => exact (Database.page_end hend).symm
  | case2 after last hlast ih =>
    obtain ⟨lastRow, hmem, hseq⟩ := Database.last_mem_page hlast
    have hsorted : (db.sequenced after bound).Pairwise fun row row' => rowSeq row < rowSeq row' :=
      h.increasing.filter _
    rw [← List.take_append_drop verifyPageRows (db.sequenced after bound),
      List.pairwise_append] at hsorted
    have hbehind : ((db.sequenced after bound).drop verifyPageRows).filter
        (Database.inRange last.toInt bound) = (db.sequenced after bound).drop verifyPageRows := by
      refine List.filter_eq_self.mpr fun row hrow => ?_
      obtain ⟨-, seq, hrowSeq, -, hle⟩ := Database.mem_sequenced.mp (List.mem_of_mem_drop hrow)
      have hlt := hsorted.2.2 lastRow hmem row hrow
      rw [rowSeq_eq hseq, rowSeq_eq hrowSeq] at hlt
      exact inRange_iff.mpr ⟨seq, hrowSeq, hlt, hle⟩
    rw [ih, Database.sequenced_last hlast, hbehind]
    exact List.take_append_drop _ _

end Numbered

theorem Consecutive.numbered {rows : List AuditExportRow} :
    ∀ {after : Int}, Consecutive after rows → Numbered after (after + rows.length) rows := by
  induction rows with
  | nil =>
    intro after _
    exact ⟨List.Pairwise.nil, by simp⟩
  | cons row rows ih =>
    rintro after ⟨⟨seq, hseq, hnext⟩, hrest⟩
    have hfirst : Numbered after (after + 1) [row] :=
      ⟨List.pairwise_singleton _ _, fun r hr => by
        obtain rfl := List.mem_singleton.mp hr
        exact ⟨seq, hseq, by omega, by omega⟩⟩
    have hall := hfirst.append (ih hrest) (by omega) (by omega)
    rw [List.length_cons]
    exact hall.mono (by omega)

theorem numberRows_consecutive {rows : List AuditExportRow} :
    ∀ {last : Int64}, last.toInt + rows.length < 2 ^ 63 →
      Consecutive last.toInt (numberRows last rows) := by
  induction rows with
  | nil =>
    intro last _
    trivial
  | cons row rows ih =>
    intro last hroom
    rw [List.length_cons] at hroom
    have hsucc := toInt_succ (n := last) (by omega)
    refine ⟨⟨last + 1, rfl, hsucc⟩, ?_⟩
    rw [← hsucc]
    exact ih (by omega)

@[simp] theorem length_numberRows (rows : List AuditExportRow) :
    ∀ last : Int64, (numberRows last rows).length = rows.length := by
  induction rows with
  | nil => exact fun _ => rfl
  | cons row rows ih => exact fun last => congrArg (· + 1) (ih (last + 1))

/-- Numbering rows changes nothing but their numbers. -/
theorem map_numberRows {β : Type} {f : AuditExportRow → β}
    (hf : ∀ row seq, f { row with exportSeq := seq } = f row) (rows : List AuditExportRow) :
    ∀ last : Int64, (numberRows last rows).map f = rows.map f := by
  induction rows with
  | nil => exact fun _ => rfl
  | cons row rows ih => exact fun last => congrArg₂ List.cons (hf row _) (ih (last + 1))

/-! ## What a tick writes -/

section Tick

variable {K : Type} {hmac : K → Bytes → ChainHash} {texts : TimeText} {shard : Int32}

theorem stampRows_map {key : K} {rows : List AuditExportRow} {after : Int} :
    ∀ {prev : ChainHash} {newest : Option Int64}, Consecutive after rows →
      (stampRows hmac texts shard key prev newest rows).map (fun s => s.record.id) =
          rows.map AuditExportRow.id ∧
        (stampRows hmac texts shard key prev newest rows).map (fun s => s.record.occurredAt) =
          rows.map AuditExportRow.occurredAt := by
  induction rows generalizing after with
  | nil => exact fun _ => ⟨rfl, rfl⟩
  | cons row rows ih =>
    rintro prev newest ⟨⟨seq, hseq, -⟩, hrest⟩
    simp only [stampRows, AuditExportRecord.fromRow, hseq, Option.map_some, List.map_cons]
    exact ⟨congrArg (row.id :: ·) (ih hrest).1, congrArg (row.occurredAt :: ·) (ih hrest).2⟩

/-- A row without a stamp stays as it is. -/
theorem writeStamps_other {stamps : List Stamp} {rows : List AuditExportRow}
    (h : ∀ row ∈ rows, ∀ s ∈ stamps, s.record.id ≠ row.id) : writeStamps shard stamps rows = rows := by
  unfold writeStamps
  refine (List.map_congr_left fun row hrow => ?_).trans (List.map_id _)
  have hnone : (stamps.find? fun s => s.record.id = row.id) = none := by
    rw [List.find?_eq_none]
    intro s hs
    simpa using h row hrow s hs
  rw [hnone]
  rfl

/-- The `UPDATE` leaves each numbered row as its stamp says. -/
theorem writeStamps_stampRows {key : K} {rows : List AuditExportRow} {after : Int} :
    ∀ {prev : ChainHash} {newest : Option Int64}, Consecutive after rows →
      (rows.map AuditExportRow.id).Nodup →
      writeStamps shard (stampRows hmac texts shard key prev newest rows) rows =
        (stampRows hmac texts shard key prev newest rows).map Stamp.row := by
  induction rows generalizing after with
  | nil => exact fun _ _ => rfl
  | cons row rows ih =>
    rintro prev newest ⟨⟨seq, hseq, hnext⟩, hrest⟩ hids
    obtain ⟨hnew, hids⟩ := List.nodup_cons.mp hids
    obtain ⟨record, hrecord⟩ : ∃ record, AuditExportRecord.fromRow shard row = some record := by
      simp [AuditExportRecord.fromRow, hseq]
    have hid : record.id = row.id := by
      unfold AuditExportRecord.fromRow at hrecord
      simp only [hseq, Option.map_some, Option.some.injEq] at hrecord
      rw [← hrecord]
    have hrow : (⟨record, prev, newest, link hmac texts key prev newest record⟩ : Stamp).row =
        { row with
          chainPrev := some prev.val, chainNewestBefore := newest
          chainHash := some (link hmac texts key prev newest record).val
          chainShard := some shard } := by
      unfold AuditExportRecord.fromRow at hrecord
      simp only [hseq, Option.map_some, Option.some.injEq] at hrecord
      rw [← hrecord]
      cases row
      simp only at hseq
      simp [Stamp.row, hseq]
    simp only [stampRows, hrecord]
    rw [writeStamps, List.map_cons, List.map_cons, List.find?_cons_of_pos (by simp [hid])]
    refine congrArg₂ List.cons hrow.symm ?_
    -- The later rows have other ids, so their stamps are found behind this one.
    rw [← ih hrest hids]
    refine List.map_congr_left fun r hr => ?_
    have hother : record.id ≠ r.id := by
      rw [hid]
      intro heq
      exact hnew (heq ▸ List.mem_map.mpr ⟨r, hr, rfl⟩)
    rw [List.find?_cons_of_neg (by simpa using hother)]

end Tick

/-! ## The invariant of a run -/

section Invariant

variable {K : Type} (hmac : K → Bytes → ChainHash) (texts : TimeText) (shard : Int32)

/-- The tables of a run: one live cursor, and numbered rows up to it. -/
structure Kept (run : ShardRun K) (cursor : AuditExportCursor) : Prop where
  cursors : run.db.cursors = [cursor]
  shardId : cursor.shardId = shard
  live : cursor.retiredAt = none
  low : 0 ≤ cursor.lastAssignedSeq.toInt
  numbered : Numbered 0 cursor.lastAssignedSeq.toInt run.db.log
  slack : run.occurred.Pairwise WithinSlack

/-- A run that has no checkpoint yet. -/
structure Fresh (run : ShardRun K) (cursor : AuditExportCursor) : Prop where
  chain : run.chain = []
  log : run.db.log = []
  stored : storedCheckpoint cursor = none
  columns : hasCheckpointColumn cursor = false

/-- A run with a checkpoint: it stands for the current chain, and the rows from its start on
are what the purges have left of that chain. -/
structure Chained (run : ShardRun K) (cursor : AuditExportCursor) (cp : ChainCheckpoint) (k : K) :
    Prop where
  signer : run.signer = some k
  used : k ∈ run.keys
  stored : storedCheckpoint cursor = some (cp, cp.mac hmac k shard)
  head : cp.headSeq = cursor.lastAssignedSeq
  start_pos : 0 < cp.startSeq.toInt
  linked : Linked genesis none cp.startSeq.toInt run.chain
  length : cp.startSeq.toInt + run.chain.length = cp.headSeq.toInt + 1
  tip : run.chain ≠ [] → tip genesis none run.chain = (cp.head, some cp.newestAt)
  shards : ∀ s ∈ run.chain, s.record.shard = shard
  made : ∀ s ∈ run.chain, MadeUnder hmac texts run.keys s
  times : (run.chain.map fun s => s.record.occurredAt) <:+ run.occurred
  rows : ∃ (old : List AuditExportRow) (left : List Stamp), run.db.log = old ++ left.map Stamp.row ∧
    left.Sublist run.chain ∧ ∀ row ∈ old, rowSeq row < cp.startSeq.toInt
  purged : ∀ s ∈ run.chain, s.row ∉ run.db.log →
    ∃ c ∈ run.cutoffs, s.record.occurredAt.toInt < c.toInt

/-- The anchor stands at the end of the current chain, which starts at `start`. -/
structure AnchorAt (run : ShardRun K) (cursor : AuditExportCursor) (anchor : ChainAnchor)
    (start : Int) : Prop where
  start_pos : 0 < start
  startSeq : ∀ s ∈ anchor.startSeq, s.toInt = start
  newChain : anchor.startSeq = none → start = cursor.lastAssignedSeq.toInt + 1
  linked : Linked genesis none start run.chain
  length : start + run.chain.length = cursor.lastAssignedSeq.toInt + 1
  tip : tip genesis none run.chain = (anchor.head.getD genesis, anchor.newestAt)
  shards : ∀ s ∈ run.chain, s.record.shard = shard
  made : ∀ s ∈ run.chain, MadeUnder hmac texts run.keys s
  times : (run.chain.map fun s => s.record.occurredAt) <:+ run.occurred
  rows : ∃ (old : List AuditExportRow) (left : List Stamp), run.db.log = old ++ left.map Stamp.row ∧
    left.Sublist run.chain ∧ ∀ row ∈ old, rowSeq row < start
  purged : ∀ s ∈ run.chain, s.row ∉ run.db.log →
    ∃ c ∈ run.cutoffs, s.record.occurredAt.toInt < c.toInt

def HonestRun (run : ShardRun K) : Prop :=
  ∃ cursor, Kept shard run cursor ∧
    (Fresh run cursor ∨ ∃ cp k, Chained hmac texts shard run cursor cp k)

variable {hmac texts shard} {run : ShardRun K} {cursor : AuditExportCursor}

theorem Kept.find (h : Kept shard run cursor) : run.db.find shard = some cursor := by
  simp [Database.find, h.cursors, h.shardId]

theorem Kept.setCursor (h : Kept shard run cursor) {c : AuditExportCursor}
    (hc : c.shardId = cursor.shardId) : setCursor run.db.cursors c = [c] := by
  simp [Audit.setCursor, h.cursors, hc]

theorem honestRun_start : HonestRun hmac texts shard (ShardRun.start shard : ShardRun K) := by
  refine ⟨_, ⟨rfl, rfl, rfl, Int.le_refl _, ?_, List.Pairwise.nil⟩, .inl ⟨rfl, ?_, rfl, rfl⟩⟩
  · exact ⟨by simp [ShardRun.start, Database.ofRows], by simp [ShardRun.start, Database.ofRows]⟩
  · simp [ShardRun.start, Database.ofRows]

/-! ### Purges -/

/-- A purge keeps what it does not pick, and picks only stamped rows before its cutoff. -/
theorem honestRun_purge (h : HonestRun hmac texts shard run) (cutoff : Int64)
    (picked : AuditExportRow → Bool) :
    HonestRun hmac texts shard (purgeShard run cutoff picked) := by
  obtain ⟨cursor, hkept, hchain⟩ := h
  have hsub := List.filter_sublist (l := run.db.log)
    (p := fun row => !(purgeable cutoff row && picked row))
  have hnumbered := hkept.numbered.sublist hsub
  have hlog : (purgeShard run cutoff picked).db.log =
      run.db.log.filter fun row => !(purgeable cutoff row && picked row) := hnumbered.log_eq _
  refine ⟨cursor, ⟨hkept.cursors, hkept.shardId, hkept.live, hkept.low, hlog ▸ hnumbered,
    hkept.slack⟩, ?_⟩
  rcases hchain with hfresh | ⟨cp, k, hchain⟩
  · refine .inl ⟨hfresh.chain, ?_, hfresh.stored, hfresh.columns⟩
    rw [hlog, hfresh.log, List.filter_nil]
  · refine .inr ⟨cp, k, { hchain with rows := ?_, purged := ?_ }⟩
    · obtain ⟨old, live, hrows, hlive, hold⟩ := hchain.rows
      refine ⟨old.filter fun row => !(purgeable cutoff row && picked row),
        live.filter fun s => !(purgeable cutoff s.row && picked s.row), ?_, ?_, ?_⟩
      · rw [hlog, hrows, List.filter_append, List.filter_map]
        rfl
      · exact List.filter_sublist.trans hlive
      · exact fun row hrow => hold row (List.mem_of_mem_filter hrow)
    · intro s hs hgone
      rw [hlog] at hgone
      by_cases hthere : s.row ∈ run.db.log
      · refine ⟨cutoff, List.mem_cons_self, ?_⟩
        have hpicked : (purgeable cutoff s.row && picked s.row) = true := by
          by_contra hnot
          rw [Bool.not_eq_true] at hnot
          exact hgone (List.mem_filter.mpr ⟨hthere, by simp [hnot]⟩)
        simp only [purgeable, Bool.and_eq_true, decide_eq_true_eq] at hpicked
        exact hpicked.1.2
      · obtain ⟨c, hc, hlt⟩ := hchain.purged s hs hthere
        exact ⟨c, List.mem_cons_of_mem _ hc, hlt⟩

/-! ### Re-anchors -/

theorem storedCheckpoint_withCheckpoint (cursor : AuditExportCursor) (key : K)
    (cp : ChainCheckpoint) :
    storedCheckpoint (cursor.withCheckpoint hmac shard key cp) =
      some (cp, cp.mac hmac key shard) := by
  simp [storedCheckpoint, AuditExportCursor.withCheckpoint, fromBytes_eq_some.mpr rfl]

theorem honestRun_reanchor (h : HonestRun hmac texts shard run) (key : AuditChainKey K)
    (now : Int64) (hleft : numbersLeft shard run 1) :
    HonestRun hmac texts shard (shardStep hmac texts shard run (.reanchor key now)) := by
  obtain ⟨cursor, hkept, -⟩ := h
  have hroom := hleft cursor hkept.find
  have hsucc := toInt_succ (n := cursor.lastAssignedSeq) (by omega)
  simp only [shardStep, hkept.find, reanchorShard, reanchorShardChain, Option.bind_eq_bind,
    Option.bind_some, Option.pure_def]
  generalize hcp : (⟨cursor.lastAssignedSeq + 1, cursor.lastAssignedSeq, genesis, now⟩ :
    ChainCheckpoint) = cp
  have hstart : cp.startSeq.toInt = cursor.lastAssignedSeq.toInt + 1 := by rw [← hcp, hsucc]
  have hhead : cp.headSeq = cursor.lastAssignedSeq := by rw [← hcp]
  have hset := hkept.setCursor (c := cursor.withCheckpoint hmac shard key.active cp) rfl
  have hlow := hkept.low
  refine ⟨cursor.withCheckpoint hmac shard key.active cp, ⟨?_, hkept.shardId, hkept.live, hlow, ?_,
    hkept.slack⟩, .inr ⟨cp, key.active, ?_⟩⟩
  · exact hset
  · rw [hkept.numbered.log_eq]
    exact hkept.numbered
  · exact {
      signer := rfl
      used := List.mem_cons_self
      stored := storedCheckpoint_withCheckpoint cursor key.active cp
      head := hhead
      start_pos := by omega
      linked := trivial
      length := by
        rw [hhead, hstart]
        simp
      tip := fun hne => absurd rfl hne
      shards := by simp
      made := by simp
      times := List.nil_suffix
      rows := by
        refine ⟨run.db.log, [], ?_, List.nil_sublist _, fun row hrow => ?_⟩
        · rw [List.map_nil, List.append_nil]
          exact hkept.numbered.log_eq _
        · obtain ⟨seq, hseq, -, hle⟩ := hkept.numbered.some_seq row hrow
          rw [rowSeq_eq hseq]
          omega
      purged := by simp }

/-! ### Ticks -/

theorem Linked.numbered {chain : List Stamp} {prev : ChainHash} {newest : Option Int64}
    {after : Int} (h : Linked prev newest (after + 1) chain) :
    Numbered after (after + chain.length) (chain.map Stamp.row) where
  increasing := List.pairwise_map.mpr h.increasing
  some_seq := by
    intro row hrow
    obtain ⟨s, hs, rfl⟩ := List.mem_map.mp hrow
    have hge := h.seq_ge s hs
    have hlt := h.seq_lt s hs
    exact ⟨s.record.seq, rfl, by omega, by omega⟩

/-- The database that a tick finds once its rows have numbers. -/
def numberedDb (run : ShardRun K) (cursor : AuditExportCursor) (rows : List AuditExportRow) :
    Database :=
  Database.ofRows run.db.cursors (run.db.log ++ numberRows cursor.lastAssignedSeq rows)

section Tick

variable {key : AuditChainKey K} {rows : List AuditExportRow} {anchor : ChainAnchor}

theorem Kept.numberedDb_log (hkept : Kept shard run cursor)
    (hroom : cursor.lastAssignedSeq.toInt + rows.length < 2 ^ 63) :
    (numberedDb run cursor rows).log =
      run.db.log ++ numberRows cursor.lastAssignedSeq rows := by
  have hnew := (numberRows_consecutive hroom).numbered
  exact (hkept.numbered.append hnew hkept.low (by omega)).log_eq _

theorem Kept.numberedDb_sequenced (hkept : Kept shard run cursor)
    (hroom : cursor.lastAssignedSeq.toInt + rows.length < 2 ^ 63) :
    (numberedDb run cursor rows).sequenced cursor.lastAssignedSeq.toInt
        (cursor.lastAssignedSeq.toInt + rows.length) =
      numberRows cursor.lastAssignedSeq rows := by
  have hnew := (numberRows_consecutive hroom).numbered
  rw [length_numberRows] at hnew
  unfold Database.sequenced
  rw [hkept.numberedDb_log hroom, List.filter_append, List.filter_eq_nil_iff.mpr,
    List.filter_eq_self.mpr, List.nil_append]
  · intro row hrow
    obtain ⟨seq, hseq, hl, hr⟩ := hnew.some_seq row hrow
    exact inRange_iff.mpr ⟨seq, hseq, hl, hr⟩
  · intro row hrow hin
    obtain ⟨seq, hseq, hl, -⟩ := inRange_iff.mp hin
    obtain ⟨seq', hseq', -, hr⟩ := hkept.numbered.some_seq row hrow
    rw [hseq, Option.some.injEq] at hseq'
    subst hseq'
    omega

variable (texts) in
/-- A tick that finds an anchor stamps all its rows and signs their end. -/
theorem Kept.claim_eq (hkept : Kept shard run cursor) (hrows : rows ≠ [])
    (hroom : cursor.lastAssignedSeq.toInt + rows.length < 2 ^ 63)
    (hanchor : chainAnchor hmac (numberedDb run cursor rows) cursor key = .ok anchor) :
    let stamps := stampRows hmac texts shard key.active (anchor.head.getD genesis) anchor.newestAt
      (numberRows cursor.lastAssignedSeq rows)
    ∃ first last, stamps.head? = some first ∧ stamps.getLast? = some last ∧
      claimShardChained hmac texts key (numberedDb run cursor rows) shard
          (cursor.lastAssignedSeq + Int64.ofNat rows.length) =
        some (stamps, ⟨anchor.startSeq.getD first.record.seq, last.record.seq, last.hash,
          last.newest⟩) := by
  intro stamps
  have hthrough := toInt_add_ofNat hkept.low hroom
  have hpos : 0 < rows.length := List.length_pos_iff.mpr hrows
  have hlength : stamps.length = rows.length := by
    have hids : stamps.map (fun s => s.record.id) =
        (numberRows cursor.lastAssignedSeq rows).map AuditExportRow.id :=
      (stampRows_map (numberRows_consecutive hroom)).1
    simpa using congrArg List.length hids
  have hne : stamps ≠ [] := List.ne_nil_of_length_pos (by omega)
  obtain ⟨first, hfirst⟩ : ∃ first, stamps.head? = some first :=
    Option.ne_none_iff_exists'.mp (by simpa using hne)
  obtain ⟨last, hlast⟩ : ∃ last, stamps.getLast? = some last :=
    Option.ne_none_iff_exists'.mp (by simpa using hne)
  have hfind : (numberedDb run cursor rows).find shard = some cursor := hkept.find
  have hchain : stampChain hmac texts (numberedDb run cursor rows) shard key.active
      cursor.lastAssignedSeq.toInt (cursor.lastAssignedSeq + Int64.ofNat rows.length).toInt
        anchor = stamps := by
    rw [stampChain, hthrough, hkept.numberedDb_sequenced hroom]
  have hless : cursor.lastAssignedSeq.toInt <
      (cursor.lastAssignedSeq + Int64.ofNat rows.length).toInt := by omega
  refine ⟨first, last, hfirst, hlast, ?_⟩
  simp only [claimShardChained, hfind, Option.bind_eq_bind, Option.bind_some, hkept.live, hanchor,
    hchain, guard, hless, if_true, Option.pure_def, stamped, hfirst, hlast]

/-- A run without a checkpoint starts its chain at the next number. -/
theorem Fresh.chainAnchor_eq (hkept : Kept shard run cursor) (hfresh : Fresh run cursor)
    (hroom : cursor.lastAssignedSeq.toInt + rows.length < 2 ^ 63) :
    chainAnchor hmac (numberedDb run cursor rows) cursor key = .ok {} ∧
      AnchorAt hmac texts shard run cursor {} (cursor.lastAssignedSeq.toInt + 1) := by
  have hlow := hkept.low
  constructor
  · have hother : (numberedDb run cursor rows).otherLiveCursor cursor.shardId = false := by
      simp [Database.otherLiveCursor, numberedDb, Database.ofRows, hkept.cursors]
    have hchained : (numberedDb run cursor rows).anyChainedRow cursor.lastAssignedSeq.toInt = false := by
      have hnew := (numberRows_consecutive hroom).numbered
      unfold Database.anyChainedRow
      rw [hkept.numberedDb_log hroom, hfresh.log, List.nil_append, List.any_eq_false]
      intro row hrow
      obtain ⟨seq, hseq, hgt, -⟩ := hnew.some_seq row hrow
      simp only [hseq, Option.any_some, Bool.and_eq_true, decide_eq_true_eq, not_and]
      intro _
      omega
    simp only [chainAnchor, hother, hfresh.stored, hfresh.columns, hchained, Bool.or_self,
      Bool.false_eq_true, if_false]
  · have hchain := hfresh.chain
    exact {
      start_pos := by omega
      startSeq := by simp
      newChain := fun _ => rfl
      linked := by rw [hchain]; trivial
      length := by simp [hchain]
      tip := by rw [hchain]; rfl
      shards := by simp [hchain]
      made := by simp [hchain]
      times := by simp [hchain]
      rows := ⟨[], [], by simp [hfresh.log], List.nil_sublist _, by simp⟩
      purged := by simp [hchain] }

variable (rows) in
/-- A run with a checkpoint goes on where its chain ends: the accept list holds the key. -/
theorem Chained.chainAnchor_eq {cp : ChainCheckpoint} {k : K} (hkept : Kept shard run cursor)
    (hchain : Chained hmac texts shard run cursor cp k) (haccept : k ∈ key.active :: key.accepted) :
    ∃ anchor, chainAnchor hmac (numberedDb run cursor rows) cursor key = .ok anchor ∧
      AnchorAt hmac texts shard run cursor anchor cp.startSeq.toInt := by
  have hother : (numberedDb run cursor rows).otherLiveCursor cursor.shardId = false := by
    simp [Database.otherLiveCursor, numberedDb, Database.ofRows, hkept.cursors]
  have haccepts : key.accepts hmac cp cursor.shardId (cp.mac hmac k shard) = true := by
    refine List.any_eq_true.mpr ⟨k, haccept, ?_⟩
    rw [hkept.shardId]
    exact decide_eq_true rfl
  have hlength := hchain.length
  refine ⟨⟨if cp.headSeq.toInt < cp.startSeq.toInt then none else some cp.head, some cp.startSeq,
    if cp.headSeq.toInt < cp.startSeq.toInt then none else some cp.newestAt⟩, ?_, ?_⟩
  · simp only [chainAnchor, hother, hchain.stored, haccepts, hchain.head, decide_true,
      Bool.and_self, Bool.false_eq_true, if_false, if_true]
  · exact {
      start_pos := hchain.start_pos
      startSeq := by simp
      newChain := by simp
      linked := hchain.linked
      length := by rw [hlength, hchain.head]
      tip := by
        by_cases hempty : cp.headSeq.toInt < cp.startSeq.toInt
        · -- an empty chain starts like a new one
          have hnil : run.chain = [] := List.length_eq_zero_iff.mp (by omega)
          rw [hnil, if_pos hempty, if_pos hempty]
          rfl
        · have hne : run.chain ≠ [] := fun hnil => by
            rw [hnil, List.length_nil] at hlength
            omega
          rw [hchain.tip hne]
          simp [hempty]
      shards := hchain.shards
      made := hchain.made
      times := hchain.times
      rows := hchain.rows
      purged := hchain.purged }

theorem Kept.ofRows_eq (hkept : Kept shard run cursor) :
    Database.ofRows run.db.cursors run.db.log = run.db := by
  have hlog := hkept.numbered.log_eq run.db.cursors
  generalize run.db = db at hlog ⊢
  cases db
  unfold Database.ofRows at hlog ⊢
  simp only at hlog
  simp only [hlog]

/-- A tick that finds no row changes nothing. -/
theorem Kept.tick_nil (hkept : Kept shard run cursor) :
    tickShard hmac texts shard run key [] cursor = run := by
  have hthrough : cursor.lastAssignedSeq + Int64.ofNat ([] : List AuditExportRow).length =
      cursor.lastAssignedSeq := Int64.add_zero _
  have hnumbered : numberRows cursor.lastAssignedSeq [] = [] := rfl
  have hset := hkept.setCursor (c := cursor) rfl
  rw [← hkept.cursors] at hset
  have hclaim : claimShardChained hmac texts key run.db shard cursor.lastAssignedSeq = none := by
    simp [claimShardChained, hkept.find, hkept.live, guard]
  simp only [tickShard, hthrough, hnumbered, List.append_nil, List.map_nil, hkept.ofRows_eq, hclaim]
  show ({ run with db := Database.ofRows (Audit.setCursor run.db.cursors cursor) run.db.log } :
    ShardRun K) = run
  rw [hset, hkept.ofRows_eq]

/-- The rows that a tick leaves: the old ones, then the new ones with their stamps. -/
theorem Kept.writeStamps_eq (hkept : Kept shard run cursor)
    (hroom : cursor.lastAssignedSeq.toInt + rows.length < 2 ^ 63)
    (hids : (rows.map AuditExportRow.id).Nodup)
    (hnew : ∀ row ∈ rows, ∀ old ∈ run.db.log, row.id ≠ old.id) {k : K} {prev : ChainHash}
    {newest : Option Int64} {stamps : List Stamp}
    (hstamps : stamps = stampRows hmac texts shard k prev newest
      (numberRows cursor.lastAssignedSeq rows)) :
    writeStamps shard stamps (numberedDb run cursor rows).log =
      run.db.log ++ stamps.map Stamp.row := by
  have hconsecutive := numberRows_consecutive hroom
  have hsameIds : stamps.map (fun s => s.record.id) = rows.map AuditExportRow.id := by
    rw [hstamps, (stampRows_map hconsecutive).1, map_numberRows fun _ _ => rfl]
  have hold : writeStamps shard stamps run.db.log = run.db.log := by
    refine writeStamps_other fun old hold s hs heq => ?_
    have hmem : s.record.id ∈ rows.map AuditExportRow.id :=
      hsameIds ▸ List.mem_map.mpr ⟨s, hs, rfl⟩
    obtain ⟨row, hrow, hid⟩ := List.mem_map.mp hmem
    exact hnew row hrow old hold (hid.trans heq)
  have hadded : writeStamps shard stamps (numberRows cursor.lastAssignedSeq rows) =
      stamps.map Stamp.row := by
    rw [hstamps]
    exact writeStamps_stampRows hconsecutive (by rwa [map_numberRows fun _ _ => rfl])
  rw [hkept.numberedDb_log hroom, writeStamps, List.map_append]
  exact congrArg₂ (· ++ ·) hold hadded

/-- The run after a tick that has stamped rows and signed `cp`. -/
def extendRun (hmac : K → Bytes → ChainHash) (shard : Int32) (run : ShardRun K)
    (cursor : AuditExportCursor) (key : K) (rows : List AuditExportRow) (stamps : List Stamp)
    (cp : ChainCheckpoint) : ShardRun K :=
  { run with
    db := Database.ofRows [AuditExportCursor.withCheckpoint hmac shard
      { cursor with lastAssignedSeq := cursor.lastAssignedSeq + Int64.ofNat rows.length } key cp]
      (run.db.log ++ stamps.map Stamp.row)
    chain := run.chain ++ stamps
    occurred := run.occurred ++ rows.map AuditExportRow.occurredAt
    signer := some key
    keys := key :: run.keys }

theorem Kept.tick_eq (hkept : Kept shard run cursor) {stamps : List Stamp} {cp : ChainCheckpoint}
    (hclaim : claimShardChained hmac texts key (numberedDb run cursor rows) shard
      (cursor.lastAssignedSeq + Int64.ofNat rows.length) = some (stamps, cp))
    (hwritten : writeStamps shard stamps (numberedDb run cursor rows).log =
      run.db.log ++ stamps.map Stamp.row) :
    tickShard hmac texts shard run key rows cursor =
      extendRun hmac shard run cursor key.active rows stamps cp := by
  have hset := hkept.setCursor (c := AuditExportCursor.withCheckpoint hmac shard
    { cursor with lastAssignedSeq := cursor.lastAssignedSeq + Int64.ofNat rows.length }
    key.active cp) rfl
  unfold numberedDb at hclaim hwritten
  simp only [tickShard, extendRun, hclaim, hwritten, hset]

/-- The invariant after a tick: the chain goes on, and what was purged stays purged. -/
theorem AnchorAt.chained {anchor : ChainAnchor} {start : Int} {stamps : List Stamp}
    {cp : ChainCheckpoint} {last : Stamp} {k : K} (hkept : Kept shard run cursor)
    (hat : AnchorAt hmac texts shard run cursor anchor start)
    (hroom : cursor.lastAssignedSeq.toInt + rows.length < 2 ^ 63)
    (hslack : (run.occurred ++ rows.map AuditExportRow.occurredAt).Pairwise WithinSlack)
    (hstamps : stamps = stampRows hmac texts shard k (anchor.head.getD genesis) anchor.newestAt
      (numberRows cursor.lastAssignedSeq rows))
    (hlast : stamps.getLast? = some last) (hstart : cp.startSeq.toInt = start)
    (hcp : cp.headSeq = last.record.seq ∧ cp.head = last.hash ∧ cp.newestAt = last.newest) :
    HonestRun hmac texts shard (extendRun hmac shard run cursor k rows stamps cp) := by
  have hlow := hkept.low
  have hpos := hat.start_pos
  have hconsecutive := numberRows_consecutive hroom
  have hlinked : Linked (anchor.head.getD genesis) anchor.newestAt
      (cursor.lastAssignedSeq.toInt + 1) stamps := hstamps ▸ stampRows_linked hconsecutive
  have htimes : stamps.map (fun s => s.record.occurredAt) = rows.map AuditExportRow.occurredAt := by
    rw [hstamps, (stampRows_map hconsecutive).2, map_numberRows fun _ _ => rfl]
  have hlength : stamps.length = rows.length := by
    simpa using congrArg List.length htimes
  have hchain : Linked genesis none start (run.chain ++ stamps) := by
    rw [linked_append, hat.tip, hat.length]
    exact ⟨hat.linked, hlinked⟩
  have hlastSeq := hlinked.last_seq hlast
  have hthrough := toInt_add_ofNat hkept.low hroom
  have hhead : cp.headSeq = cursor.lastAssignedSeq + Int64.ofNat rows.length :=
    Int64.toInt_inj.mp (by rw [hcp.1]; omega)
  have hnumbered := hkept.numbered.append hlinked.numbered hlow (by omega)
  have hlog : (extendRun hmac shard run cursor k rows stamps cp).db.log =
      run.db.log ++ stamps.map Stamp.row := hnumbered.log_eq _
  refine ⟨_, ⟨rfl, hkept.shardId, hkept.live, ?_, ?_, hslack⟩, .inr ⟨cp, k, ?_⟩⟩
  · show 0 ≤ (cursor.lastAssignedSeq + Int64.ofNat rows.length).toInt
    omega
  · rw [hlog]
    exact hnumbered.mono (by rw [hlength]; exact Int.le_of_eq hthrough.symm)
  · exact {
      signer := rfl
      used := List.mem_cons_self
      stored := storedCheckpoint_withCheckpoint _ k cp
      head := hhead
      start_pos := by omega
      linked := hstart ▸ hchain
      length := by
        have := hat.length
        show cp.startSeq.toInt + ((run.chain ++ stamps).length : Int) = _
        rw [List.length_append, hcp.1, hstart]
        omega
      tip := fun _ => by
        show Audit.tip genesis none (run.chain ++ stamps) = _
        rw [tip_append, tip_of_getLast hlast, hcp.2.1, hcp.2.2]
      shards := fun s hs => by
        rcases List.mem_append.mp hs with hs | hs
        · exact hat.shards s hs
        · rw [hstamps] at hs
          exact stampRows_shard s hs
      made := fun s hs => by
        rcases List.mem_append.mp hs with hs | hs
        · obtain ⟨k', hk', hhash⟩ := hat.made s hs
          exact ⟨k', List.mem_cons_of_mem _ hk', hhash⟩
        · rw [hstamps] at hs
          exact ⟨k, List.mem_cons_self, stampRows_hash s hs⟩
      times := by
        obtain ⟨before, hbefore⟩ := hat.times
        refine ⟨before, ?_⟩
        show before ++ (run.chain ++ stamps).map _ = run.occurred ++ _
        rw [List.map_append, ← List.append_assoc, hbefore, htimes]
      rows := by
        obtain ⟨old, left, hrows, hleft, hold⟩ := hat.rows
        refine ⟨old, left ++ stamps, ?_, hleft.append (List.Sublist.refl _), ?_⟩
        · rw [hlog, hrows, List.map_append, List.append_assoc]
        · rwa [hstart]
      purged := fun s hs hgone => by
        rw [hlog] at hgone
        rcases List.mem_append.mp hs with hs | hs
        · exact hat.purged s hs fun hmem => hgone (List.mem_append_left _ hmem)
        · exact absurd (List.mem_append_right _ (List.mem_map.mpr ⟨s, hs, rfl⟩)) hgone }

/-- **A tick keeps the invariant.** -/
theorem honestRun_tick (h : HonestRun hmac texts shard run)
    (hallowed : ShardAllowed shard run (.tick key rows)) :
    HonestRun hmac texts shard (shardStep hmac texts shard run (.tick key rows)) := by
  obtain ⟨cursor, hkept, hchain⟩ := h
  obtain ⟨hids, hnew, haccept, hslack, hleft⟩ := hallowed
  have hroom := hleft cursor hkept.find
  have hstep : shardStep hmac texts shard run (.tick key rows) =
      tickShard hmac texts shard run key rows cursor := by
    simp [shardStep, hkept.find, hkept.live]
  rw [hstep]
  by_cases hrows : rows = []
  · rw [hrows, hkept.tick_nil]
    exact ⟨cursor, hkept, hchain⟩
  · obtain ⟨anchor, start, hanchor, hat⟩ : ∃ anchor start,
        chainAnchor hmac (numberedDb run cursor rows) cursor key = .ok anchor ∧
          AnchorAt hmac texts shard run cursor anchor start := by
      rcases hchain with hfresh | ⟨cp, k, hchain⟩
      · exact ⟨_, _, hfresh.chainAnchor_eq hkept hroom⟩
      · obtain ⟨anchor, hboth⟩ :=
          hchain.chainAnchor_eq rows hkept (haccept k hchain.signer)
        exact ⟨anchor, _, hboth⟩
    obtain ⟨first, last, hfirst, hlast, hclaim⟩ := hkept.claim_eq texts hrows hroom hanchor
    rw [hkept.tick_eq hclaim (hkept.writeStamps_eq hroom hids hnew rfl)]
    refine hat.chained hkept hroom hslack rfl hlast ?_ ⟨rfl, rfl, rfl⟩
    cases hnone : anchor.startSeq with
    | none =>
      have hlinked : Linked (anchor.head.getD genesis) anchor.newestAt
          (cursor.lastAssignedSeq.toInt + 1) (stampRows hmac texts shard key.active
            (anchor.head.getD genesis) anchor.newestAt (numberRows cursor.lastAssignedSeq rows)) :=
        stampRows_linked (numberRows_consecutive hroom)
      obtain ⟨rest, hrest⟩ := List.head?_eq_some_iff.mp hfirst
      rw [hrest] at hlinked
      exact hlinked.2.2.1.trans (hat.newChain hnone).symm
    | some s => exact hat.startSeq s hnone

end Tick

/-! ## Every honest run verifies -/

theorem honestRun_step {act : ShardAction K} (h : HonestRun hmac texts shard run)
    (hallowed : ShardAllowed shard run act) :
    HonestRun hmac texts shard (shardStep hmac texts shard run act) := by
  cases act with
  | tick key rows => exact honestRun_tick h hallowed
  | reanchor key now => exact honestRun_reanchor h key now hallowed
  | purge cutoff picked => exact honestRun_purge h cutoff picked

theorem honestRun_exec {acts : List (ShardAction K)}
    (hlegal : Legal (shardStep hmac texts shard) (ShardAllowed shard) (ShardRun.start shard) acts) :
    HonestRun hmac texts shard (exec (shardStep hmac texts shard) (ShardRun.start shard) acts) :=
  invariant (P := HonestRun hmac texts shard) (fun _ _ h hallowed => honestRun_step h hallowed)
    honestRun_start hlegal

/-- A row does not occur more than the slack before a row at or before it in the chain. -/
theorem Linked.withinSlack {chain : List Stamp} {prev : ChainHash} {newest : Option Int64}
    {seq : Int} (h : Linked prev newest seq chain)
    (hslack : (chain.map fun s => s.record.occurredAt).Pairwise WithinSlack) {s s' : Stamp}
    (hs : s ∈ chain) (hs' : s' ∈ chain) (hle : s'.record.seq.toInt ≤ s.record.seq.toInt) :
    WithinSlack s'.record.occurredAt s.record.occurredAt := by
  have hordered : chain.Pairwise fun a b => a.record.seq.toInt ≤ b.record.seq.toInt →
      WithinSlack a.record.occurredAt b.record.occurredAt :=
    (List.pairwise_map.mp hslack).imp (by intro a b hwithin _; exact hwithin)
  -- the other order does not happen
  have hflipped : chain.Pairwise fun a b => b.record.seq.toInt ≤ a.record.seq.toInt →
      WithinSlack b.record.occurredAt a.record.occurredAt :=
    h.increasing.imp fun hlt hge => absurd hge (by omega)
  refine List.Pairwise.forall_of_forall_of_flip ?_ hordered hflipped hs' hs hle
  intro a _ _
  simp only [WithinSlack, retentionSlack]
  omega

/-- A number of the chain has one stamp. -/
theorem Linked.eq_of_seq {chain : List Stamp} {prev : ChainHash} {newest : Option Int64}
    {seq : Int} (h : Linked prev newest seq chain) {s s' : Stamp} (hs : s ∈ chain)
    (hs' : s' ∈ chain) (heq : s.record.seq = s'.record.seq) : s = s' := by
  have hordered : chain.Pairwise fun a b => a.record.seq = b.record.seq → a = b :=
    h.increasing.imp fun hlt heq => absurd (congrArg Int64.toInt heq) (by omega)
  have hflipped : chain.Pairwise fun a b => b.record.seq = a.record.seq → b = a :=
    h.increasing.imp fun hlt heq => absurd (congrArg Int64.toInt heq) (by omega)
  exact List.Pairwise.forall_of_forall_of_flip (fun _ _ _ => rfl) hordered hflipped hs hs' heq

section Report

variable {cp : ChainCheckpoint} {k : K} {options : ChainVerifyOptions K}

/-- The newest time through a purged row is old: a row at or before it has that time, and it
occurred at most the slack after the purged row. -/
theorem Chained.old_of_purged (hkept : Kept shard run cursor)
    (hchain : Chained hmac texts shard run cursor cp k)
    (hcutoff : ∀ c ∈ run.cutoffs, ∃ c', options.retentionCutoff = some c' ∧ c.toInt ≤ c'.toInt)
    {s : Stamp} (hs : s ∈ run.chain) (hgone : s.row ∉ run.db.log) :
    ChainVerifier.oldUnder options.retentionCutoff s.newest = true := by
  obtain ⟨c, hc, hbefore⟩ := hchain.purged s hs hgone
  obtain ⟨c', hc', hle⟩ := hcutoff c hc
  have hnewest : WithinSlack s.newest s.record.occurredAt := by
    rcases hchain.linked.newest_attained s hs with hnone | ⟨s', hs', hseq, heq⟩
    · cases hnone
    · rw [heq]
      exact hchain.linked.withinSlack (hkept.slack.sublist hchain.times.sublist) hs hs' hseq
  unfold WithinSlack at hnewest
  rw [hc', ChainVerifier.oldUnder, decide_eq_true_eq]
  omega

/-- A row before the chain only counts as unchained. -/
theorem ChainVerifier.Tracks.pushAll_before {rows : List ChainRow} {keys : List K}
    {cutoff : Option Int64} {start : Int64} {previous : Option Previous}
    {found : List (Int × Int)} :
    ∀ {v : ChainVerifier K}, Tracks v keys cutoff start previous found →
      (∀ row ∈ rows, row.record.seq.toInt < start.toInt) →
      Tracks (v.pushAll hmac texts rows) keys cutoff start previous found := by
  induction rows with
  | nil => exact fun h _ => h
  | cons row rows ih =>
    intro v h hbefore
    refine ih ?_ fun r hr => hbefore r (List.mem_cons_of_mem _ hr)
    have hknown : v.checkKnown row = v := by simp [checkKnown, h.known]
    have hout : v.inChain row = false := by
      simp [inChain, h.start, hbefore row List.mem_cons_self]
    simp only [push, hknown, hout, Bool.false_eq_true, if_false]
    exact ⟨h.keys, h.cutoff, h.start, h.known, h.previous, h.last, h.findings, h.gaps, h.chained⟩

theorem tracks_startVerifier (hknown : options.knownHead = none) :
    ChainVerifier.Tracks (startVerifier options (some cp)) options.keys options.retentionCutoff
      cp.startSeq none [] :=
  ⟨rfl, rfl, rfl, hknown, rfl, ⟨rfl, rfl⟩, rfl, rfl, by simp⟩

/-- A stamp of the chain has its row in the table iff it was left there. -/
theorem Chained.row_mem_iff (hchain : Chained hmac texts shard run cursor cp k)
    {old : List AuditExportRow} {left : List Stamp}
    (hrows : run.db.log = old ++ left.map Stamp.row) (hleft : left.Sublist run.chain)
    (hold : ∀ row ∈ old, rowSeq row < cp.startSeq.toInt) {s : Stamp} (hs : s ∈ run.chain) :
    s.row ∈ run.db.log ↔ s ∈ left := by
  rw [hrows, List.mem_append]
  constructor
  · rintro (hmem | hmem)
    · have hbefore := hold _ hmem
      have hafter := hchain.linked.seq_ge s hs
      rw [rowSeq_eq (show s.row.exportSeq = some s.record.seq from rfl)] at hbefore
      omega
    · obtain ⟨s', hs', hrow⟩ := List.mem_map.mp hmem
      have hseq : s'.record.seq = s.record.seq :=
        Option.some.inj (congrArg AuditExportRow.exportSeq hrow)
      rwa [hchain.linked.eq_of_seq hs (hleft.subset hs') hseq.symm]
  · exact fun hmem => .inr (List.mem_map.mpr ⟨s, hmem, rfl⟩)

/-- The report on a run with a checkpoint. -/
theorem Chained.report (hkept : Kept shard run cursor)
    (hchain : Chained hmac texts shard run cursor cp k)
    (hkeys : ∀ k ∈ run.keys, k ∈ options.keys)
    (hcutoff : ∀ c ∈ run.cutoffs, ∃ c', options.retentionCutoff = some c' ∧ c.toInt ≤ c'.toInt)
    (hknown : options.knownHead = none) {old : List AuditExportRow} {left : List Stamp}
    (hrows : run.db.log = old ++ left.map Stamp.row) (hleft : left.Sublist run.chain)
    (hold : ∀ row ∈ old, rowSeq row < cp.startSeq.toInt) :
    let report := verifyShardChainWith hmac texts run.db shard options
    report.findings = [] ∧ report.retentionGaps = gapFindings
      (gaps cp.startSeq.toInt cp.headSeq.toInt (left.map fun s => s.record.seq.toInt)) := by
  have hread : run.db.readRows cp.headSeq.toInt 0 = run.db.log := by
    rw [hkept.numbered.readRows_eq, hkept.numbered.sequenced_eq (Int.le_refl _)]
    rw [hchain.head]
  have hverified : verifiedCheckpoint hmac cursor options.keys = (some cp, none) := by
    have hmac' : (options.keys.any fun key => cp.mac hmac key cursor.shardId = cp.mac hmac k shard) =
        true := by
      refine List.any_eq_true.mpr ⟨k, hkeys k hchain.used, ?_⟩
      rw [hkept.shardId]
      exact decide_eq_true rfl
    simp only [verifiedCheckpoint, hchain.stored, hmac', if_true]
  have hother : run.db.otherLiveCursor shard = false := by
    simp [Database.otherLiveCursor, hkept.cursors, hkept.shardId]
  -- the rows before the chain, then what is left of it
  have hpushed : (startVerifier options (some cp)).pushAll hmac texts
      ((run.db.readRows cp.headSeq.toInt 0).filterMap (ownChainRow shard)) =
      ((startVerifier options (some cp)).pushAll hmac texts
        (old.filterMap (ownChainRow shard))).pushAll hmac texts (left.map Stamp.chainRow) := by
    rw [hread, hrows, List.filterMap_append,
      filterMap_ownChainRow fun s hs => hchain.shards s (hleft.subset hs),
      ChainVerifier.pushAll_append]
  have hbefore : ChainVerifier.Tracks ((startVerifier options (some cp)).pushAll hmac texts
      (old.filterMap (ownChainRow shard))) options.keys options.retentionCutoff cp.startSeq none [] := by
    refine (tracks_startVerifier hknown).pushAll_before fun row hrow => ?_
    obtain ⟨r, hr, hown⟩ := List.mem_filterMap.mp hrow
    rw [← rowSeq_eq (ownChainRow_seq hown)]
    exact hold r hr
  have hsurviving : Surviving hmac texts options.keys
      (ChainVerifier.oldUnder options.retentionCutoff) cp none (left.map Stamp.chainRow) := by
    refine hchain.linked.surviving hleft ?_ ?_ hchain.length ?_ (.inl ⟨rfl, by simp⟩)
    · intro s hs
      obtain ⟨key, hkey, hhash⟩ := hchain.made s hs
      exact ⟨key, hkeys key hkey, hhash⟩
    · intro s hs hgone
      exact hchain.old_of_purged hkept hcutoff hs fun hmem =>
        hgone ((hchain.row_mem_iff hrows hleft hold hs).mp hmem)
    · by_cases hnil : run.chain = []
      · exact .inl ⟨hnil, rfl, rfl⟩
      · exact .inr (hchain.tip hnil)
  obtain ⟨previous, htracks⟩ := ChainVerifier.pushAll_surviving hbefore (Int.le_refl _) hsurviving
  rw [← hpushed] at htracks
  intro report
  have hreport : report = (((startVerifier options (some cp)).pushAll hmac texts
      ((run.db.readRows cp.headSeq.toInt 0).filterMap (ownChainRow shard))).checkHead cp).report := by
    have hbound : cursor.lastAssignedSeq.toInt = cp.headSeq.toInt := by rw [hchain.head]
    simp only [report, verifyShardChainWith, hkept.find, hverified, hother, Option.map_some,
      Option.getD_some, hbound, Int.lt_irrefl, Option.isNone_some, Bool.false_and,
      Bool.false_eq_true, if_false, ChainVerifier.finish, htracks.known]
  rw [hreport]
  refine ⟨htracks.findings, htracks.gaps.trans ?_⟩
  rw [List.nil_append, List.map_map]
  rfl


/-- A run with no checkpoint has no row either. -/
theorem Fresh.report (hkept : Kept shard run cursor) (hfresh : Fresh run cursor)
    (hknown : options.knownHead = none) :
    let report := verifyShardChainWith hmac texts run.db shard options
    report.findings = [] ∧ report.retentionGaps = [] := by
  have hread : run.db.readRows cursor.lastAssignedSeq.toInt 0 = [] := by
    rw [hkept.numbered.readRows_eq, hkept.numbered.sequenced_eq (Int.le_refl _) (Int.le_refl _),
      hfresh.log]
  have hverified : verifiedCheckpoint hmac cursor options.keys = (none, none) := by
    simp [verifiedCheckpoint, hfresh.stored, hfresh.columns]
  have hother : run.db.otherLiveCursor shard = false := by
    simp [Database.otherLiveCursor, hkept.cursors, hkept.shardId]
  have hempty : (startVerifier options none).knownHead = none := hknown
  simp only [verifyShardChainWith, hkept.find, hverified, hother, Option.map_some,
    Option.getD_some, hread, List.filterMap_nil, ChainVerifier.pushAll, List.foldl_nil,
    ChainVerifier.finish, hempty]
  exact ⟨rfl, rfl⟩

/-- What is gone of a chain is what a sorted list of the numbers left does not hold. -/
theorem Chained.deleted_iff (hchain : Chained hmac texts shard run cursor cp k)
    {old : List AuditExportRow} {left : List Stamp}
    (hrows : run.db.log = old ++ left.map Stamp.row) (hleft : left.Sublist run.chain)
    (hold : ∀ row ∈ old, rowSeq row < cp.startSeq.toInt) (n : Int) :
    Deleted run n ↔
      Missing cp.startSeq.toInt cp.headSeq.toInt (left.map fun s => s.record.seq.toInt) n := by
  have hlength := hchain.length
  constructor
  · rintro ⟨s, hs, rfl, hgone⟩
    have hge := hchain.linked.seq_ge s hs
    have hlt := hchain.linked.seq_lt s hs
    refine ⟨hge, by omega, fun hmem => hgone ?_⟩
    obtain ⟨s', hs', hseq⟩ := List.mem_map.mp hmem
    have heq := hchain.linked.eq_of_seq (hleft.subset hs') hs (Int64.toInt_inj.mp hseq)
    exact (hchain.row_mem_iff hrows hleft hold hs).mpr (heq ▸ hs')
  · rintro ⟨hlow, hhigh, hnot⟩
    obtain ⟨s, hs, hseq⟩ := hchain.linked.exists_stamp (n := n) hlow (by omega)
    refine ⟨s, hs, hseq, fun hmem => hnot ?_⟩
    exact List.mem_map.mpr ⟨s, (hchain.row_mem_iff hrows hleft hold hs).mp hmem, hseq⟩

/-- The retention gaps of a run: in order, and one for each maximal range of purged numbers. -/
structure ExactGaps (run : ShardRun K) (found : List (Int × Int)) : Prop where
  increasing : found.Pairwise fun g g' => g.2 ≤ g'.1
  maximal : ∀ a b, (a, b) ∈ found ↔ MaximalRange (Deleted run) a b

theorem Chained.exactGaps (hchain : Chained hmac texts shard run cursor cp k)
    {old : List AuditExportRow} {left : List Stamp}
    (hrows : run.db.log = old ++ left.map Stamp.row) (hleft : left.Sublist run.chain)
    (hold : ∀ row ∈ old, rowSeq row < cp.startSeq.toInt) :
    ExactGaps run
      (gaps cp.startSeq.toInt cp.headSeq.toInt (left.map fun s => s.record.seq.toInt)) := by
  have hlength := hchain.length
  have hsorted : (left.map fun s => s.record.seq.toInt).Pairwise (· < ·) :=
    List.pairwise_map.mpr (hchain.linked.increasing.sublist hleft)
  have hin : ∀ n ∈ left.map fun s => s.record.seq.toInt,
      cp.startSeq.toInt ≤ n ∧ n ≤ cp.headSeq.toInt := by
    intro n hn
    obtain ⟨s, hs, rfl⟩ := List.mem_map.mp hn
    have hge := hchain.linked.seq_ge s (hleft.subset hs)
    have hlt := hchain.linked.seq_lt s (hleft.subset hs)
    exact ⟨hge, by omega⟩
  refine ⟨gaps_increasing hsorted hin, fun a b => ?_⟩
  rw [mem_gaps hsorted hin, MaximalRange.congr (hchain.deleted_iff hrows hleft hold)]

theorem Fresh.exactGaps (hfresh : Fresh run cursor) : ExactGaps run [] := by
  refine ⟨List.Pairwise.nil, fun a b => ⟨fun hmem => absurd hmem List.not_mem_nil, fun hrange => ?_⟩⟩
  obtain ⟨s, hs, -⟩ := hrange.inside (a + 1) (by omega) hrange.nonempty
  rw [hfresh.chain] at hs
  exact absurd hs List.not_mem_nil

end Report

/-- **No false alarm.** A run of ticks, key rotations, re-anchors and purges verifies without
a finding, and the retention gaps are exactly the maximal ranges of purged numbers of the
current chain. -/
theorem honest_run_no_false_alarm (acts : List (ShardAction K))
    (hlegal : Legal (shardStep hmac texts shard) (ShardAllowed shard) (ShardRun.start shard) acts)
    (options : ChainVerifyOptions K)
    (hkeys : ∀ k ∈ (exec (shardStep hmac texts shard) (ShardRun.start shard) acts).keys,
      k ∈ options.keys)
    (hcutoff : ∀ c ∈ (exec (shardStep hmac texts shard) (ShardRun.start shard) acts).cutoffs,
      ∃ c', options.retentionCutoff = some c' ∧ c.toInt ≤ c'.toInt)
    (hknown : options.knownHead = none) :
    let run := exec (shardStep hmac texts shard) (ShardRun.start shard) acts
    let report := verifyShardChainWith hmac texts run.db shard options
    report.findings = [] ∧
      ∃ found, report.retentionGaps = gapFindings found ∧ ExactGaps run found := by
  obtain ⟨cursor, hkept, hchain⟩ := honestRun_exec hlegal
  rcases hchain with hfresh | ⟨cp, k, hchain⟩
  · obtain ⟨hfindings, hgaps⟩ := hfresh.report hkept hknown
    exact ⟨hfindings, [], hgaps, hfresh.exactGaps⟩
  · obtain ⟨old, left, hrows, hleft, hold⟩ := hchain.rows
    obtain ⟨hfindings, hgaps⟩ := hchain.report hkept hkeys hcutoff hknown hrows hleft hold
    exact ⟨hfindings, _, hgaps, hchain.exactGaps hrows hleft hold⟩

/-! ### A short run -/

/-- A tick uses at most its active key, and sets no cutoff. -/
theorem tick_used (key : AuditChainKey K) (rows : List AuditExportRow) :
    let run' := shardStep hmac texts shard run (.tick key rows)
    (∀ k ∈ run'.keys, k = key.active ∨ k ∈ run.keys) ∧ run'.cutoffs = run.cutoffs := by
  simp only [shardStep]
  split
  · exact ⟨fun k hk => .inr hk, rfl⟩
  · split
    · exact ⟨fun k hk => .inr hk, rfl⟩
    · unfold tickShard
      dsimp only
      split
      · exact ⟨fun k hk => .inr hk, rfl⟩
      · exact ⟨fun k hk => List.mem_cons.mp hk, rfl⟩

/-- Two rows are exported, and a purge deletes the first of them. -/
def purgedRun : List (ShardAction Bytes) :=
  [.tick sampleKey [sampleRow 1, sampleRow 2],
    .purge 1700000002000000 fun row => row.id = 1]

theorem purgedRun_legal : Legal (shardStep sampleMac sampleTexts 2) (ShardAllowed 2)
    (ShardRun.start 2) purgedRun := by
  refine ⟨⟨by decide, ?_, ?_, ?_, ?_⟩, trivial, trivial⟩
  · intro row _ old hold
    simp [ShardRun.start, Database.ofRows] at hold
  · simp [ShardRun.start]
  · simp [ShardRun.start, WithinSlack, retentionSlack, sampleRow]
  · intro cursor hfind
    obtain rfl : sampleCursor = cursor := Option.some.inj hfind
    decide

/-- The purge raises no alarm when the verifier knows of its cutoff. -/
theorem honest_run_no_false_alarm_purged :
    let run := exec (shardStep sampleMac sampleTexts 2) (ShardRun.start 2) purgedRun
    let report := verifyShardChainWith sampleMac sampleTexts run.db 2
      ⟨[sampleKey.active], some 1700000002000000, none⟩
    report.findings = [] ∧
      ∃ found, report.retentionGaps = gapFindings found ∧ ExactGaps run found := by
  refine honest_run_no_false_alarm purgedRun purgedRun_legal
    ⟨[sampleKey.active], some 1700000002000000, none⟩ ?_ ?_ rfl
  · intro k hk
    rcases (tick_used sampleKey [sampleRow 1, sampleRow 2]).1 k hk with rfl | hk
    · exact List.mem_singleton.mpr rfl
    · exact absurd hk List.not_mem_nil
  · intro c hc
    refine ⟨_, rfl, ?_⟩
    rcases List.mem_cons.mp hc with rfl | hc
    · exact Int.le_refl _
    · rw [(tick_used sampleKey [sampleRow 1, sampleRow 2]).2] at hc
      exact absurd hc List.not_mem_nil

end Invariant

end Harvest.Audit
