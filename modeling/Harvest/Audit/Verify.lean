import Harvest.Audit.Paging

/-!
# Verification of a stored shard

`verify_shard_chain_with` reads the cursor, checks its checkpoint and pushes the rows
that it reads.

Proved here:
* `honest_intact`: a chain that is stored as it was stamped is reported intact.
* `intact_iff_nothing_left_behind`: an intact report means that the chain is untouched,
  exactly when no row from the chain start on is left behind.
* `inserted_row_reported_intact`: a row inserted behind a full page goes unseen.
-/

namespace Harvest.Audit

open Harvest.Lib

/-! ## `verify_shard_chain_with` -/

/-- The row that the loop pushes. Links another shard made do not belong to this chain. -/
def ownChainRow (shard : Int32) (row : AuditExportRow) : Option ChainRow :=
  let own := row.chainShard == some shard
  (AuditExportRecord.fromRow shard row).map fun record =>
    { record
      prev := if own then row.chainPrev.bind fromBytes else none
      hash := if own then row.chainHash.bind fromBytes else none
      newestBefore := if own then row.chainNewestBefore else none }

/-- `ChainVerifyOptions` -/
structure ChainVerifyOptions (K : Type) where
  keys : List K
  retentionCutoff : Option Int64
  knownHead : Option KnownLink

section Verify

variable {K : Type} (hmac : K → Bytes → ChainHash) (texts : TimeText)

/-- `verified_checkpoint` -/
def verifiedCheckpoint (cursor : AuditExportCursor) (keys : List K) :
    Option ChainCheckpoint × Option ChainFinding :=
  match storedCheckpoint cursor with
  | some (checkpoint, mac) =>
    if keys.any fun key => checkpoint.mac hmac key cursor.shardId = mac then (some checkpoint, none)
    else (none, some .checkpointInvalid)
  -- A partial checkpoint is an edit, not an absent checkpoint.
  | none => if hasCheckpointColumn cursor then (none, some .checkpointInvalid) else (none, none)

def ChainReport.insert (report : ChainReport) (finding : ChainFinding) : ChainReport :=
  { report with findings := finding :: report.findings }

/-- The verifier of `verify_shard_chain_with`, before the first row. -/
def startVerifier (options : ChainVerifyOptions K) (checkpoint : Option ChainCheckpoint) :
    ChainVerifier K :=
  { keys := options.keys
    retentionCutoff := options.retentionCutoff
    knownHead := options.knownHead
    report := { startSeq := checkpoint.map ChainCheckpoint.startSeq } }

/-- `verify_shard_chain_with` -/
def verifyShardChainWith (db : Database) (shard : Int32) (options : ChainVerifyOptions K) :
    ChainReport :=
  let cursor := db.find shard
  let bound := (cursor.map fun c => c.lastAssignedSeq.toInt).getD (2 ^ 63 - 1)
  let (checkpoint, checkpointFinding) := match cursor with
    | some cursor => verifiedCheckpoint hmac cursor options.keys
    | none => (none, none)
  let verifier := ChainVerifier.pushAll hmac texts (startVerifier options checkpoint)
    ((db.readRows bound 0).filterMap (ownChainRow shard))
  let report := verifier.finish checkpoint
  let report := if db.otherLiveCursor shard then report.insert .sharedDatabase else report
  -- Retention never lowers the cursor, so a head past it is an edit.
  let report := match checkpoint with
    | none => report
    | some checkpoint =>
      let head := checkpoint.headSeq.toInt
      if bound < head then report.insert (.cursorBehindCheckpoint head bound)
      else if head < bound then report.insert (.checkpointBehindCursor head bound)
      else report
  match checkpointFinding with
  | some finding => report.insert finding
  | none =>
    if checkpoint.isNone && 0 < report.checked then report.insert .checkpointMissing else report

/-- An intact report against a verified checkpoint: the head is the cursor's last number
and the verifier itself has found nothing. -/
theorem verifyShardChainWith_intact {db : Database} {shard : Int32}
    {options : ChainVerifyOptions K} {cursor : AuditExportCursor} {cp : ChainCheckpoint}
    (hfind : db.find shard = some cursor)
    (hcp : verifiedCheckpoint hmac cursor options.keys = (some cp, none)) :
    (verifyShardChainWith hmac texts db shard options).isIntact ↔
      db.otherLiveCursor shard = false ∧ cp.headSeq.toInt = cursor.lastAssignedSeq.toInt ∧
        (((startVerifier options (some cp)).pushAll hmac texts
          ((db.readRows cp.headSeq.toInt 0).filterMap (ownChainRow shard))).finish
            (some cp)).isIntact := by
  simp only [verifyShardChainWith, hfind, hcp, Option.map_some, Option.getD_some,
    Option.isNone_some, Bool.false_and, Bool.false_eq_true, if_false]
  rcases lt_trichotomy cursor.lastAssignedSeq.toInt cp.headSeq.toInt with hlt | heq | hgt
  · rw [if_pos hlt]
    exact ⟨fun h => absurd h (List.cons_ne_nil _ _), fun h => absurd h.2.1 (by omega)⟩
  · rw [if_neg (by omega), if_neg (by omega), heq]
    cases db.otherLiveCursor shard with
    | true =>
      simp only [if_true]
      exact ⟨fun h => absurd h (List.cons_ne_nil _ _), fun h => absurd h.1 (by decide)⟩
    | false => simp
  · rw [if_neg (by omega), if_pos hgt]
    exact ⟨fun h => absurd h (List.cons_ne_nil _ _), fun h => absurd h.2.1 (by omega)⟩

/-! ## Tamper evidence -/

/-- The stored rows and the stored checkpoint hold no forged link: what verifies under one
of the keys was produced by the exporter. -/
def Unforged (log : ExportLog) (db : Database) (shard : Int32) (keys : List K) : Prop :=
  (∀ row ∈ db.log, ∀ c, ownChainRow shard row = some c → ∀ prev hash, c.prev = some prev →
    c.hash = some hash →
      NoForgery hmac texts log keys (linkBytes texts prev c.newestBefore c.record) hash) ∧
  ∀ cursor, db.find shard = some cursor → ∀ cp mac, storedCheckpoint cursor = some (cp, mac) →
    NoForgery hmac texts log keys (checkpointBytes shard cp) mac

/-- The stamps of a shard with a number from `start` through `head`. -/
def ExportLog.range (log : ExportLog) (shard : Int32) (start head : Int) : List Stamp :=
  log.stamps.filter fun s =>
    s.record.shard = shard ∧ start ≤ s.record.seq.toInt ∧ s.record.seq.toInt ≤ head

/-- Without a retention cutoff the rows from the chain start to the head are exactly the
rows the exporter stamped for these numbers; with one, every stamped row that is missing
is older than the cutoff and the slack. -/
def Untampered (log : ExportLog) (db : Database) (shard : Int32) (cp : ChainCheckpoint)
    (cutoff : Option Int64) : Prop :=
  match cutoff with
  | none => (db.sequenced (cp.startSeq.toInt - 1) cp.headSeq.toInt).Perm
      ((log.range shard cp.startSeq.toInt cp.headSeq.toInt).map Stamp.row)
  | some cutoff => ∀ s ∈ log.range shard cp.startSeq.toInt cp.headSeq.toInt, s.row ∉ db.log →
      s.record.occurredAt.toInt < cutoff.toInt + retentionSlack

/-- No row from the chain start on carries the number of the last row of a full page that
ends before it. -/
def NothingLeftBehind (db : Database) (cp : ChainCheckpoint) (bound : Int) : Prop :=
  ∀ row ∈ db.leftBehind bound 0, ∀ seq ∈ row.exportSeq, seq.toInt < cp.startSeq.toInt

/-- The link of the stamp was made under one of the keys. -/
def MadeUnder (keys : List K) (s : Stamp) : Prop :=
  ∃ key ∈ keys, s.hash = link hmac texts key s.prev s.newestBefore s.record

variable {hmac texts}

/-- A row that verifies is a row as the exporter left it. -/
theorem stamp_of_valid {log : ExportLog} {db : Database} {shard : Int32} {keys : List K}
    (hforgery : Unforged hmac texts log db shard keys) {row : AuditExportRow} {c : ChainRow}
    (hrow : row ∈ db.log) (hown : ownChainRow shard row = some c)
    (hvalid : ChainVerifier.ownHashMatches hmac texts keys c = true) :
    ∃ s ∈ log.stamps, s.row = row ∧ s.record = c.record ∧ s.newestBefore = c.newestBefore ∧
      s.record.shard = shard := by
  obtain ⟨key, hkey, prev, hprev, hhash⟩ := (ChainVerifier.ownHashMatches_iff hmac texts).mp hvalid
  have hmem := mem_pairs_link (hforgery.1 row hrow c hown prev _ hprev hhash key hkey rfl)
  refine ⟨_, hmem, ?_, rfl, rfl, ?_⟩
  · unfold ownChainRow at hown
    obtain ⟨record, hrecord, rfl⟩ := Option.map_eq_some_iff.mp hown
    dsimp only at hprev hhash hmem ⊢
    -- The row carries a hash, so the shard's own exporter made its link.
    have hshard : row.chainShard = some shard := by
      by_contra hother
      simp [beq_eq_false_iff_ne.mpr hother] at hhash
    simp only [hshard, beq_self_eq_true, if_true] at hprev hhash ⊢
    obtain ⟨bytes, hbytes, hprev⟩ := Option.bind_eq_some_iff.mp hprev
    obtain ⟨bytes', hbytes', hhash⟩ := Option.bind_eq_some_iff.mp hhash
    rw [fromBytes_eq_some] at hprev hhash
    subst hprev hhash
    unfold AuditExportRecord.fromRow at hrecord
    obtain ⟨seq, hseq, rfl⟩ := Option.map_eq_some_iff.mp hrecord
    cases row
    simp only at hseq hshard hbytes hbytes'
    subst hseq hshard hbytes hbytes'
    rfl
  · unfold ownChainRow at hown
    obtain ⟨record, hrecord, rfl⟩ := Option.map_eq_some_iff.mp hown
    exact (fromRow_eq_some hrecord).1

theorem ownChainRow_seq {shard : Int32} {row : AuditExportRow} {c : ChainRow}
    (h : ownChainRow shard row = some c) : row.exportSeq = some c.record.seq := by
  unfold ownChainRow at h
  obtain ⟨record, hrecord, rfl⟩ := Option.map_eq_some_iff.mp h
  exact (fromRow_eq_some hrecord).2

/-- The row has a number from `start` on. -/
def fromStart (start : Int) (row : AuditExportRow) : Bool :=
  row.exportSeq.any fun seq => start ≤ seq.toInt

theorem fromStart_iff {start : Int} {row : AuditExportRow} :
    fromStart start row = true ↔ ∃ seq, row.exportSeq = some seq ∧ start ≤ seq.toInt := by
  unfold fromStart
  cases row.exportSeq <;> simp

/-- Rows in order: those before the start come first. -/
theorem split_at_start (start : Int) {rows : List AuditExportRow}
    (hsorted : rows.Pairwise AuditExportRow.SeqLe) (hsome : ∀ row ∈ rows, row.exportSeq ≠ none) :
    rows.filter (fun row => !fromStart start row) ++ rows.filter (fromStart start) = rows := by
  induction rows with
  | nil => rfl
  | cons row rows ih =>
    obtain ⟨hfirst, hsorted⟩ := List.pairwise_cons.mp hsorted
    have ih := ih hsorted fun r hr => hsome r (List.mem_cons_of_mem _ hr)
    cases hstart : fromStart start row with
    | false => simp [hstart, ih]
    | true =>
      obtain ⟨seq, hseq, hle⟩ := fromStart_iff.mp hstart
      have hall : ∀ r ∈ rows, fromStart start r = true := by
        intro r hr
        obtain ⟨seq', hseq'⟩ := Option.ne_none_iff_exists'.mp (hsome r (List.mem_cons_of_mem _ hr))
        have := hfirst r hr seq hseq seq' hseq'
        exact fromStart_iff.mpr ⟨seq', hseq', by omega⟩
      have hnone : rows.filter (fun row => !fromStart start row) = [] := by
        rw [List.filter_eq_nil_iff]
        intro r hr
        simp [hall r hr]
      rw [List.filter_cons_of_neg (by simp [hstart]), List.filter_cons_of_pos hstart, hnone,
        List.filter_eq_self.mpr hall, List.nil_append]

/-- The rows of the chain that the verifier has read. -/
def chainRead (db : Database) (shard : Int32) (cp : ChainCheckpoint) : List ChainRow :=
  ((db.readRows cp.headSeq.toInt 0).filter (fromStart cp.startSeq.toInt)).filterMap
    (ownChainRow shard)

theorem Accepted.valid {keys : List K} {old : Int64 → Bool} {start : Int64} {rows : List ChainRow} :
    ∀ {previous : Option Int64}, Accepted hmac texts keys old start previous rows →
      ∀ c ∈ rows, ChainVerifier.ownHashMatches hmac texts keys c = true := by
  induction rows with
  | nil => simp
  | cons row rows ih =>
    rintro previous ⟨hvalid, _, hrest⟩ c hc
    rcases List.mem_cons.mp hc with rfl | hc
    · exact hvalid
    · exact ih hrest c hc

theorem Accepted.hash {keys : List K} {old : Int64 → Bool} {start : Int64} {rows : List ChainRow}
    {previous : Option Int64} (h : Accepted hmac texts keys old start previous rows) :
    ∀ c ∈ rows, ∃ hash, c.hash = some hash := by
  intro c hc
  obtain ⟨_, _, _, _, hhash⟩ := (ChainVerifier.ownHashMatches_iff hmac texts).mp (h.valid c hc)
  exact ⟨_, hhash⟩

/-- What an intact report says about the rows it has read. -/
theorem chainRead_accepted {db : Database} {shard : Int32} {options : ChainVerifyOptions K}
    {cp : ChainCheckpoint}
    (h : (((startVerifier options (some cp)).pushAll hmac texts
      ((db.readRows cp.headSeq.toInt 0).filterMap (ownChainRow shard))).finish
        (some cp)).isIntact) :
    let old := (startVerifier options (some cp)).isOld
    Accepted hmac texts options.keys old cp.startSeq none (chainRead db shard cp) ∧
      ((∃ c, (chainRead db shard cp).getLast? = some c ∧ c.record.seq = cp.headSeq) ∨
        (chainRead db shard cp = [] ∧ cp.headSeq.toInt < cp.startSeq.toInt) ∨
        old cp.newestAt = true) := by
  intro old
  have hsub := db.readRows_sublist cp.headSeq.toInt 0
  have hsome : ∀ row ∈ db.readRows cp.headSeq.toInt 0, row.exportSeq ≠ none := by
    intro row hrow
    obtain ⟨_, seq, hseq, _⟩ := Database.mem_sequenced.mp (hsub.subset hrow)
    simp [hseq]
  have hsplit := split_at_start cp.startSeq.toInt
    ((db.sequenced_sorted 0 cp.headSeq.toInt).sublist hsub) hsome
  rw [← hsplit, List.filterMap_append, ChainVerifier.pushAll_append] at h
  change (ChainVerifier.finish (ChainVerifier.pushAll hmac texts _ (chainRead db shard cp)) _).isIntact
    at h
  obtain ⟨hclean, hhead⟩ := ChainVerifier.finish_intact h
  have hbefore : ChainVerifier.Frame _ (ChainVerifier.pushAll hmac texts
      (startVerifier options (some cp)) (((db.readRows cp.headSeq.toInt 0).filter
        (fun row => !fromStart cp.startSeq.toInt row)).filterMap (ownChainRow shard))) :=
    ChainVerifier.frame_pushAll_before rfl (by
      intro c hc
      obtain ⟨row, hrow, hown⟩ := List.mem_filterMap.mp hc
      have hseq := ownChainRow_seq hown
      have hnot := (List.mem_filter.mp hrow).2
      simp only [fromStart, hseq, Option.any_some, Bool.not_eq_true', decide_eq_false_iff_not] at hnot
      omega)
  obtain ⟨_, haccepted, hlast, hcutoff⟩ := ChainVerifier.intact_pushAll
    (hbefore.start.trans rfl) (by
      intro c hc
      obtain ⟨row, hrow, hown⟩ := List.mem_filterMap.mp hc
      obtain ⟨seq, hseq, hle⟩ := fromStart_iff.mp (List.mem_filter.mp hrow).2
      rw [ownChainRow_seq hown, Option.some.injEq] at hseq
      rw [hseq]
      exact hle) hclean
  rw [hbefore.keys, hbefore.previous, funext hbefore.isOld] at haccepted
  rw [hbefore.last] at hlast
  refine ⟨haccepted, ?_⟩
  rcases hhead with hfound | ⟨hfound, hempty⟩ | hold
  · left
    obtain ⟨seq, hseq, hmap⟩ := Option.bind_eq_some_iff.mp hfound
    obtain ⟨_, _, hpair⟩ := Option.map_eq_some_iff.mp hmap
    have hlastSeq := hseq.symm.trans (congrArg Prod.fst hlast)
    cases hend : (chainRead db shard cp).getLast? with
    | none => simp [hend, startVerifier] at hlastSeq
    | some c =>
      simp only [hend, Option.elim_some, Option.some.injEq] at hlastSeq
      exact ⟨c, rfl, hlastSeq.symm.trans (congrArg Prod.fst hpair)⟩
  · right; left
    refine ⟨?_, hempty⟩
    cases hend : (chainRead db shard cp).getLast? with
    | none => exact List.getLast?_eq_none_iff.mp hend
    | some c =>
      obtain ⟨hash, hhash⟩ := haccepted.hash c (List.mem_of_getLast? hend)
      rw [hend, Option.elim_some, hhash] at hlast
      rw [ChainVerifier.found_of_last hlast] at hfound
      cases hfound
  · right; right
    unfold ChainVerifier.isOld at hold
    rw [hcutoff, hbefore.cutoff] at hold
    exact hold

/-! ### A chain stored as it was stamped -/

/-- The row as the verifier sees it. -/
def Stamp.chainRow (s : Stamp) : ChainRow := ⟨s.record, some s.prev, some s.hash, s.newestBefore⟩

theorem ownChainRow_row (s : Stamp) : ownChainRow s.record.shard s.row = some s.chainRow := by
  simp [ownChainRow, AuditExportRecord.fromRow, Stamp.row, Stamp.chainRow,
    fromBytes_eq_some.mpr rfl]

theorem filterMap_ownChainRow {shard : Int32} {chain : List Stamp}
    (hshard : ∀ s ∈ chain, s.record.shard = shard) :
    (chain.map Stamp.row).filterMap (ownChainRow shard) = chain.map Stamp.chainRow := by
  induction chain with
  | nil => rfl
  | cons s chain ih =>
    have hs := hshard s List.mem_cons_self
    have hown := ownChainRow_row s
    rw [hs] at hown
    rw [List.map_cons, List.filterMap_cons_some hown,
      ih fun s hs => hshard s (List.mem_cons_of_mem _ hs), List.map_cons]

theorem Linked.honest {keys : List K} {start : Int64} {chain : List Stamp} :
    ∀ {prev : ChainHash} {newest : Option Int64} {seq : Int} {previous : Option Previous},
      Linked prev newest seq chain → (∀ s ∈ chain, MadeUnder hmac texts keys s) →
      seq = ChainVerifier.nextSeq start (previous.map Previous.seq) →
      (∀ p ∈ previous, p.hash = some prev ∧ p.newest = newest) →
      Honest hmac texts keys start previous (chain.map Stamp.chainRow) := by
  induction chain with
  | nil =>
    intro prev newest seq previous _ _ _ _
    trivial
  | cons s chain ih =>
    rintro prev newest seq previous ⟨hprev, hnewest, hseq, hrest⟩ hmade hnext hprevious
    obtain ⟨key, hkey, hhash⟩ := hmade s List.mem_cons_self
    refine ⟨(ChainVerifier.ownHashMatches_iff hmac texts).mpr
      ⟨key, hkey, s.prev, rfl, congrArg some hhash⟩, hseq.trans hnext, ?_, ?_⟩
    · intro p hp
      obtain ⟨hphash, hpnewest⟩ := hprevious p hp
      exact ⟨by rw [hphash, ← hprev]; rfl, by rw [hpnewest, ← hnewest]; rfl⟩
    · refine ih hrest (fun s hs => hmade s (List.mem_cons_of_mem _ hs)) ?_ ?_
      · simp only [Option.map_some, ChainVerifier.nextSeq, ← hseq]
        rfl
      · intro p hp
        rw [Option.mem_some_iff] at hp
        subst hp
        exact ⟨rfl, rfl⟩

/-- **A chain stored as it was stamped raises no finding.** -/
theorem honest_intact {db : Database} {shard : Int32} {options : ChainVerifyOptions K}
    {cp : ChainCheckpoint} {chain : List Stamp} {last : Stamp}
    (hlinked : Linked genesis none cp.startSeq.toInt chain)
    (hshard : ∀ s ∈ chain, s.record.shard = shard)
    (hmade : ∀ s ∈ chain, MadeUnder hmac texts options.keys s)
    (hlast : chain.getLast? = some last) (hseq : last.record.seq = cp.headSeq)
    (hhash : last.hash = cp.head) (hknown : options.knownHead = none)
    (hread : db.readRows cp.headSeq.toInt 0 = chain.map Stamp.row) :
    (((startVerifier options (some cp)).pushAll hmac texts
      ((db.readRows cp.headSeq.toInt 0).filterMap (ownChainRow shard))).finish
        (some cp)).isIntact := by
  have hhonest : Honest hmac texts options.keys cp.startSeq none (chain.map Stamp.chainRow) :=
    hlinked.honest hmade rfl (by simp)
  rw [hread, filterMap_ownChainRow hshard]
  obtain ⟨hfindings, hnone, hfound⟩ := ChainVerifier.pushAll_honest
    (v := startVerifier options (some cp)) hknown rfl (Int.le_refl _) hhonest
  rw [List.getLast?_map, hlast, Option.map_some, Option.elim_some] at hfound
  change _ = some (last.record.seq, last.hash) at hfound
  rw [hseq, hhash] at hfound
  unfold ChainVerifier.finish ChainVerifier.checkHead ChainReport.isIntact
  simp only [hfound, if_true, hnone]
  exact hfindings

/-! ### With a retention cutoff -/

/-- A number that was skipped lies behind a row that explains the gap, or all rows end
before it. -/
theorem Accepted.skipped {keys : List K} {old : Int64 → Bool} {start : Int64} {n : Int}
    {rows : List ChainRow} :
    ∀ {previous : Option Int64}, Accepted hmac texts keys old start previous rows →
      ChainVerifier.nextSeq start previous ≤ n → (∀ c ∈ rows, c.record.seq.toInt ≠ n) →
      (∃ c ∈ rows, n < c.record.seq.toInt ∧ c.newestBefore.any old = true) ∨
        ∀ c ∈ rows, c.record.seq.toInt < n := by
  induction rows with
  | nil =>
    intro previous _ _ _
    right
    simp
  | cons row rows ih =>
    rintro previous ⟨_, hgap, hrest⟩ hnext hskip
    have hne := hskip row List.mem_cons_self
    by_cases hbefore : row.record.seq.toInt < n
    · have hreached : ChainVerifier.nextSeq start (some row.record.seq) ≤ n := by
        simp only [ChainVerifier.nextSeq]
        omega
      rcases ih hrest hreached fun c hc => hskip c (List.mem_cons_of_mem _ hc) with
        ⟨c, hc, hlt, hold⟩ | hall
      · exact .inl ⟨c, List.mem_cons_of_mem _ hc, hlt, hold⟩
      · right
        intro c hc
        rcases List.mem_cons.mp hc with rfl | hc
        · exact hbefore
        · exact hall c hc
    · left
      refine ⟨row, List.mem_cons_self, by omega, ?_⟩
      rcases hgap with hnow | hold
      · omega
      · exact hold

/-- Two stamps of one number are one stamp. -/
theorem ExportLog.OnePerSeq.eq {log : ExportLog} (hone : log.OnePerSeq) {s s' : Stamp}
    (hs : s ∈ log.stamps) (hs' : s' ∈ log.stamps) (hshard : s.record.shard = s'.record.shard)
    (hseq : s.record.seq = s'.record.seq) : s = s' :=
  List.inj_on_of_nodup_map hone hs hs' (Prod.ext hshard hseq)

theorem mem_range {log : ExportLog} {shard : Int32} {start head : Int} {s : Stamp} :
    s ∈ log.range shard start head ↔ s ∈ log.stamps ∧ s.record.shard = shard ∧
      start ≤ s.record.seq.toInt ∧ s.record.seq.toInt ≤ head := by
  unfold ExportLog.range
  rw [List.mem_filter, decide_eq_true_eq]

theorem mem_chainRead {db : Database} {shard : Int32} {cp : ChainCheckpoint} {c : ChainRow}
    (h : c ∈ chainRead db shard cp) :
    ∃ row ∈ db.log, ownChainRow shard row = some c ∧ cp.startSeq.toInt ≤ c.record.seq.toInt ∧
      c.record.seq.toInt ≤ cp.headSeq.toInt ∧ 0 < c.record.seq.toInt := by
  obtain ⟨row, hrow, hown⟩ := List.mem_filterMap.mp h
  obtain ⟨hread, hstart⟩ := List.mem_filter.mp hrow
  obtain ⟨hmem, seq, hseq, hpos, hle⟩ :=
    Database.mem_sequenced.mp ((db.readRows_sublist _ _).subset hread)
  obtain ⟨seq', hseq', hge⟩ := fromStart_iff.mp hstart
  rw [ownChainRow_seq hown, Option.some.injEq] at hseq hseq'
  rw [← hseq] at hpos hle
  rw [← hseq'] at hge
  exact ⟨row, hmem, hown, hge, hle, hpos⟩

/-- A stamped row that is missing is old. -/
theorem missing_is_old {log : ExportLog} {db : Database} {shard : Int32} {keys : List K}
    {old : Int64 → Bool} {cp : ChainCheckpoint}
    (hforgery : Unforged hmac texts log db shard keys) (hone : log.OnePerSeq)
    (hcovered : Covered log shard cp)
    (haccepted : Accepted hmac texts keys old cp.startSeq none (chainRead db shard cp))
    (hhead : (∃ c, (chainRead db shard cp).getLast? = some c ∧ c.record.seq = cp.headSeq) ∨
      (chainRead db shard cp = [] ∧ cp.headSeq.toInt < cp.startSeq.toInt) ∨
      old cp.newestAt = true)
    {s : Stamp} (hs : s ∈ log.range shard cp.startSeq.toInt cp.headSeq.toInt)
    (hmissing : s.row ∉ db.log) :
    ∃ t : Int64, old t = true ∧ s.record.occurredAt.toInt ≤ t.toInt := by
  obtain ⟨hstamp, hshard, hlow, hhigh⟩ := mem_range.mp hs
  obtain ⟨chain, hchain, hlinked, hlength, htip⟩ := hcovered
  -- Every stamp of these numbers is in the chain of the checkpoint.
  have hin : ∀ s' ∈ log.stamps, s'.record.shard = shard →
      cp.startSeq.toInt ≤ s'.record.seq.toInt → s'.record.seq.toInt ≤ cp.headSeq.toInt →
      s' ∈ chain := by
    intro s' hs' hshard' hlow' hhigh'
    obtain ⟨s'', hs'', hseq⟩ := hlinked.exists_stamp hlow' (by omega)
    rw [hone.eq hs' (hchain s'' hs'').1 (hshard'.trans (hchain s'' hs'').2.symm)
      (Int64.toInt_inj.mp hseq.symm)]
    exact hs''
  have hmem := hin s hstamp hshard hlow hhigh
  obtain ⟨hlater, t, ht, hle⟩ := hlinked.occurred_le s hmem
  have hskip : ∀ c ∈ chainRead db shard cp, c.record.seq.toInt ≠ s.record.seq.toInt := by
    intro c hc hseq
    obtain ⟨row, hrow, hown, _⟩ := mem_chainRead hc
    obtain ⟨s', hs', hrow', hrecord, _, hshard'⟩ :=
      stamp_of_valid hforgery hrow hown (haccepted.valid c hc)
    have heq := hone.eq hs' hstamp (hshard'.trans hshard.symm)
      (by rw [hrecord]; exact Int64.toInt_inj.mp hseq)
    rw [← heq, hrow'] at hmissing
    exact hmissing hrow
  rcases haccepted.skipped hlow hskip with ⟨c, hc, hlt, hold⟩ | hall
  · obtain ⟨row, hrow, hown, hge, hle', _⟩ := mem_chainRead hc
    obtain ⟨s', hs', _, hrecord, hnewest, hshard'⟩ :=
      stamp_of_valid hforgery hrow hown (haccepted.valid c hc)
    obtain ⟨t', ht', hle''⟩ := hlater s' (hin s' hs' hshard' (by rw [hrecord]; exact hge)
      (by rw [hrecord]; exact hle')) (by rw [hrecord]; exact hlt)
    rw [← hnewest, ht', Option.any_some] at hold
    exact ⟨t', hold, hle''⟩
  · rcases hhead with ⟨c, hc, hseq⟩ | ⟨_, hempty⟩ | hold
    · have := hall c (List.mem_of_getLast? hc)
      rw [hseq] at this
      omega
    · omega
    · rw [htip (List.ne_nil_of_mem hmem)] at ht
      cases ht
      exact ⟨_, hold, hle⟩

/-! ### Without a retention cutoff -/

theorem Accepted.first {keys : List K} {start : Int64} {previous : Option Int64} {row : ChainRow}
    {rows : List ChainRow}
    (h : Accepted hmac texts keys (fun _ => false) start previous (row :: rows)) :
    row.record.seq.toInt = ChainVerifier.nextSeq start previous := by
  rcases h.2.1 with hnext | hold
  · exact hnext
  · cases hnewest : row.newestBefore <;> simp [hnewest] at hold

/-- With no gap to explain, the numbers increase one by one. -/
theorem Accepted.increasing {keys : List K} {start : Int64} {rows : List ChainRow} :
    ∀ {previous : Option Int64}, Accepted hmac texts keys (fun _ => false) start previous rows →
      (∀ c ∈ rows, ChainVerifier.nextSeq start previous ≤ c.record.seq.toInt) ∧
        rows.Pairwise fun c c' => c.record.seq.toInt < c'.record.seq.toInt := by
  induction rows with
  | nil => simp
  | cons row rows ih =>
    intro previous haccepted
    have hnext := haccepted.first
    obtain ⟨hge, hpairs⟩ := ih haccepted.2.2
    simp only [ChainVerifier.nextSeq] at hge
    refine ⟨?_, List.pairwise_cons.mpr ⟨fun c hc => ?_, hpairs⟩⟩
    · intro c hc
      rcases List.mem_cons.mp hc with rfl | hc
      · omega
      · have := hge c hc
        omega
    · have := hge c hc
      omega

/-- The rows read from the chain start on are exactly the stamped rows. -/
theorem read_perm_stamped {log : ExportLog} {db : Database} {shard : Int32} {keys : List K}
    {cp : ChainCheckpoint} (hforgery : Unforged hmac texts log db shard keys)
    (hone : log.OnePerSeq)
    (haccepted : Accepted hmac texts keys (fun _ => false) cp.startSeq none (chainRead db shard cp))
    (hhead : (∃ c, (chainRead db shard cp).getLast? = some c ∧ c.record.seq = cp.headSeq) ∨
      (chainRead db shard cp = [] ∧ cp.headSeq.toInt < cp.startSeq.toInt)) :
    ((db.readRows cp.headSeq.toInt 0).filter (fromStart cp.startSeq.toInt)).Perm
      ((log.range shard cp.startSeq.toInt cp.headSeq.toInt).map Stamp.row) := by
  have hown : ∀ row ∈ (db.readRows cp.headSeq.toInt 0).filter (fromStart cp.startSeq.toInt),
      ∃ c ∈ chainRead db shard cp, ownChainRow shard row = some c := by
    intro row hrow
    obtain ⟨seq, hseq, _⟩ := fromStart_iff.mp (List.mem_filter.mp hrow).2
    obtain ⟨c, hc⟩ : ∃ c, ownChainRow shard row = some c := by
      simp [ownChainRow, AuditExportRecord.fromRow, hseq]
    exact ⟨c, List.mem_filterMap.mpr ⟨row, hrow, hc⟩, hc⟩
  have hvalid : ∀ row c, row ∈ db.log → c ∈ chainRead db shard cp →
      ownChainRow shard row = some c → ∃ s ∈ log.stamps, s.row = row ∧
        s.record = c.record ∧ s.record.shard = shard := by
    intro row c hrow hc hown
    obtain ⟨s, hs, hsrow, hrecord, _, hshard⟩ :=
      stamp_of_valid hforgery hrow hown (haccepted.valid c hc)
    exact ⟨s, hs, hsrow, hrecord, hshard⟩
  rw [List.perm_ext_iff_of_nodup]
  · intro row
    constructor
    · intro hrow
      obtain ⟨c, hc, hown⟩ := hown row hrow
      obtain ⟨row', hrow', hown', hge, hle, _⟩ := mem_chainRead hc
      have hmem := (Database.mem_sequenced.mp
        ((db.readRows_sublist _ _).subset (List.mem_filter.mp hrow).1)).1
      obtain ⟨s, hs, hsrow, hrecord, hshard⟩ := hvalid row c hmem hc hown
      refine List.mem_map.mpr ⟨s, mem_range.mpr ⟨hs, hshard, ?_, ?_⟩, hsrow⟩
      · rw [hrecord]; exact hge
      · rw [hrecord]; exact hle
    · intro hrow
      obtain ⟨s, hs, rfl⟩ := List.mem_map.mp hrow
      obtain ⟨hstamp, hshard, hlow, hhigh⟩ := mem_range.mp hs
      -- A number that no row read holds would lie past the head.
      have hheld : ∃ c ∈ chainRead db shard cp, c.record.seq.toInt = s.record.seq.toInt := by
        by_contra hskip
        simp only [not_exists, not_and] at hskip
        rcases haccepted.skipped hlow hskip with ⟨c, _, _, hold⟩ | hall
        · cases hnewest : c.newestBefore <;> simp [hnewest] at hold
        · rcases hhead with ⟨c, hc, hseq⟩ | ⟨_, hempty⟩
          · have := hall c (List.mem_of_getLast? hc)
            rw [hseq] at this
            omega
          · omega
      obtain ⟨c, hc, hseq⟩ := hheld
      obtain ⟨row, hrow, hown⟩ := List.mem_filterMap.mp hc
      have hmem := (Database.mem_sequenced.mp
        ((db.readRows_sublist _ _).subset (List.mem_filter.mp hrow).1)).1
      obtain ⟨s', hs', hsrow, hrecord, hshard'⟩ := hvalid row c hmem hc hown
      have heq := hone.eq hs' hstamp (hshard'.trans hshard.symm)
        (by rw [hrecord]; exact Int64.toInt_inj.mp hseq)
      rw [← heq, hsrow]
      exact hrow
  · have hpairs := List.pairwise_filterMap.mp haccepted.increasing.2
    refine hpairs.imp_of_mem ?_
    rintro row row' hrow _ hlt rfl
    obtain ⟨c, _, hc⟩ := hown row hrow
    have := hlt c hc c hc
    omega
  · have hnodup : (log.range shard cp.startSeq.toInt cp.headSeq.toInt).Nodup :=
      (List.Nodup.of_map _ hone).filter _
    refine hnodup.map_on ?_
    intro s hs s' hs' hrow
    refine hone.eq (mem_range.mp hs).1 (mem_range.mp hs').1 ?_ ?_
    · exact Option.some.inj (congrArg AuditExportRow.chainShard hrow)
    · exact Option.some.inj (congrArg AuditExportRow.exportSeq hrow)

theorem filter_fromStart {db : Database} {start head : Int} (h : 0 < start ∨ head < start) :
    (db.sequenced 0 head).filter (fromStart start) = db.sequenced (start - 1) head := by
  unfold Database.sequenced
  rw [List.filter_filter]
  refine List.filter_congr fun row _ => ?_
  rw [Bool.eq_iff_iff, Bool.and_eq_true, fromStart_iff, inRange_iff, inRange_iff]
  constructor
  · rintro ⟨⟨seq, hseq, hle⟩, seq', hseq', _, hhigh⟩
    rw [hseq, Option.some.injEq] at hseq'
    subst hseq'
    exact ⟨seq, hseq, by omega, hhigh⟩
  · rintro ⟨seq, hseq, hlow, hhigh⟩
    exact ⟨⟨seq, hseq, by omega⟩, seq, hseq, by omega, hhigh⟩

theorem nothingLeftBehind_iff {db : Database} {cp : ChainCheckpoint} {bound : Int} :
    NothingLeftBehind db cp bound ↔
      (db.leftBehind bound 0).filter (fromStart cp.startSeq.toInt) = [] := by
  rw [List.filter_eq_nil_iff]
  constructor
  · intro h row hrow hstart
    obtain ⟨seq, hseq, hle⟩ := fromStart_iff.mp hstart
    have := h row hrow seq hseq
    omega
  · intro h row hrow seq hseq
    have := mt fromStart_iff.mpr (h row hrow)
    by_contra hge
    exact this ⟨seq, hseq, by omega⟩

/-- The rows of the chain are all read exactly when none is left behind. -/
theorem untampered_iff_of_read {log : ExportLog} {db : Database} {shard : Int32}
    {cp : ChainCheckpoint} (hrange : 0 < cp.startSeq.toInt ∨ cp.headSeq.toInt < cp.startSeq.toInt)
    (hread : ((db.readRows cp.headSeq.toInt 0).filter (fromStart cp.startSeq.toInt)).Perm
      ((log.range shard cp.startSeq.toInt cp.headSeq.toInt).map Stamp.row)) :
    Untampered log db shard cp none ↔ NothingLeftBehind db cp cp.headSeq.toInt := by
  have hall := (db.read_perm cp.headSeq.toInt 0).filter (fromStart cp.startSeq.toInt)
  rw [filter_fromStart hrange, List.filter_append] at hall
  rw [nothingLeftBehind_iff]
  constructor
  · intro huntampered
    have hlength := (hall.trans huntampered).length_eq
    rw [List.length_append, hread.length_eq] at hlength
    exact List.eq_nil_of_length_eq_zero (by omega)
  · intro hnone
    rw [hnone, List.append_nil] at hall
    exact hall.symm.trans hread

/-- The stored checkpoint that verifies stands for a chain of the exporter. -/
theorem covered_of_verified {log : ExportLog} (hlog : Exported hmac texts log)
    (hone : log.OnePerSeq) {db : Database} {shard : Int32} {keys : List K}
    (hforgery : Unforged hmac texts log db shard keys) {cursor : AuditExportCursor}
    {cp : ChainCheckpoint} (hfind : db.find shard = some cursor)
    (hcp : verifiedCheckpoint hmac cursor keys = (some cp, none)) : Covered log shard cp := by
  unfold verifiedCheckpoint at hcp
  split at hcp
  · next checkpoint mac hstored =>
    split at hcp
    · next hany =>
      obtain rfl : checkpoint = cp := Option.some.inj (Prod.mk.inj hcp).1
      obtain ⟨key, hkey, hmac'⟩ := List.any_eq_true.mp hany
      rw [find_shardId hfind, decide_eq_true_eq] at hmac'
      exact signed_covered hlog hone _
        (mem_pairs_checkpoint (hforgery.2 cursor hfind _ mac hstored key hkey hmac'))
    · cases hcp
  · split at hcp <;> cases hcp

/-- **Tamper evidence.** When the verifier reports a shard intact against a checkpoint
whose MAC verifies, the rows of the chain are untampered exactly when a retention cutoff
applies or no row of the chain is left behind by the paging. -/
theorem intact_iff_nothing_left_behind {log : ExportLog} (hlog : Exported hmac texts log)
    (hone : log.OnePerSeq) (db : Database) (shard : Int32) (options : ChainVerifyOptions K)
    {cursor : AuditExportCursor} {cp : ChainCheckpoint} (hfind : db.find shard = some cursor)
    (hcp : verifiedCheckpoint hmac cursor options.keys = (some cp, none))
    (hforgery : Unforged hmac texts log db shard options.keys)
    (hintact : (verifyShardChainWith hmac texts db shard options).isIntact) :
    Untampered log db shard cp options.retentionCutoff ↔
      (options.retentionCutoff = none → NothingLeftBehind db cp cursor.lastAssignedSeq.toInt) := by
  obtain ⟨_, hbound, hclean⟩ := (verifyShardChainWith_intact hmac texts hfind hcp).mp hintact
  obtain ⟨haccepted, hhead⟩ := chainRead_accepted hclean
  rw [← hbound]
  cases hcutoff : options.retentionCutoff with
  | some cutoff =>
    refine ⟨fun _ h => absurd h (by simp), fun _ s hs hmissing => ?_⟩
    obtain ⟨t, hold, hle⟩ := missing_is_old hforgery hone
      (covered_of_verified hlog hone hforgery hfind hcp) haccepted hhead hs hmissing
    simp only [startVerifier, ChainVerifier.isOld, hcutoff, decide_eq_true_eq] at hold
    omega
  | none =>
    have hnever : (startVerifier options (some cp)).isOld = fun _ => false := by
      funext t
      simp [startVerifier, ChainVerifier.isOld, hcutoff]
    rw [hnever] at haccepted hhead
    have hhead := hhead.imp_right fun h => h.resolve_right Bool.false_ne_true
    have hread := read_perm_stamped hforgery hone haccepted hhead
    have hrange : 0 < cp.startSeq.toInt ∨ cp.headSeq.toInt < cp.startSeq.toInt := by
      rcases hhead with ⟨c, hc, _⟩ | ⟨_, hempty⟩
      · left
        have hmem := List.mem_of_getLast? hc
        cases hrows : chainRead db shard cp with
        | nil => simp [hrows] at hmem
        | cons first rest =>
          obtain ⟨_, _, _, _, _, hpos⟩ := mem_chainRead (hrows ▸ List.mem_cons_self)
          rw [hrows] at haccepted
          have hfirst := haccepted.first
          simp only [ChainVerifier.nextSeq] at hfirst
          omega
      · exact .inr hempty
    rw [untampered_iff_of_read hrange hread]
    simp

end Verify

/-! ### One forged row behind a full page -/

/-- A MAC to run on: a checksum of the key and the input. -/
def sampleMac (key input : Bytes) : ChainHash :=
  ⟨beBytes 32 ((key ++ input).foldl (fun sum byte => 257 * sum + byte.toNat + 1) 0),
    length_beBytes _ _⟩

/-- A decimal text is too short to be a time. -/
theorem seqText_ne_rfc3339 (t : Int64) : (seqText t).val ≠ "2023-11-14T22:13:21.123456Z" := by
  intro h
  have hlow := t.le_toInt
  have hhigh := t.toInt_lt
  have hlength : t.toInt.repr.length ≤ 20 := by
    rw [Int.repr_eq_if]
    split_ifs
    · have := Nat.repr_length t.toInt.toNat 19 (by omega) (by omega)
      omega
    · have := Nat.repr_length (-t.toInt).toNat 19 (by omega) (by omega)
      have hminus : "-".length = 1 := rfl
      rw [String.length_append]
      omega
  have htext : "2023-11-14T22:13:21.123456Z".length = 27 := by decide
  change t.toInt.repr = _ at h
  rw [h] at hlength
  omega

/-- Times as text: RFC 3339 at the one instant of the sample rows. -/
def sampleTexts : TimeText where
  canonicalTime t :=
    if t = 1700000001123456 then ⟨"2023-11-14T22:13:21.123456Z", by decide⟩ else seqText t
  injective a b h := by
    split_ifs at h with ha hb hb
    · rw [ha, hb]
    · exact absurd (congrArg Subtype.val h).symm (seqText_ne_rfc3339 b)
    · exact absurd (congrArg Subtype.val h) (seqText_ne_rfc3339 a)
    · exact seqText_inj h

/-- An audit row with its number, not yet chained. -/
def sampleRow (n : Nat) : AuditExportRow :=
  { id := BitVec.ofNat 128 n, occurredAt := 1700000001123456, actor := ⟨"alice", by decide⟩
    operation := ⟨"workflow.cancel", by decide⟩, targetType := ⟨"execution", by decide⟩
    targetId := some ⟨"exec-1", by decide⟩, routeOrCommand := ⟨"POST /workflows/cancel", by decide⟩
    requestId := none, idempotencyKey := none, status := ⟨"succeeded", by decide⟩
    errorSummary := none, shardId := some 2, source := ⟨"api", by decide⟩
    exportSeq := some (Int64.ofNat n), chainPrev := none, chainNewestBefore := none
    chainHash := none, chainShard := none }

/-- The rows with the numbers `1` to `n`. -/
def sampleRows (n : Nat) : List AuditExportRow := (List.range' 1 n).map sampleRow

theorem toInt_ofNat_small {n : Nat} (hn : n ≤ 1000) : (Int64.ofNat n).toInt = n :=
  Int64.toInt_ofNat_of_lt (by omega)

theorem sampleRows_consecutive (n : Nat) :
    ∀ k, k + n ≤ 1000 → Consecutive k ((List.range' (k + 1) n).map sampleRow) := by
  induction n with
  | zero =>
    intro k _
    trivial
  | succ n ih =>
    intro k hk
    rw [List.range'_succ, List.map_cons]
    refine ⟨⟨_, rfl, ?_⟩, ih (k + 1) (by omega)⟩
    rw [toInt_ofNat_small (by omega)]
    rfl

theorem mem_sampleRows {n : Nat} {row : AuditExportRow} :
    row ∈ sampleRows n ↔ ∃ i, 1 ≤ i ∧ i ≤ n ∧ sampleRow i = row := by
  simp only [sampleRows, List.mem_map, List.mem_range'_1]
  constructor
  · rintro ⟨i, hi, rfl⟩
    exact ⟨i, hi.1, by omega, rfl⟩
  · rintro ⟨i, hlow, hhigh, rfl⟩
    exact ⟨i, by omega, rfl⟩

def sampleKey : AuditChainKey Bytes := ⟨List.replicate 32 7, []⟩

/-- The cursor before the first claim. -/
def sampleCursor : AuditExportCursor :=
  { shardId := 2, lastAssignedSeq := 0, retiredAt := none, chainHead := none, chainStartSeq := none
    chainHeadSeq := none, chainNewestAt := none, chainMac := none }

/-- The database in which the exporter has just numbered `n` rows. -/
def sampleDb (n : Nat) (hn : n ≤ 1000) : Database where
  cursors := [sampleCursor]
  log := sampleRows n
  ordered := by
    refine List.pairwise_map.mpr ((List.pairwise_lt_range' (s := 1) (n := n) 1).imp_of_mem ?_)
    intro i j hi hj hlt a ha b hb
    rw [List.mem_range'_1] at hi hj
    cases ha
    cases hb
    rw [toInt_ofNat_small (by omega), toInt_ofNat_small (by omega)]
    omega

/-- The links of these rows. -/
def sampleStamps (n : Nat) : List Stamp :=
  stampRows sampleMac sampleTexts 2 sampleKey.active genesis none (sampleRows n)

theorem sampleStamps_linked {n : Nat} (hn : n ≤ 1000) :
    Linked genesis none 1 (sampleStamps n) :=
  stampRows_linked (sampleRows_consecutive n 0 (by omega))

theorem map_seq_sampleStamps (n : Nat) :
    (sampleStamps n).map (fun s => some s.record.seq) =
      (sampleRows n).map AuditExportRow.exportSeq :=
  map_seq_stampRows fun row hrow => by
    obtain ⟨i, _, _, rfl⟩ := mem_sampleRows.mp hrow
    simp [sampleRow]

theorem length_sampleStamps (n : Nat) : (sampleStamps n).length = n := by
  have h := congrArg List.length (map_seq_sampleStamps n)
  simpa [sampleRows] using h

/-- The checkpoint that the exporter signs over them. -/
def sampleCheckpoint (n : Nat) : ChainCheckpoint :=
  { startSeq := 1, headSeq := Int64.ofNat n, head := (tip genesis none (sampleStamps n)).1
    newestAt := (tip genesis none (sampleStamps n)).2.getD 0 }

theorem getLast_sampleStamps {n : Nat} (hpos : 0 < n) (hn : n ≤ 1000) :
    ∃ last, (sampleStamps n).getLast? = some last ∧ last.record.seq = (sampleCheckpoint n).headSeq ∧
      last.hash = (sampleCheckpoint n).head ∧ last.newest = (sampleCheckpoint n).newestAt := by
  cases hlast : (sampleStamps n).getLast? with
  | none =>
    have := congrArg List.length (List.getLast?_eq_none_iff.mp hlast)
    rw [length_sampleStamps, List.length_nil] at this
    omega
  | some last =>
    have hseq := (sampleStamps_linked hn).last_seq hlast
    have htip := tip_of_getLast hlast genesis none
    rw [length_sampleStamps] at hseq
    refine ⟨last, rfl, Int64.toInt_inj.mp ?_, ?_, ?_⟩
    · show _ = (Int64.ofNat n).toInt
      rw [toInt_ofNat_small hn]
      omega
    · simp [sampleCheckpoint, htip]
    · simp [sampleCheckpoint, htip]

theorem sample_sequenced {n : Nat} (hn : n ≤ 1000) :
    (sampleDb n hn).sequenced 0 (Int64.ofNat n).toInt = sampleRows n := by
  refine List.filter_eq_self.mpr ?_
  intro row hrow
  obtain ⟨i, hlow, hhigh, rfl⟩ := mem_sampleRows.mp hrow
  refine inRange_iff.mpr ⟨_, rfl, ?_, ?_⟩
  · rw [toInt_ofNat_small (by omega)]
    omega
  · rw [toInt_ofNat_small (by omega), toInt_ofNat_small hn]
    omega

theorem sample_claim {n : Nat} (hpos : 0 < n) (hn : n ≤ 1000) :
    claimShardChained sampleMac sampleTexts sampleKey (sampleDb n hn) 2 (Int64.ofNat n) =
      some (sampleStamps n, sampleCheckpoint n) := by
  obtain ⟨last, hlast, hseq, hhash, hnewest⟩ := getLast_sampleStamps hpos hn
  have hanchor : chainAnchor sampleMac (sampleDb n hn) sampleCursor sampleKey = .ok {} := by
    have hnone : (sampleDb n hn).anyChainedRow sampleCursor.lastAssignedSeq.toInt = false := by
      refine List.any_eq_false.mpr ?_
      intro row hrow
      obtain ⟨i, _, _, rfl⟩ := mem_sampleRows.mp hrow
      simp [sampleRow]
    have hother : (sampleDb n hn).otherLiveCursor sampleCursor.shardId = false := rfl
    have hstored : storedCheckpoint sampleCursor = none := rfl
    have hcolumns : hasCheckpointColumn sampleCursor = false := rfl
    simp [chainAnchor, hother, hstored, hcolumns, hnone]
  have hstamps : stampChain sampleMac sampleTexts (sampleDb n hn) 2 sampleKey.active
      sampleCursor.lastAssignedSeq.toInt (Int64.ofNat n).toInt {} = sampleStamps n := by
    have hzero : sampleCursor.lastAssignedSeq.toInt = 0 := rfl
    rw [stampChain, hzero, sample_sequenced hn, Option.getD_none]
    rfl
  have hfirst : ∃ first, (sampleStamps n).head? = some first ∧ first.record.seq = 1 := by
    have hlinked := sampleStamps_linked hn
    cases hcases : sampleStamps n with
    | nil => simp [hcases] at hlast
    | cons first rest =>
      rw [hcases] at hlinked
      exact ⟨first, rfl, Int64.toInt_inj.mp hlinked.2.2.1⟩
  obtain ⟨first, hfirst, hone⟩ := hfirst
  have hfind : (sampleDb n hn).find 2 = some sampleCursor := rfl
  have hless : sampleCursor.lastAssignedSeq.toInt < (Int64.ofNat n).toInt := by
    rw [toInt_ofNat_small hn]
    show (0 : Int) < n
    omega
  have hretired : sampleCursor.retiredAt = none := rfl
  simp only [claimShardChained, hfind, Option.bind_eq_bind, Option.bind_some, hanchor, hstamps,
    hretired, guard, hless, if_true, Option.pure_def, stamped, hfirst, hlast, hone, hseq, hhash,
    hnewest, Option.getD_none]
  rfl

/-- What the exporter has produced after this claim. -/
def sampleLog (n : Nat) : ExportLog :=
  { stamps := sampleStamps n
    signed := [⟨2, sampleCheckpoint n, (sampleCheckpoint n).mac sampleMac sampleKey.active 2⟩] }

theorem sampleLog_exported {n : Nat} (hpos : 0 < n) (hn : n ≤ 1000) :
    Exported sampleMac sampleTexts (sampleLog n) := by
  refine ⟨[.claim sampleKey (sampleDb n hn) 2 (Int64.ofNat n)], ⟨?_, trivial⟩, ?_⟩
  · intro cursor hfind
    obtain rfl : sampleCursor = cursor := Option.some.inj hfind
    refine ⟨fun cp mac h => absurd h (by simp [storedCheckpoint, sampleCursor]), ?_⟩
    intro k hlow hhigh
    have hzero : sampleCursor.lastAssignedSeq.toInt = 0 := rfl
    rw [hzero] at hlow
    rw [toInt_ofNat_small hn] at hhigh
    refine ⟨sampleRow k.toNat, mem_sampleRows.mpr ⟨k.toNat, by omega, by omega, rfl⟩, _, rfl, ?_⟩
    rw [toInt_ofNat_small (by omega)]
    omega
  · simp only [exec_cons, exec_nil, exportStep, sample_claim hpos hn]
    rfl

theorem sampleLog_onePerSeq {n : Nat} (hn : n ≤ 1000) : (sampleLog n).OnePerSeq := by
  have hnodup : ((sampleStamps n).map fun s => some s.record.seq).Nodup := by
    rw [map_seq_sampleStamps, sampleRows, List.map_map]
    refine List.Nodup.map_on ?_ List.nodup_range'
    intro i hi j hj heq
    rw [List.mem_range'_1] at hi hj
    have := congrArg Int64.toInt (Option.some.inj heq)
    rw [toInt_ofNat_small (by omega), toInt_ofNat_small (by omega)] at this
    omega
  refine List.pairwise_map.mpr ((List.pairwise_map.mp hnodup).imp ?_)
  intro s s' hne heq
  exact hne (congrArg some (congrArg Prod.snd heq))

/-- The cursor after the claim. -/
def stampedCursor (n : Nat) : AuditExportCursor :=
  let cp := sampleCheckpoint n
  { shardId := 2, lastAssignedSeq := Int64.ofNat n, retiredAt := none, chainHead := some cp.head.val
    chainStartSeq := some cp.startSeq, chainHeadSeq := some cp.headSeq
    chainNewestAt := some cp.newestAt
    chainMac := some (cp.mac sampleMac sampleKey.active 2).val }

/-- The database after the claim, with further rows that carry the last number. -/
def stampedDb (n : Nat) (hn : n ≤ 1000) (extra : List AuditExportRow)
    (hextra : ∀ row ∈ extra, row.exportSeq = some (Int64.ofNat n)) : Database where
  cursors := [stampedCursor n]
  log := (sampleStamps n).map Stamp.row ++ extra
  ordered := by
    have hlinked := sampleStamps_linked hn
    have hlength := length_sampleStamps n
    refine List.pairwise_append.mpr ⟨List.pairwise_map.mpr (hlinked.increasing.imp ?_), ?_, ?_⟩
    · intro s s' hlt a ha b hb
      cases ha
      cases hb
      omega
    · refine List.pairwise_of_forall_mem_list ?_
      intro row hrow row' hrow' a ha b hb
      rw [hextra row hrow] at ha
      rw [hextra row' hrow'] at hb
      cases ha
      cases hb
      omega
    · intro row hrow row' hrow' a ha b hb
      obtain ⟨s, hs, rfl⟩ := List.mem_map.mp hrow
      rw [hextra row' hrow'] at hb
      cases ha
      cases hb
      have := hlinked.seq_lt s hs
      rw [hlength] at this
      rw [toInt_ofNat_small hn]
      omega

/-- The options of `verify_shard_chain`. -/
def sampleOptions : ChainVerifyOptions Bytes := ⟨[sampleKey.active], none, none⟩

theorem stampedCursor_stored (n : Nat) : storedCheckpoint (stampedCursor n) =
    some (sampleCheckpoint n, (sampleCheckpoint n).mac sampleMac sampleKey.active 2) := by
  simp [storedCheckpoint, stampedCursor, fromBytes_eq_some.mpr rfl]

theorem stampedCursor_verified (n : Nat) :
    verifiedCheckpoint sampleMac (stampedCursor n) sampleOptions.keys =
      (some (sampleCheckpoint n), none) := by
  have hshard : (stampedCursor n).shardId = 2 := rfl
  simp [verifiedCheckpoint, stampedCursor_stored, sampleOptions, hshard]

section Stamped

variable {n : Nat} (hn : n ≤ 1000) (extra : List AuditExportRow)
  (hextra : ∀ row ∈ extra, row.exportSeq = some (Int64.ofNat n))

theorem stampedDb_sequenced (hpos : 0 < n) :
    (stampedDb n hn extra hextra).sequenced 0 (Int64.ofNat n).toInt =
      (sampleStamps n).map Stamp.row ++ extra := by
  have hlinked := sampleStamps_linked hn
  have hlength := length_sampleStamps n
  refine List.filter_eq_self.mpr ?_
  intro row hrow
  rw [toInt_ofNat_small hn]
  rcases List.mem_append.mp hrow with hrow | hrow
  · obtain ⟨s, hs, rfl⟩ := List.mem_map.mp hrow
    have hge := hlinked.seq_ge s hs
    have hlt := hlinked.seq_lt s hs
    rw [hlength] at hlt
    exact inRange_iff.mpr ⟨_, rfl, by omega, by omega⟩
  · refine inRange_iff.mpr ⟨_, hextra row hrow, ?_, ?_⟩
    · rw [toInt_ofNat_small hn]
      omega
    · rw [toInt_ofNat_small hn]

/-- One page holds the stamped rows, and it ends at the bound. -/
theorem stampedDb_page (hpos : 0 < n) (hfull : extra = [] ∨ n = 1000) :
    (stampedDb n hn extra hextra).page 0 (Int64.ofNat n).toInt = (sampleStamps n).map Stamp.row ∧
      (((stampedDb n hn extra hextra).page 0 (Int64.ofNat n).toInt).getLast?.bind
        AuditExportRow.exportSeq) = some (Int64.ofNat n) := by
  have hlength : ((sampleStamps n).map Stamp.row).length = n := by
    rw [List.length_map, length_sampleStamps]
  have hpage : (stampedDb n hn extra hextra).page 0 (Int64.ofNat n).toInt =
      (sampleStamps n).map Stamp.row := by
    rw [Database.page, stampedDb_sequenced hn extra hextra hpos, verifyPageRows]
    rcases hfull with rfl | rfl
    · rw [List.append_nil, List.take_of_length_le (by omega)]
    · rw [List.take_left' hlength]
  obtain ⟨last, hlast, hseq, _, _⟩ := getLast_sampleStamps hpos hn
  refine ⟨hpage, ?_⟩
  rw [hpage, List.getLast?_map, hlast]
  exact congrArg some hseq

theorem stampedDb_intact (hpos : 0 < n) (hfull : extra = [] ∨ n = 1000) :
    (verifyShardChainWith sampleMac sampleTexts (stampedDb n hn extra hextra) 2
      sampleOptions).isIntact := by
  obtain ⟨hpage, hend⟩ := stampedDb_page hn extra hextra hpos hfull
  have hread := Database.readRows_of_last hend rfl
  obtain ⟨last, hlast, hseq, hhash, _⟩ := getLast_sampleStamps hpos hn
  have hfind : (stampedDb n hn extra hextra).find 2 = some (stampedCursor n) := rfl
  refine (verifyShardChainWith_intact sampleMac sampleTexts hfind
    (stampedCursor_verified n)).mpr ⟨rfl, rfl, ?_⟩
  exact honest_intact (sampleStamps_linked hn) (fun s hs => stampRows_shard s hs)
    (fun s hs => ⟨sampleKey.active, List.mem_singleton.mpr rfl, stampRows_hash s hs⟩)
    hlast hseq hhash rfl (hread.trans hpage)

theorem stampedDb_unforged (hunchained : ∀ row ∈ extra, row.chainHash = none) :
    Unforged sampleMac sampleTexts (sampleLog n) (stampedDb n hn extra hextra) 2
      sampleOptions.keys := by
  constructor
  · intro row hrow c hown prev hash hprev hhash key _ _
    rcases List.mem_append.mp hrow with hrow | hrow
    · obtain ⟨s, hs, rfl⟩ := List.mem_map.mp hrow
      have hshard := stampRows_shard s hs
      have hsame := ownChainRow_row s
      rw [hshard, hown, Option.some.injEq] at hsame
      subst hsame
      cases hprev
      cases hhash
      exact List.mem_append_left _ (List.mem_map.mpr ⟨s, hs, rfl⟩)
    · obtain ⟨record, _, rfl⟩ := Option.map_eq_some_iff.mp hown
      simp [hunchained row hrow] at hhash
  · intro cursor hfind cp mac hstored key _ _
    obtain rfl : stampedCursor n = cursor := Option.some.inj hfind
    rw [stampedCursor_stored, Option.some.injEq, Prod.mk.injEq] at hstored
    obtain ⟨rfl, rfl⟩ := hstored
    exact List.mem_append_right _ (List.mem_singleton.mpr rfl)

end Stamped

/-- The database of two rows, as they were stamped. -/
def honestDb : Database := stampedDb 2 (by omega) [] (by simp)

theorem honestDb_nothingLeftBehind :
    NothingLeftBehind honestDb (sampleCheckpoint 2) (stampedCursor 2).lastAssignedSeq.toInt := by
  have hnil : ∀ row ∈ ([] : List AuditExportRow), row.exportSeq = some (Int64.ofNat 2) := by simp
  have hend := (stampedDb_page (by omega) [] hnil (by omega) (.inl rfl)).2
  have hperm := Database.leftBehind_of_last hend rfl
  rw [stampedDb_sequenced (by omega) [] hnil (by omega), List.append_nil,
    List.drop_eq_nil_of_le (by simp [length_sampleStamps, verifyPageRows])] at hperm
  intro row hrow
  exact absurd (hperm.subset hrow) List.not_mem_nil

/-- Two rows that are stored as they were stamped are reported intact, and untampered. -/
theorem untampered_two_rows :
    (verifyShardChainWith sampleMac sampleTexts honestDb 2 sampleOptions).isIntact ∧
      Untampered (sampleLog 2) honestDb 2 (sampleCheckpoint 2) none := by
  have hfind : honestDb.find 2 = some (stampedCursor 2) := rfl
  have hintact : (verifyShardChainWith sampleMac sampleTexts honestDb 2 sampleOptions).isIntact :=
    stampedDb_intact (by omega) [] (by simp) (by omega) (.inl rfl)
  exact ⟨hintact, (intact_iff_nothing_left_behind (sampleLog_exported (by omega) (by omega))
    (sampleLog_onePerSeq (by omega)) honestDb 2 sampleOptions hfind (stampedCursor_verified 2)
    (stampedDb_unforged (by omega) [] (by simp) (by simp)) hintact).mpr
      fun _ => honestDb_nothingLeftBehind⟩

/-- A row that no exporter has seen, under a number already in use. -/
def forgedRow : AuditExportRow :=
  { sampleRow 1000 with id := 1001, actor := ⟨"mallory", by decide⟩ }

theorem forgedRow_seq : ∀ row ∈ [forgedRow], row.exportSeq = some (Int64.ofNat 1000) := by
  intro row hrow
  rw [List.mem_singleton.mp hrow]
  rfl

/-- The stored shard: 1,000 rows as they were stamped, then the forged one. -/
def forgedDb : Database := stampedDb 1000 (Nat.le_refl 1000) [forgedRow] forgedRow_seq

/-- **A forged row goes unseen.** A shard with 1,000 stamped rows and one inserted row is
reported intact. -/
theorem inserted_row_reported_intact :
    Exported sampleMac sampleTexts (sampleLog 1000) ∧ (sampleLog 1000).OnePerSeq ∧
      forgedDb.find 2 = some (stampedCursor 1000) ∧
      verifiedCheckpoint sampleMac (stampedCursor 1000) sampleOptions.keys =
        (some (sampleCheckpoint 1000), none) ∧
      Unforged sampleMac sampleTexts (sampleLog 1000) forgedDb 2 sampleOptions.keys ∧
      (verifyShardChainWith sampleMac sampleTexts forgedDb 2 sampleOptions).isIntact ∧
      sampleOptions.retentionCutoff = none ∧
      ¬ Untampered (sampleLog 1000) forgedDb 2 (sampleCheckpoint 1000) none := by
  refine ⟨sampleLog_exported (by omega) (by omega), sampleLog_onePerSeq (by omega), rfl,
    stampedCursor_verified 1000, stampedDb_unforged _ _ forgedRow_seq ?_,
    stampedDb_intact _ _ forgedRow_seq (by omega) (.inr rfl), rfl, ?_⟩
  · intro row hrow
    rw [List.mem_singleton.mp hrow]
    rfl
  · intro huntampered
    -- The forged row is among the rows of the chain, and every stamped row has a hash.
    have hseq := stampedDb_sequenced (Nat.le_refl 1000) [forgedRow] forgedRow_seq (by omega)
    have hmem : forgedRow ∈ forgedDb.sequenced 0 (Int64.ofNat 1000).toInt :=
      hseq ▸ List.mem_append_right _ (List.mem_singleton.mpr rfl)
    obtain ⟨s, _, hrow⟩ := List.mem_map.mp (huntampered.subset hmem)
    cases congrArg AuditExportRow.chainHash hrow

end Harvest.Audit
