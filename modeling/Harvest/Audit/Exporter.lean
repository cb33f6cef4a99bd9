import Harvest.Lib.Run
import Harvest.Audit.Chain

/-!
# The exporter that stamps the chain

The exporter is the only party with a key. A database writer may change every row and
every cursor between two of its transactions, so the only state kept here is what the
exporter itself has done: the links it stamped and the checkpoints it signed. Each
transaction reads whatever database it finds.

Proved here:
* `signed_covered`: in every run, a checkpoint that the exporter signed stands for a
  consecutive chain of its own stamps, each naming the newest time before it.
-/

namespace Harvest.Audit

open Harvest.Lib

/-- `AuditExportCursor`: the columns the chain reads. -/
structure AuditExportCursor where
  shardId : Int32
  lastAssignedSeq : Int64
  retiredAt : Option Int64
  chainHead : Option Bytes
  chainStartSeq : Option Int64
  chainHeadSeq : Option Int64
  chainNewestAt : Option Int64
  chainMac : Option Bytes
  deriving DecidableEq

/-- Both rows have a number, and the first is not above the second. -/
def AuditExportRow.SeqLe (row row' : AuditExportRow) : Prop :=
  ∀ a ∈ row.exportSeq, ∀ b ∈ row'.exportSeq, a.toInt ≤ b.toInt

/-- The tables, with the log in the order of `ORDER BY export_seq ASC`. No column but the
id is unique, so rows may share an `export_seq`: they stand in the order in which the
database returns them. -/
structure Database where
  cursors : List AuditExportCursor
  log : List AuditExportRow
  ordered : log.Pairwise AuditExportRow.SeqLe

namespace Database

/-- The cursor row of a shard. -/
def find (db : Database) (shard : Int32) : Option AuditExportCursor :=
  db.cursors.find? fun cursor => cursor.shardId = shard

/-- `export_seq > after AND export_seq <= through`. -/
def inRange (after through : Int) (row : AuditExportRow) : Bool :=
  row.exportSeq.any fun seq => after < seq.toInt && seq.toInt ≤ through

/-- The rows of a range, in order. -/
def sequenced (db : Database) (after through : Int) : List AuditExportRow :=
  db.log.filter (inRange after through)

/-- `other_live_cursor` -/
def otherLiveCursor (db : Database) (shard : Int32) : Bool :=
  db.cursors.any fun cursor => cursor.shardId ≠ shard && cursor.retiredAt.isNone

/-- `any_chained_row` -/
def anyChainedRow (db : Database) (through : Int) : Bool :=
  db.log.any fun row => row.chainHash.isSome && row.exportSeq.any fun seq => seq.toInt ≤ through

end Database

/-- `stored_checkpoint` -/
def storedCheckpoint (cursor : AuditExportCursor) : Option (ChainCheckpoint × ChainHash) := do
  let startSeq ← cursor.chainStartSeq
  let headSeq ← cursor.chainHeadSeq
  let head ← cursor.chainHead.bind fromBytes
  let newestAt ← cursor.chainNewestAt
  let mac ← cursor.chainMac.bind fromBytes
  return ({ startSeq, headSeq, head, newestAt }, mac)

/-- `has_checkpoint_column` -/
def hasCheckpointColumn (cursor : AuditExportCursor) : Bool :=
  cursor.chainHead.isSome || cursor.chainStartSeq.isSome || cursor.chainHeadSeq.isSome ||
    cursor.chainNewestAt.isSome || cursor.chainMac.isSome

/-- `AuditChainKey` -/
structure AuditChainKey (K : Type) where
  active : K
  accepted : List K

/-- `ChainAnchor` -/
structure ChainAnchor where
  head : Option ChainHash := none
  startSeq : Option Int64 := none
  newestAt : Option Int64 := none

/-- `ChainRefusal` -/
inductive ChainRefusal where
  | checkpoint
  | sharedDatabase
  deriving DecidableEq

/-- A link the exporter made: what it covers and its hash. -/
structure Stamp where
  record : AuditExportRecord
  prev : ChainHash
  newestBefore : Option Int64
  hash : ChainHash
  deriving DecidableEq

/-- The row as the exporter leaves it in the table. -/
def Stamp.row (s : Stamp) : AuditExportRow :=
  { id := s.record.id, occurredAt := s.record.occurredAt, actor := s.record.actor,
    operation := s.record.operation, targetType := s.record.targetType,
    targetId := s.record.targetId, routeOrCommand := s.record.routeOrCommand,
    requestId := s.record.requestId, idempotencyKey := s.record.idempotencyKey,
    status := s.record.status, errorSummary := s.record.errorSummary,
    shardId := s.record.shardId, source := s.record.source, exportSeq := some s.record.seq,
    chainPrev := some s.prev.val, chainNewestBefore := s.newestBefore,
    chainHash := some s.hash.val, chainShard := some s.record.shard }

/-- The newest time of the chain through this stamp. -/
def Stamp.newest (s : Stamp) : Int64 := newestThrough s.newestBefore s.record.occurredAt

/-- `Stamped` -/
structure Stamped where
  firstSeq : Int64
  headSeq : Int64
  head : ChainHash
  newestAt : Int64

section Exporter

variable {K : Type} (hmac : K → Bytes → ChainHash) (texts : TimeText)

/-- `AuditChainKey::accepts` -/
def AuditChainKey.accepts (key : AuditChainKey K) (checkpoint : ChainCheckpoint) (shard : Int32)
    (mac : ChainHash) : Bool :=
  (key.active :: key.accepted).any fun k => checkpoint.mac hmac k shard = mac

/-- `chain_anchor` -/
def chainAnchor (db : Database) (cursor : AuditExportCursor) (key : AuditChainKey K) :
    Except ChainRefusal ChainAnchor :=
  if db.otherLiveCursor cursor.shardId then .error .sharedDatabase
  else match storedCheckpoint cursor with
    | some (checkpoint, mac) =>
      let valid := key.accepts hmac checkpoint cursor.shardId mac &&
        checkpoint.headSeq = cursor.lastAssignedSeq
      -- An empty re-anchored chain starts like a new one.
      let empty := checkpoint.headSeq.toInt < checkpoint.startSeq.toInt
      if valid then
        .ok { head := if empty then none else some checkpoint.head
              startSeq := some checkpoint.startSeq
              newestAt := if empty then none else some checkpoint.newestAt }
      else .error .checkpoint
    | none =>
      if hasCheckpointColumn cursor || db.anyChainedRow cursor.lastAssignedSeq.toInt then
        .error .checkpoint
      else .ok {}

/-- The loop of `stamp_chain`. -/
def stampRows (shard : Int32) (key : K) :
    ChainHash → Option Int64 → List AuditExportRow → List Stamp
  | _, _, [] => []
  | prev, newest, row :: rows =>
    match AuditExportRecord.fromRow shard row with
    | none => stampRows shard key prev newest rows
    | some record =>
      let hash := link hmac texts key prev newest record
      ⟨record, prev, newest, hash⟩ ::
        stampRows shard key hash (some (newestThrough newest record.occurredAt)) rows

/-- `stamped` after the loop of `stamp_chain`: the first number and the last link. -/
def stamped (stamps : List Stamp) : Option Stamped := do
  let first ← stamps.head?
  let last ← stamps.getLast?
  return { firstSeq := first.record.seq, headSeq := last.record.seq, head := last.hash,
           newestAt := last.newest }

/-- `stamp_chain` -/
def stampChain (db : Database) (shard : Int32) (key : K) (after through : Int)
    (anchor : ChainAnchor) : List Stamp :=
  stampRows hmac texts shard key (anchor.head.getD genesis) anchor.newestAt
    (db.sequenced after through)

/-- The chain part of `claim_shard_chained`, on a shard whose claim is free: `db` is the
database after the numbers through `through` were assigned, with the cursor row still as
it was read. -/
def claimShardChained (key : AuditChainKey K) (db : Database) (shard : Int32) (through : Int64) :
    Option (List Stamp × ChainCheckpoint) := do
  let cursor ← db.find shard
  guard (cursor.retiredAt = none)
  guard (cursor.lastAssignedSeq.toInt < through.toInt)
  match chainAnchor hmac db cursor key with
  | .error _ => none
  | .ok anchor =>
    let stamps := stampChain hmac texts db shard key.active cursor.lastAssignedSeq.toInt
      through.toInt anchor
    let s ← stamped stamps
    return (stamps, { startSeq := anchor.startSeq.getD s.firstSeq, headSeq := s.headSeq,
                      head := s.head, newestAt := s.newestAt })

/-- `reanchor_shard_chain` -/
def reanchorShardChain (db : Database) (shard : Int32) (now : Int64) : Option ChainCheckpoint := do
  let cursor ← db.find shard
  return { startSeq := cursor.lastAssignedSeq + 1, headSeq := cursor.lastAssignedSeq,
           head := genesis, newestAt := now }

/-- A checkpoint with its shard and its MAC. -/
structure Signed where
  shard : Int32
  checkpoint : ChainCheckpoint
  mac : ChainHash

/-- Everything the exporter has produced. -/
structure ExportLog where
  stamps : List Stamp := []
  signed : List Signed := []

/-- The pairs of MAC input and tag that the exporter has produced. -/
def ExportLog.pairs (log : ExportLog) : List (Bytes × ChainHash) :=
  log.stamps.map (fun s => (linkBytes texts s.prev s.newestBefore s.record, s.hash)) ++
    log.signed.map (fun s => (checkpointBytes s.shard s.checkpoint, s.mac))

/-- One transaction of the exporter, on the database it finds. -/
inductive ExportAction (K : Type) where
  | claim (key : AuditChainKey K) (db : Database) (shard : Int32) (through : Int64)
  | reanchor (key : AuditChainKey K) (db : Database) (shard : Int32) (now : Int64)

/-- `write_checkpoint`: sign under the active key. -/
def ExportLog.sign (log : ExportLog) (key : AuditChainKey K) (shard : Int32)
    (checkpoint : ChainCheckpoint) : ExportLog :=
  { log with signed := log.signed ++ [⟨shard, checkpoint, checkpoint.mac hmac key.active shard⟩] }

def exportStep (log : ExportLog) : ExportAction K → ExportLog
  | .claim key db shard through =>
    match claimShardChained hmac texts key db shard through with
    | none => log
    | some (stamps, checkpoint) =>
      ExportLog.sign hmac { log with stamps := log.stamps ++ stamps } key shard checkpoint
  | .reanchor key db shard now =>
    match reanchorShardChain db shard now with
    | none => log
    | some checkpoint => log.sign hmac key shard checkpoint

/-- No pair that the exporter has not produced verifies under one of the keys. -/
def NoForgery (log : ExportLog) (keys : List K) (input : Bytes) (tag : ChainHash) : Prop :=
  ∀ key ∈ keys, hmac key input = tag → (input, tag) ∈ log.pairs texts

/-- What the database may hold when the exporter finds it: no forged checkpoint, and
every number through `through` was just given to a row. A re-anchor needs a number left. -/
def ExportAllowed (log : ExportLog) : ExportAction K → Prop
  | .claim key db shard through =>
    ∀ cursor, db.find shard = some cursor →
      (∀ checkpoint mac, storedCheckpoint cursor = some (checkpoint, mac) →
        NoForgery hmac texts log (key.active :: key.accepted)
          (checkpointBytes shard checkpoint) mac) ∧
      ∀ n, cursor.lastAssignedSeq.toInt < n → n ≤ through.toInt →
        ∃ row ∈ db.log, ∃ seq, row.exportSeq = some seq ∧ seq.toInt = n
  | .reanchor _ db shard _ =>
    ∀ cursor, db.find shard = some cursor → cursor.lastAssignedSeq.toInt + 1 < 2 ^ 63

/-- `log` is what the exporter has produced after some run. -/
def Exported (log : ExportLog) : Prop :=
  ∃ acts : List (ExportAction K),
    Legal (exportStep hmac texts) (ExportAllowed hmac texts) {} acts ∧
      exec (exportStep hmac texts) {} acts = log

/-! ## Chains of stamps -/

/-- Consecutive stamps from `seq` on, each naming the link and the newest time before it. -/
def Linked : ChainHash → Option Int64 → Int → List Stamp → Prop
  | _, _, _, [] => True
  | prev, newest, seq, s :: rest =>
    s.prev = prev ∧ s.newestBefore = newest ∧ s.record.seq.toInt = seq ∧
      Linked s.hash (some s.newest) (seq + 1) rest

/-- The link and the newest time that a stamp after the chain would name. -/
def tip : ChainHash → Option Int64 → List Stamp → ChainHash × Option Int64
  | prev, newest, [] => (prev, newest)
  | _, _, s :: rest => tip s.hash (some s.newest) rest

theorem tip_append (xs ys : List Stamp) : ∀ (prev : ChainHash) (newest : Option Int64),
    tip prev newest (xs ++ ys) = tip (tip prev newest xs).1 (tip prev newest xs).2 ys := by
  induction xs with
  | nil => intro prev newest; rfl
  | cons s xs ih => intro prev newest; exact ih _ _

theorem linked_append (xs ys : List Stamp) : ∀ (prev : ChainHash) (newest : Option Int64) (seq : Int),
    Linked prev newest seq (xs ++ ys) ↔ Linked prev newest seq xs ∧
      Linked (tip prev newest xs).1 (tip prev newest xs).2 (seq + xs.length) ys := by
  induction xs with
  | nil =>
    intro prev newest seq
    simp [Linked, tip]
  | cons s xs ih =>
    intro prev newest seq
    have hseq : seq + 1 + (xs.length : Int) = seq + ((xs.length : Int) + 1) := by omega
    simp [Linked, tip, ih, and_assoc, hseq]

theorem tip_of_getLast {chain : List Stamp} {last : Stamp} (hlast : chain.getLast? = some last) :
    ∀ (prev : ChainHash) (newest : Option Int64),
      tip prev newest chain = (last.hash, some last.newest) := by
  obtain ⟨front, rfl⟩ := List.getLast?_eq_some_iff.mp hlast
  intro prev newest
  rw [tip_append]
  rfl

/-- A time named before a chain is no newer than what any of its stamps names. -/
theorem Linked.newest_le {chain : List Stamp} : ∀ {prev : ChainHash} {newest : Int64} {seq : Int},
    Linked prev (some newest) seq chain →
      (∀ s ∈ chain, ∃ t, s.newestBefore = some t ∧ newest.toInt ≤ t.toInt) ∧
        ∃ t, (tip prev (some newest) chain).2 = some t ∧ newest.toInt ≤ t.toInt := by
  induction chain with
  | nil =>
    intro prev newest seq _
    exact ⟨by simp, newest, rfl, Int.le_refl _⟩
  | cons s chain ih =>
    rintro prev newest seq ⟨_, hnewest, _, hrest⟩
    obtain ⟨hstamps, t, htip, hle⟩ := ih hrest
    have hs : newest.toInt ≤ s.newest.toInt := by
      unfold Stamp.newest
      rw [hnewest]
      exact newest_le_newestThrough newest _
    refine ⟨?_, t, htip, by omega⟩
    intro s' hs'
    rcases List.mem_cons.mp hs' with rfl | hs'
    · exact ⟨newest, hnewest, Int.le_refl _⟩
    · obtain ⟨t, ht, hle⟩ := hstamps s' hs'
      exact ⟨t, ht, by omega⟩

theorem Linked.seq_ge {chain : List Stamp} : ∀ {prev : ChainHash} {newest : Option Int64} {seq : Int},
    Linked prev newest seq chain → ∀ s ∈ chain, seq ≤ s.record.seq.toInt := by
  induction chain with
  | nil => simp
  | cons s chain ih =>
    rintro prev newest seq ⟨_, _, hseq, hrest⟩ s' hs'
    rcases List.mem_cons.mp hs' with rfl | hs'
    · omega
    · have := ih hrest s' hs'
      omega

theorem Linked.seq_lt {chain : List Stamp} : ∀ {prev : ChainHash} {newest : Option Int64} {seq : Int},
    Linked prev newest seq chain → ∀ s ∈ chain, s.record.seq.toInt < seq + chain.length := by
  induction chain with
  | nil => simp
  | cons s chain ih =>
    rintro prev newest seq ⟨_, _, hseq, hrest⟩ s' hs'
    rw [List.length_cons]
    rcases List.mem_cons.mp hs' with rfl | hs'
    · omega
    · have := ih hrest s' hs'
      omega

theorem Linked.increasing {chain : List Stamp} :
    ∀ {prev : ChainHash} {newest : Option Int64} {seq : Int}, Linked prev newest seq chain →
      chain.Pairwise fun s s' => s.record.seq.toInt < s'.record.seq.toInt := by
  induction chain with
  | nil => simp
  | cons s chain ih =>
    rintro prev newest seq ⟨_, _, hseq, hrest⟩
    refine List.pairwise_cons.mpr ⟨fun s' hs' => ?_, ih hrest⟩
    have := hrest.seq_ge s' hs'
    omega

/-- Every number of the chain has its stamp. -/
theorem Linked.exists_stamp {chain : List Stamp} :
    ∀ {prev : ChainHash} {newest : Option Int64} {seq n : Int}, Linked prev newest seq chain →
      seq ≤ n → n < seq + chain.length → ∃ s ∈ chain, s.record.seq.toInt = n := by
  induction chain with
  | nil =>
    intro prev newest seq n _ hle hlt
    simp only [List.length_nil] at hlt
    omega
  | cons s chain ih =>
    rintro prev newest seq n ⟨_, _, hseq, hrest⟩ hle hlt
    simp only [List.length_cons] at hlt
    by_cases hn : n = seq
    · exact ⟨s, List.mem_cons_self, by omega⟩
    · obtain ⟨s', hs', heq⟩ := ih (n := n) hrest (by omega) (by omega)
      exact ⟨s', List.mem_cons_of_mem _ hs', heq⟩

/-- A later stamp of a chain names a time no older than an earlier row, and so does
what comes after the chain. -/
theorem Linked.occurred_le {chain : List Stamp} :
    ∀ {prev : ChainHash} {newest : Option Int64} {seq : Int}, Linked prev newest seq chain →
      ∀ s ∈ chain,
        (∀ s' ∈ chain, s.record.seq.toInt < s'.record.seq.toInt →
          ∃ t, s'.newestBefore = some t ∧ s.record.occurredAt.toInt ≤ t.toInt) ∧
        ∃ t, (tip prev newest chain).2 = some t ∧ s.record.occurredAt.toInt ≤ t.toInt := by
  induction chain with
  | nil => simp
  | cons s chain ih =>
    rintro prev newest seq ⟨_, _, hseq, hrest⟩ s₁ hs₁
    have hoccurred : s.record.occurredAt.toInt ≤ s.newest.toInt := le_newestThrough _ _
    obtain ⟨hlater, t, htip, hle⟩ := hrest.newest_le
    rcases List.mem_cons.mp hs₁ with rfl | htail
    · refine ⟨?_, t, htip, by omega⟩
      intro s' hs' hlt
      rcases List.mem_cons.mp hs' with rfl | hs'
      · omega
      · obtain ⟨t, ht, hle⟩ := hlater s' hs'
        exact ⟨t, ht, by omega⟩
    · obtain ⟨hpairs, hend⟩ := ih hrest s₁ htail
      refine ⟨?_, hend⟩
      intro s' hs' hlt
      rcases List.mem_cons.mp hs' with rfl | hs'
      · have := hrest.seq_ge s₁ htail
        omega
      · exact hpairs s' hs' hlt

/-! ## What one transaction stamps -/

theorem inRange_iff {after through : Int} {row : AuditExportRow} :
    Database.inRange after through row = true ↔
      ∃ seq, row.exportSeq = some seq ∧ after < seq.toInt ∧ seq.toInt ≤ through := by
  unfold Database.inRange
  cases row.exportSeq <;> simp

theorem fromRow_eq_some {shard : Int32} {row : AuditExportRow} {record : AuditExportRecord}
    (h : AuditExportRecord.fromRow shard row = some record) :
    record.shard = shard ∧ row.exportSeq = some record.seq := by
  unfold AuditExportRecord.fromRow at h
  cases hseq : row.exportSeq with
  | none => simp [hseq] at h
  | some seq =>
    simp only [hseq, Option.map_some, Option.some.injEq] at h
    subst h
    exact ⟨rfl, rfl⟩

variable {hmac texts}

theorem stampRows_shard {shard : Int32} {key : K} {rows : List AuditExportRow} :
    ∀ {prev : ChainHash} {newest : Option Int64},
      ∀ s ∈ stampRows hmac texts shard key prev newest rows, s.record.shard = shard := by
  induction rows with
  | nil => simp [stampRows]
  | cons row rows ih =>
    intro prev newest s hs
    unfold stampRows at hs
    split at hs
    · exact ih s hs
    · next record hrecord =>
      rcases List.mem_cons.mp hs with rfl | hs
      · exact (fromRow_eq_some hrecord).1
      · exact ih s hs

theorem stampRows_hash {shard : Int32} {key : K} {rows : List AuditExportRow} :
    ∀ {prev : ChainHash} {newest : Option Int64},
      ∀ s ∈ stampRows hmac texts shard key prev newest rows,
        s.hash = link hmac texts key s.prev s.newestBefore s.record := by
  induction rows with
  | nil => simp [stampRows]
  | cons row rows ih =>
    intro prev newest s hs
    unfold stampRows at hs
    split at hs
    · exact ih s hs
    · rcases List.mem_cons.mp hs with rfl | hs
      · rfl
      · exact ih s hs

/-- The numbers of a strictly increasing list that fills a range from its first number. -/
def Consecutive (after : Int) : List AuditExportRow → Prop
  | [] => True
  | row :: rows =>
    (∃ seq, row.exportSeq = some seq ∧ seq.toInt = after + 1) ∧ Consecutive (after + 1) rows

theorem stampRows_linked {shard : Int32} {key : K} {rows : List AuditExportRow} :
    ∀ {prev : ChainHash} {newest : Option Int64} {after : Int}, Consecutive after rows →
      Linked prev newest (after + 1) (stampRows hmac texts shard key prev newest rows) := by
  induction rows with
  | nil => intro prev newest after _; trivial
  | cons row rows ih =>
    rintro prev newest after ⟨⟨seq, hseq, hnext⟩, hrest⟩
    obtain ⟨record, hrecord⟩ : ∃ record, AuditExportRecord.fromRow shard row = some record := by
      simp [AuditExportRecord.fromRow, hseq]
    have hsame := (fromRow_eq_some hrecord).2
    rw [hseq, Option.some.injEq] at hsame
    simp only [stampRows, hrecord]
    refine ⟨rfl, rfl, ?_, ih hrest⟩
    show record.seq.toInt = after + 1
    rw [← hsame, hnext]

/-- Rows in order that hold every number of a range once hold them consecutively. -/
theorem consecutive_of_covered {through : Int} {rows : List AuditExportRow} :
    ∀ {after : Int}, rows.Pairwise AuditExportRow.SeqLe →
      (rows.map AuditExportRow.exportSeq).Nodup →
      (∀ row ∈ rows, Database.inRange after through row = true) →
      (∀ n, after < n → n ≤ through →
        ∃ row ∈ rows, ∃ seq, row.exportSeq = some seq ∧ seq.toInt = n) →
      Consecutive after rows := by
  induction rows with
  | nil => intro after _ _ _ _; trivial
  | cons row rows ih =>
    intro after hsorted hnodup hin hcover
    obtain ⟨hfirst, hsorted⟩ := List.pairwise_cons.mp hsorted
    obtain ⟨hnew, hnodup⟩ := List.nodup_cons.mp hnodup
    obtain ⟨seq, hseq, hlow, hhigh⟩ := inRange_iff.mp (hin row List.mem_cons_self)
    -- The number after `after` is held by some row; only the first can hold it.
    have hnext : seq.toInt = after + 1 := by
      obtain ⟨row', hrow', seq', hseq', heq⟩ := hcover (after + 1) (by omega) (by omega)
      rcases List.mem_cons.mp hrow' with rfl | htail
      · rw [hseq, Option.some.injEq] at hseq'
        rw [hseq', heq]
      · have := hfirst row' htail seq hseq seq' hseq'
        omega
    refine ⟨⟨seq, hseq, hnext⟩, ih hsorted hnodup ?_ ?_⟩
    · intro row' hrow'
      obtain ⟨seq', hseq', hlow', hhigh'⟩ :=
        inRange_iff.mp (hin row' (List.mem_cons_of_mem _ hrow'))
      have hle := hfirst row' hrow' seq hseq seq' hseq'
      have hne : seq.toInt ≠ seq'.toInt := by
        intro heq
        rw [Int64.toInt_inj] at heq
        exact hnew (List.mem_map.mpr ⟨row', hrow', by rw [hseq', hseq, heq]⟩)
      exact inRange_iff.mpr ⟨seq', hseq', by omega, hhigh'⟩
    · intro n hlow' hhigh'
      obtain ⟨row', hrow', seq', hseq', heq⟩ := hcover n (by omega) hhigh'
      rcases List.mem_cons.mp hrow' with rfl | htail
      · rw [hseq, Option.some.injEq] at hseq'
        rw [hseq'] at hnext
        omega
      · exact ⟨row', htail, seq', hseq', heq⟩

/-- The stamps carry the numbers of the rows. -/
theorem map_seq_stampRows {shard : Int32} {key : K} {rows : List AuditExportRow} :
    ∀ {prev : ChainHash} {newest : Option Int64},
      (∀ row ∈ rows, row.exportSeq ≠ none) →
      (stampRows hmac texts shard key prev newest rows).map (fun s => some s.record.seq) =
        rows.map AuditExportRow.exportSeq := by
  induction rows with
  | nil => intro prev newest _; rfl
  | cons row rows ih =>
    intro prev newest hsome
    obtain ⟨seq, hseq⟩ := Option.ne_none_iff_exists'.mp (hsome row List.mem_cons_self)
    obtain ⟨record, hrecord⟩ : ∃ record, AuditExportRecord.fromRow shard row = some record := by
      simp [AuditExportRecord.fromRow, hseq]
    have hrows := fun r hr => hsome r (List.mem_cons_of_mem _ hr)
    simp only [stampRows, hrecord, List.map_cons, (fromRow_eq_some hrecord).2]
    rw [ih hrows]

/-! ## What a produced pair says -/

theorem mem_pairs_link {log : ExportLog} {prev : ChainHash} {newest : Option Int64}
    {record : AuditExportRecord} {tag : ChainHash}
    (h : (linkBytes texts prev newest record, tag) ∈ log.pairs texts) :
    ⟨record, prev, newest, tag⟩ ∈ log.stamps := by
  rcases List.mem_append.mp h with h | h
  · obtain ⟨s, hs, heq⟩ := List.mem_map.mp h
    rw [Prod.mk.injEq] at heq
    obtain ⟨hprev, hnewest, hrecord⟩ := linkBytes_inj texts heq.1
    obtain ⟨record', prev', newest', hash'⟩ := s
    obtain ⟨rfl, rfl, rfl, rfl⟩ : prev' = prev ∧ newest' = newest ∧ record' = record ∧ hash' = tag :=
      ⟨hprev, hnewest, hrecord, heq.2⟩
    exact hs
  · obtain ⟨s, hs, heq⟩ := List.mem_map.mp h
    rw [Prod.mk.injEq] at heq
    exact absurd heq.1.symm (linkBytes_ne_checkpointBytes texts _ _ _ _ _)

theorem mem_pairs_checkpoint {log : ExportLog} {shard : Int32} {checkpoint : ChainCheckpoint}
    {tag : ChainHash} (h : (checkpointBytes shard checkpoint, tag) ∈ log.pairs texts) :
    ⟨shard, checkpoint, tag⟩ ∈ log.signed := by
  rcases List.mem_append.mp h with h | h
  · obtain ⟨s, hs, heq⟩ := List.mem_map.mp h
    rw [Prod.mk.injEq] at heq
    exact absurd heq.1 (linkBytes_ne_checkpointBytes texts _ _ _ _ _)
  · obtain ⟨s, hs, heq⟩ := List.mem_map.mp h
    rw [Prod.mk.injEq] at heq
    obtain ⟨hshard, hcheckpoint⟩ := checkpointBytes_inj heq.1
    obtain ⟨shard', checkpoint', mac'⟩ := s
    obtain ⟨rfl, rfl, rfl⟩ : shard' = shard ∧ checkpoint' = checkpoint ∧ mac' = tag :=
      ⟨hshard, hcheckpoint, heq.2⟩
    exact hs

/-! ## Signed checkpoints stand for chains -/

/-- The shard and the number of a stamp. -/
def Stamp.key (s : Stamp) : Int32 × Int64 := (s.record.shard, s.record.seq)

/-- The exporter stamped at most one record per sequence number of a shard. -/
def ExportLog.OnePerSeq (log : ExportLog) : Prop := (log.stamps.map Stamp.key).Nodup

/-- The checkpoint stands for a chain of stamps, from its start through its head. -/
def Covered (log : ExportLog) (shard : Int32) (checkpoint : ChainCheckpoint) : Prop :=
  ∃ chain : List Stamp, (∀ s ∈ chain, s ∈ log.stamps ∧ s.record.shard = shard) ∧
    Linked genesis none checkpoint.startSeq.toInt chain ∧
    checkpoint.startSeq.toInt + chain.length = checkpoint.headSeq.toInt + 1 ∧
    (chain ≠ [] → tip genesis none chain = (checkpoint.head, some checkpoint.newestAt))

theorem Covered.mono {log log' : ExportLog} {shard : Int32} {checkpoint : ChainCheckpoint}
    (h : Covered log shard checkpoint) (hsub : ∀ s ∈ log.stamps, s ∈ log'.stamps) :
    Covered log' shard checkpoint := by
  obtain ⟨chain, hchain, hlinked, hlength, htip⟩ := h
  exact ⟨chain, fun s hs => ⟨hsub s (hchain s hs).1, (hchain s hs).2⟩, hlinked, hlength, htip⟩

theorem find_shardId {db : Database} {shard : Int32} {cursor : AuditExportCursor}
    (h : db.find shard = some cursor) : cursor.shardId = shard := by
  simpa using List.find?_some h

/-- The two ways in which the exporter finds an anchor. -/
theorem chainAnchor_ok {db : Database} {cursor : AuditExportCursor} {key : AuditChainKey K}
    {anchor : ChainAnchor} (h : chainAnchor hmac db cursor key = .ok anchor) :
    anchor = {} ∨ ∃ cp mac, storedCheckpoint cursor = some (cp, mac) ∧
      key.accepts hmac cp cursor.shardId mac = true ∧ cp.headSeq = cursor.lastAssignedSeq ∧
      anchor.startSeq = some cp.startSeq ∧
      anchor.head = (if cp.headSeq.toInt < cp.startSeq.toInt then none else some cp.head) ∧
      anchor.newestAt = (if cp.headSeq.toInt < cp.startSeq.toInt then none else some cp.newestAt) := by
  unfold chainAnchor at h
  split at h
  · cases h
  · split at h
    · next cp mac hstored =>
      dsimp only at h
      split at h
      · next hvalid =>
        simp only [Bool.and_eq_true, decide_eq_true_eq] at hvalid
        cases h
        exact .inr ⟨cp, mac, hstored, hvalid.1, hvalid.2, rfl, by simp, by simp⟩
      · cases h
    · split at h
      · cases h
      · cases h
        exact .inl rfl

/-- What a claim that stamps has read and signs. -/
theorem claimShardChained_some {key : AuditChainKey K} {db : Database} {shard : Int32}
    {through : Int64} {stamps : List Stamp} {cp : ChainCheckpoint}
    (h : claimShardChained hmac texts key db shard through = some (stamps, cp)) :
    ∃ cursor anchor, db.find shard = some cursor ∧ chainAnchor hmac db cursor key = .ok anchor ∧
      stamps = stampChain hmac texts db shard key.active cursor.lastAssignedSeq.toInt
        through.toInt anchor ∧
      ∃ first last, stamps.head? = some first ∧ stamps.getLast? = some last ∧
        cp = { startSeq := anchor.startSeq.getD first.record.seq, headSeq := last.record.seq,
               head := last.hash, newestAt := last.newest } := by
  unfold claimShardChained at h
  cases hfind : db.find shard with
  | none => simp [hfind] at h
  | some cursor =>
    simp only [hfind, Option.bind_eq_bind, Option.bind_some, Option.bind_eq_some_iff] at h
    obtain ⟨_, _, _, _, h⟩ := h
    split at h
    · cases h
    · next anchor hanchor =>
      simp only [Option.bind_eq_bind, Option.bind_eq_some_iff, stamped, Option.pure_def,
        Option.some.injEq] at h
      obtain ⟨s, ⟨first, hfirst, last, hlast, rfl⟩, heq⟩ := h
      rw [Prod.mk.injEq] at heq
      obtain ⟨rfl, rfl⟩ := heq
      exact ⟨cursor, anchor, rfl, hanchor, rfl, first, last, hfirst, hlast, rfl⟩

theorem Linked.last_seq {chain : List Stamp} {last : Stamp} {prev : ChainHash}
    {newest : Option Int64} {seq : Int} (h : Linked prev newest seq chain)
    (hlast : chain.getLast? = some last) : last.record.seq.toInt + 1 = seq + chain.length := by
  obtain ⟨front, rfl⟩ := List.getLast?_eq_some_iff.mp hlast
  have hend := ((linked_append front [last] _ _ _).mp h).2.2.2.1
  simp only [List.length_append, List.length_singleton]
  omega

/-- The rows that a claim stamps are consecutive, as long as no number is stamped twice. -/
theorem consecutive_sequenced {log : ExportLog} {db : Database} {shard : Int32} {key : K}
    {after through : Int} {anchor : ChainAnchor}
    (hone : (log.stamps ++ stampChain hmac texts db shard key after through anchor).map
      Stamp.key |>.Nodup)
    (hcover : ∀ n, after < n → n ≤ through →
      ∃ row ∈ db.log, ∃ seq, row.exportSeq = some seq ∧ seq.toInt = n) :
    Consecutive after (db.sequenced after through) := by
  have hin : ∀ row ∈ db.sequenced after through, Database.inRange after through row = true :=
    fun row hrow => (List.mem_filter.mp hrow).2
  have hsome : ∀ row ∈ db.sequenced after through, row.exportSeq ≠ none := by
    intro row hrow
    obtain ⟨seq, hseq, _⟩ := inRange_iff.mp (hin row hrow)
    simp [hseq]
  refine consecutive_of_covered (db.ordered.filter _) ?_ hin ?_
  · rw [List.map_append, List.nodup_append] at hone
    have hseqs : (stampChain hmac texts db shard key after through anchor).map
        (fun s => some s.record.seq) =
          (db.sequenced after through).map AuditExportRow.exportSeq := map_seq_stampRows hsome
    rw [← hseqs]
    have hkeys := List.pairwise_map.mp hone.2.1
    refine List.pairwise_map.mpr (hkeys.imp_of_mem ?_)
    intro s s' hs hs' hne heq
    exact hne (Prod.ext ((stampRows_shard s hs).trans (stampRows_shard s' hs').symm)
      (Option.some.inj heq))
  · intro n hlow hhigh
    obtain ⟨row, hrow, seq, hseq, heq⟩ := hcover n hlow hhigh
    refine ⟨row, List.mem_filter.mpr ⟨hrow, inRange_iff.mpr ⟨seq, hseq, ?_, ?_⟩⟩, seq, hseq, heq⟩
    · omega
    · omega

/-- A chain that ends at the cursor, with the anchor at its tip, is extended by a claim. -/
theorem covered_extend {log : ExportLog} {shard : Int32} {key : K} {rows : List AuditExportRow}
    {after : Int} {prev : ChainHash} {newest : Option Int64} {start : Int64} {chain : List Stamp}
    {last : Stamp} (hrows : Consecutive after rows)
    (hchain : ∀ s ∈ chain, s ∈ log.stamps ∧ s.record.shard = shard)
    (hlinked : Linked genesis none start.toInt chain)
    (hlength : start.toInt + chain.length = after + 1)
    (htip : tip genesis none chain = (prev, newest))
    (hlast : (stampRows hmac texts shard key prev newest rows).getLast? = some last) :
    Covered { log with stamps := log.stamps ++ stampRows hmac texts shard key prev newest rows }
      shard ⟨start, last.record.seq, last.hash, last.newest⟩ := by
  have hnew : Linked prev newest (after + 1)
      (stampRows hmac texts shard key prev newest rows) := stampRows_linked hrows
  have hend := hnew.last_seq hlast
  refine ⟨chain ++ stampRows hmac texts shard key prev newest rows, ?_, ?_, ?_, ?_⟩
  · intro s hs
    rcases List.mem_append.mp hs with hs | hs
    · exact ⟨List.mem_append_left _ (hchain s hs).1, (hchain s hs).2⟩
    · exact ⟨List.mem_append_right _ hs, stampRows_shard s hs⟩
  · rw [linked_append, htip, hlength]
    exact ⟨hlinked, hnew⟩
  · show start.toInt + _ = last.record.seq.toInt + 1
    rw [List.length_append]
    omega
  · intro _
    rw [tip_append]
    exact tip_of_getLast hlast _ _

theorem covered_claim {log : ExportLog} {key : AuditChainKey K} {db : Database} {shard : Int32}
    {through : Int64} {stamps : List Stamp} {cp : ChainCheckpoint}
    (hcovered : ∀ s ∈ log.signed, Covered log s.shard s.checkpoint)
    (hallowed : ExportAllowed hmac texts log (.claim key db shard through))
    (hclaim : claimShardChained hmac texts key db shard through = some (stamps, cp))
    (hone : ((log.stamps ++ stamps).map Stamp.key).Nodup) :
    Covered { log with stamps := log.stamps ++ stamps } shard cp := by
  obtain ⟨cursor, anchor, hfind, hanchor, rfl, first, last, hfirst, hlast, rfl⟩ :=
    claimShardChained_some hclaim
  obtain ⟨hforgery, hcover⟩ := hallowed cursor hfind
  have hrows := consecutive_sequenced hone hcover
  rcases chainAnchor_ok hanchor with rfl | ⟨cp, mac, hstored, haccepts, hhead, hstart, hlink, hnewest⟩
  · -- A new chain: its first number is the one after the cursor.
    have hlinked : Linked genesis none (cursor.lastAssignedSeq.toInt + 1)
        (stampChain hmac texts db shard key.active cursor.lastAssignedSeq.toInt through.toInt {}) :=
      stampRows_linked hrows
    obtain ⟨rest, hstamps⟩ := List.head?_eq_some_iff.mp hfirst
    have hseq : first.record.seq.toInt = cursor.lastAssignedSeq.toInt + 1 := by
      rw [hstamps] at hlinked
      exact hlinked.2.2.1
    exact covered_extend hrows (fun _ hs => absurd hs List.not_mem_nil) trivial
      (by simpa using hseq) rfl hlast
  · obtain ⟨key', hkey', hmac'⟩ := List.any_eq_true.mp haccepts
    rw [find_shardId hfind, decide_eq_true_eq] at hmac'
    obtain ⟨chain, hchain, hlinked, hlength, htip⟩ := hcovered _ (mem_pairs_checkpoint
      (hforgery cp mac hstored key' hkey' hmac'))
    dsimp only at hchain hlinked hlength htip
    have hpoint : tip genesis none chain = (anchor.head.getD genesis, anchor.newestAt) := by
      rw [hlink, hnewest]
      by_cases hempty : cp.headSeq.toInt < cp.startSeq.toInt
      · obtain rfl : chain = [] := List.eq_nil_of_length_eq_zero (by omega)
        rw [if_pos hempty, if_pos hempty]
        rfl
      · rw [if_neg hempty, if_neg hempty]
        refine htip ?_
        rintro rfl
        simp only [List.length_nil] at hlength
        omega
    rw [hstart, Option.getD_some]
    exact covered_extend hrows hchain hlinked (by rw [hlength, hhead]) hpoint hlast

/-- **Every signed checkpoint stands for a chain**, in every run of the exporter against
any database writer. -/
theorem signed_covered {log : ExportLog} (hlog : Exported hmac texts log)
    (hone : log.OnePerSeq) : ∀ s ∈ log.signed, Covered log s.shard s.checkpoint := by
  obtain ⟨acts, hlegal, rfl⟩ := hlog
  refine invariant (P := fun log => log.OnePerSeq →
    ∀ s ∈ log.signed, Covered log s.shard s.checkpoint) ?_ ?_ hlegal hone
  · intro log act hinv hallowed hone
    cases act with
    | claim key db shard through =>
      cases hclaim : claimShardChained hmac texts key db shard through with
      | none =>
        simp only [exportStep, hclaim] at hone ⊢
        exact hinv hone
      | some result =>
        obtain ⟨stamps, cp⟩ := result
        simp only [exportStep, hclaim, ExportLog.sign, ExportLog.OnePerSeq] at hone ⊢
        have hbefore : log.OnePerSeq := by
          rw [List.map_append, List.nodup_append] at hone
          exact hone.1
        have hnew := covered_claim (hinv hbefore) hallowed hclaim hone
        intro s hs
        rcases List.mem_append.mp hs with hs | hs
        · exact (hinv hbefore s hs).mono fun s hs => List.mem_append_left _ hs
        · obtain rfl := List.mem_singleton.mp hs
          exact hnew.mono fun s hs => hs
    | reanchor key db shard now =>
      cases hfind : db.find shard with
      | none =>
        simp only [exportStep, reanchorShardChain, hfind, Option.bind_eq_bind, Option.bind_none]
          at hone ⊢
        exact hinv hone
      | some cursor =>
        simp only [exportStep, reanchorShardChain, hfind, Option.bind_eq_bind, Option.bind_some,
          Option.pure_def, ExportLog.sign] at hone ⊢
        intro s hs
        rcases List.mem_append.mp hs with hs | hs
        · exact (hinv hone s hs).mono fun s hs => hs
        · obtain rfl := List.mem_singleton.mp hs
          refine ⟨[], by simp, trivial, ?_, by simp⟩
          -- No overflow: the run leaves a number for the new start.
          have hroom := hallowed cursor hfind
          have hlow := cursor.lastAssignedSeq.le_toInt
          show (cursor.lastAssignedSeq + 1).toInt + 0 = cursor.lastAssignedSeq.toInt + 1
          rw [Int64.toInt_add, show (1 : Int64).toInt = 1 from rfl,
            Int.bmod_eq_of_le (by omega) (by omega), Int.add_zero]
  · intro _ s hs
    simp at hs

end Exporter

end Harvest.Audit
