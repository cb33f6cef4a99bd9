import Mathlib
import Harvest.Lib.SelfDelimiting

/-!
# Audit rows and the bytes the chain covers

The columns of `harvest_audit_log` that the exporter reads, the record it builds from a
row, and the canonical bytes that `link_with` and `ChainCheckpoint::mac` feed to the MAC.

Times are microseconds since the epoch, the precision of a `TIMESTAMPTZ` column. Their
RFC 3339 text is the one part of the encoding that comes from outside the repository:
it is a parameter, two times having different texts.

Proved here:
* `linkBytes_inj`: the bytes of a link determine the link before it, the newest time and
  the whole record.
* `checkpointBytes_inj`: the same for a checkpoint.
* `linkBytes_ne_checkpointBytes`: the two kinds of input never coincide.
-/

namespace Harvest.Audit

open Harvest.Lib

abbrev Bytes := List UInt8

/-- `ChainHash`: 32 bytes. -/
abbrev ChainHash := {bytes : Bytes // bytes.length = 32}

/-- `GENESIS` -/
def genesis : ChainHash := ⟨List.replicate 32 0, List.length_replicate⟩

/-- `from_bytes`: a `BYTEA` column as a chain hash. -/
def fromBytes (bytes : Bytes) : Option ChainHash :=
  if h : bytes.length = 32 then some ⟨bytes, h⟩ else none

theorem fromBytes_eq_some {bytes : Bytes} {hash : ChainHash} :
    fromBytes bytes = some hash ↔ bytes = hash.val := by
  unfold fromBytes
  constructor
  · intro h
    split at h
    · cases h; rfl
    · cases h
  · rintro rfl
    simp [hash.property]

/-- `ABSENT`: the length marker of an absent field. -/
def absent : Nat := 4294967295

/-- A text column. A field longer than 4 GiB cannot reach the table. -/
abbrev Text := {text : String // text.utf8ByteSize < absent}

/-- `AuditExportRow`: a row of `harvest_audit_log`. -/
structure AuditExportRow where
  id : BitVec 128
  occurredAt : Int64
  actor : Text
  operation : Text
  targetType : Text
  targetId : Option Text
  routeOrCommand : Text
  requestId : Option Text
  idempotencyKey : Option Text
  status : Text
  errorSummary : Option Text
  shardId : Option Int32
  source : Text
  exportSeq : Option Int64
  chainPrev : Option Bytes
  chainNewestBefore : Option Int64
  chainHash : Option Bytes
  chainShard : Option Int32
  deriving DecidableEq

/-- `AuditExportRecord`, less the three chain fields: they repeat the chain columns for
the receiver and no link covers them. -/
structure AuditExportRecord where
  shard : Int32
  seq : Int64
  id : BitVec 128
  shardId : Option Int32
  occurredAt : Int64
  actor : Text
  operation : Text
  targetType : Text
  targetId : Option Text
  routeOrCommand : Text
  requestId : Option Text
  idempotencyKey : Option Text
  status : Text
  errorSummary : Option Text
  source : Text
  deriving DecidableEq

/-- `AuditExportRecord::from_row` -/
def AuditExportRecord.fromRow (shard : Int32) (row : AuditExportRow) :
    Option AuditExportRecord :=
  row.exportSeq.map fun seq =>
    { shard, seq, id := row.id, shardId := row.shardId, occurredAt := row.occurredAt,
      actor := row.actor, operation := row.operation, targetType := row.targetType,
      targetId := row.targetId, routeOrCommand := row.routeOrCommand,
      requestId := row.requestId, idempotencyKey := row.idempotencyKey, status := row.status,
      errorSummary := row.errorSummary, source := row.source }

/-! ## Texts of the fields that are not text -/

theorem utf8ByteSize_le (text : String) : text.utf8ByteSize ≤ 4 * text.length := by
  have h : ∀ chars : List Char, (String.ofList chars).utf8ByteSize ≤ 4 * chars.length := by
    intro chars
    induction chars using List.reverseRecOn with
    | nil => simp
    | append_singleton chars c ih =>
      have hc := c.utf8Size_le_four
      rw [String.ofList_append, String.utf8ByteSize_append, ← String.singleton_eq_ofList,
        String.utf8ByteSize_singleton, List.length_append, List.length_singleton]
      omega
  have := h text.toList
  rwa [String.ofList_toList, String.length_toList] at this

theorem utf8ByteSize_repr_lt {n : Int} (hn : n.natAbs < 10 ^ 19) :
    n.repr.utf8ByteSize < absent := by
  have hnat : ∀ k : Nat, k < 10 ^ 19 → k.repr.utf8ByteSize ≤ 76 := by
    intro k hk
    have hlength := Nat.repr_length k 19 (by omega) hk
    have hsize := utf8ByteSize_le k.repr
    omega
  unfold absent
  rw [Int.repr_eq_if]
  split_ifs with h
  · have := hnat n.toNat (by omega)
    omega
  · have := hnat (-n).toNat (by omega)
    have hminus : "-".utf8ByteSize = 1 := rfl
    rw [String.utf8ByteSize_append]
    omega

/-- The decimal text of a shard, as `DecimalBuf::write` gives it. -/
def shardText (shard : Int32) : Text :=
  ⟨shard.toInt.repr, utf8ByteSize_repr_lt (by
    have := shard.le_toInt
    have := shard.toInt_lt
    omega)⟩

/-- The decimal text of a sequence number. -/
def seqText (seq : Int64) : Text :=
  ⟨seq.toInt.repr, utf8ByteSize_repr_lt (by
    have := seq.le_toInt
    have := seq.toInt_lt
    omega)⟩

theorem shardText_inj {a b : Int32} (h : shardText a = shardText b) : a = b :=
  Int32.toInt_inj.mp (Int.repr_injective (congrArg Subtype.val h))

theorem seqText_inj {a b : Int64} (h : seqText a = seqText b) : a = b :=
  Int64.toInt_inj.mp (Int.repr_injective (congrArg Subtype.val h))

/-- `width` lower-case hexadecimal digits. -/
def hex (width n : Nat) : List Char := fixedWidth 16 Nat.digitChar width n

theorem hex_inj {width m n : Nat} (hm : m < 16 ^ width) (hn : n < 16 ^ width)
    (h : hex width m = hex width n) : m = n := by
  refine fixedWidth_inj (by omega) ?_ hm hn h
  have hdigit : ∀ i j : Fin 16, Nat.digitChar i = Nat.digitChar j → i = j := by decide
  intro i hi j hj heq
  exact congrArg Fin.val (hdigit ⟨i, hi⟩ ⟨j, hj⟩ heq)

/-- `Uuid::hyphenated().encode_lower`, as characters. -/
def hyphenated (id : BitVec 128) : List Char :=
  hex 8 (id.toNat / 2 ^ 96) ++ '-' :: (hex 4 (id.toNat / 2 ^ 80 % 2 ^ 16) ++
    '-' :: (hex 4 (id.toNat / 2 ^ 64 % 2 ^ 16) ++ '-' :: (hex 4 (id.toNat / 2 ^ 48 % 2 ^ 16) ++
      '-' :: hex 12 (id.toNat % 2 ^ 48))))

theorem length_hyphenated (id : BitVec 128) : (hyphenated id).length = 36 := by
  simp [hyphenated, hex, length_fixedWidth]

theorem hyphenated_inj {a b : BitVec 128} (h : hyphenated a = hyphenated b) : a = b := by
  have hlength : ∀ width m n, (hex width m).length = (hex width n).length := by
    intro width m n
    simp [hex, length_fixedWidth]
  have ha := a.isLt
  have hb := b.isLt
  obtain ⟨h₁, h⟩ := List.append_inj h (hlength _ _ _)
  obtain ⟨h₂, h⟩ := List.append_inj (List.cons.inj h).2 (hlength _ _ _)
  obtain ⟨h₃, h⟩ := List.append_inj (List.cons.inj h).2 (hlength _ _ _)
  obtain ⟨h₄, h⟩ := List.append_inj (List.cons.inj h).2 (hlength _ _ _)
  have h₁ := hex_inj (by omega) (by omega) h₁
  have h₂ := hex_inj (by omega) (by omega) h₂
  have h₃ := hex_inj (by omega) (by omega) h₃
  have h₄ := hex_inj (by omega) (by omega) h₄
  have h₅ := hex_inj (by omega) (by omega) (List.cons.inj h).2
  exact BitVec.eq_of_toNat_eq (by omega)

def idText (id : BitVec 128) : Text :=
  ⟨String.ofList (hyphenated id), by
    have hsize := utf8ByteSize_le (String.ofList (hyphenated id))
    rw [String.length_ofList, length_hyphenated] at hsize
    unfold absent
    omega⟩

theorem idText_inj {a b : BitVec 128} (h : idText a = idText b) : a = b :=
  hyphenated_inj (String.ofList_injective (congrArg Subtype.val h))

/-- `canonical_time`: RFC 3339, UTC, six digits. Two times have different texts. -/
structure TimeText where
  canonicalTime : Int64 → Text
  injective : ∀ a b, canonicalTime a = canonicalTime b → a = b

/-! ## Canonical bytes -/

def utf8 (text : String) : Bytes := text.toByteArray.data.toList

theorem length_utf8 (text : String) : (utf8 text).length = text.utf8ByteSize :=
  String.size_toByteArray

theorem utf8_inj {s t : String} (h : utf8 s = utf8 t) : s = t :=
  String.toByteArray_inj.mp (ByteArray.ext (Array.toList_inj.mp h))

/-- `push_field`: one length-prefixed field, or the absent marker. -/
def pushField : Option Text → Bytes
  | some text =>
    -- `u32::try_from(text.len()).unwrap_or(ABSENT - 1)`
    let length := if text.val.utf8ByteSize ≤ absent then text.val.utf8ByteSize else absent - 1
    beBytes 4 length ++ utf8 text.val
  | none => beBytes 4 absent

theorem pushField_some (text : Text) :
    pushField (some text) = beBytes 4 text.val.utf8ByteSize ++ utf8 text.val := by
  simp [pushField, Nat.le_of_lt text.property]

theorem selfDelimiting_pushField : SelfDelimiting pushField := by
  have hlengths : ∀ {m n x y}, m ≤ absent → n ≤ absent →
      beBytes 4 m ++ x = beBytes 4 n ++ y → m = n ∧ x = y := by
    intro m n x y hm hn h
    have hsplit := List.append_inj h (by rw [length_beBytes, length_beBytes])
    have habsent : absent < 256 ^ 4 := by decide
    exact ⟨beBytes_inj (by omega) (by omega) hsplit.1, hsplit.2⟩
  intro a b x y h
  cases a with
  | none =>
    cases b with
    | none => exact ⟨rfl, (hlengths (Nat.le_refl _) (Nat.le_refl _) h).2⟩
    | some t =>
      rw [pushField_some, List.append_assoc] at h
      have := (hlengths (Nat.le_refl _) (Nat.le_of_lt t.property) h).1
      have := t.property
      omega
  | some s =>
    cases b with
    | none =>
      rw [pushField_some, List.append_assoc] at h
      have := (hlengths (Nat.le_of_lt s.property) (Nat.le_refl _) h).1
      have := s.property
      omega
    | some t =>
      rw [pushField_some, pushField_some, List.append_assoc, List.append_assoc] at h
      obtain ⟨hsize, hrest⟩ :=
        hlengths (Nat.le_of_lt s.property) (Nat.le_of_lt t.property) h
      obtain ⟨htext, hxy⟩ := List.append_inj hrest (by rw [length_utf8, length_utf8, hsize])
      exact ⟨congrArg some (Subtype.ext (utf8_inj htext)), hxy⟩

section Encoding

variable (texts : TimeText)

/-- The fields of `for_each_canonical_chunk`, in order. -/
def canonicalFields (record : AuditExportRecord) : List (Option Text) :=
  [some (shardText record.shard), some (seqText record.seq), some (idText record.id),
    record.shardId.map shardText, some (texts.canonicalTime record.occurredAt),
    some record.actor, some record.operation, some record.targetType, record.targetId,
    some record.routeOrCommand, record.requestId, record.idempotencyKey, some record.status,
    record.errorSummary, some record.source]

/-- `canonical_record` -/
def canonicalRecord (record : AuditExportRecord) : Bytes :=
  (canonicalFields texts record).flatMap pushField

/-- `CHAIN_DOMAIN` -/
def chainDomain : Bytes := utf8 "harvest-audit-chain-v1"

/-- The bytes `link_with` feeds to the MAC. -/
def linkBytes (prev : ChainHash) (newestBefore : Option Int64) (record : AuditExportRecord) :
    Bytes :=
  chainDomain ++ (prev.val ++
    (pushField (newestBefore.map texts.canonicalTime) ++ canonicalRecord texts record))

theorem canonicalFields_inj {r r' : AuditExportRecord}
    (h : canonicalFields texts r = canonicalFields texts r') : r = r' := by
  simp only [canonicalFields, List.cons.injEq, Option.some.injEq, and_true] at h
  obtain ⟨hshard, hseq, hid, hshardId, htime, hrest⟩ := h
  have hshardId := Option.map_injective (fun _ _ => shardText_inj) hshardId
  cases r
  cases r'
  simp only [AuditExportRecord.mk.injEq] at hrest ⊢
  exact ⟨shardText_inj hshard, seqText_inj hseq, idText_inj hid, hshardId,
    texts.injective _ _ htime, hrest⟩

theorem linkBytes_inj {prev prev' : ChainHash} {newest newest' : Option Int64}
    {record record' : AuditExportRecord}
    (h : linkBytes texts prev newest record = linkBytes texts prev' newest' record') :
    prev = prev' ∧ newest = newest' ∧ record = record' := by
  unfold linkBytes at h
  have hprev := List.append_inj (List.append_cancel_left h)
    (by rw [prev.property, prev'.property])
  obtain ⟨hnewest, hrecord⟩ := selfDelimiting_pushField _ _ _ _ hprev.2
  have hlength : ∀ r, (canonicalFields texts r).length = 15 := fun _ => rfl
  unfold canonicalRecord at hrecord
  have hfields := selfDelimiting_pushField.flatMap_inj (x := []) (y := [])
    ((hlength record).trans (hlength record').symm) (by rw [List.append_nil, List.append_nil, hrecord])
  exact ⟨Subtype.ext hprev.1, Option.map_injective (fun _ _ => texts.injective _ _) hnewest,
    canonicalFields_inj texts hfields.1⟩

/-- `ChainCheckpoint` -/
structure ChainCheckpoint where
  startSeq : Int64
  headSeq : Int64
  head : ChainHash
  newestAt : Int64
  deriving DecidableEq

/-- `CHECKPOINT_DOMAIN` -/
def checkpointDomain : Bytes := utf8 "harvest-audit-chain-checkpoint-v1"

/-- The bytes `ChainCheckpoint::mac` feeds to the MAC. -/
def checkpointBytes (shard : Int32) (checkpoint : ChainCheckpoint) : Bytes :=
  checkpointDomain ++ (beBytes 4 shard.toBitVec.toNat ++
    (beBytes 8 checkpoint.startSeq.toBitVec.toNat ++ (beBytes 8 checkpoint.headSeq.toBitVec.toNat ++
      (checkpoint.head.val ++ beBytes 8 checkpoint.newestAt.toBitVec.toNat))))

theorem beBytes_int64_inj {a b : Int64}
    (h : beBytes 8 a.toBitVec.toNat = beBytes 8 b.toBitVec.toNat) : a = b := by
  have ha := a.toBitVec.isLt
  have hb := b.toBitVec.isLt
  exact Int64.toBitVec_inj.mp (BitVec.eq_of_toNat_eq (beBytes_inj (by omega) (by omega) h))

theorem checkpointBytes_inj {shard shard' : Int32} {cp cp' : ChainCheckpoint}
    (h : checkpointBytes shard cp = checkpointBytes shard' cp') : shard = shard' ∧ cp = cp' := by
  have hlength : ∀ width m n, (beBytes width m).length = (beBytes width n).length := by
    intro width m n
    rw [length_beBytes, length_beBytes]
  obtain ⟨hshard, h⟩ := List.append_inj (List.append_cancel_left h) (hlength _ _ _)
  obtain ⟨hstart, h⟩ := List.append_inj h (hlength _ _ _)
  obtain ⟨hhead, h⟩ := List.append_inj h (hlength _ _ _)
  obtain ⟨hlink, hnewest⟩ := List.append_inj h (by rw [cp.head.property, cp'.head.property])
  have ha := shard.toBitVec.isLt
  have hb := shard'.toBitVec.isLt
  refine ⟨Int32.toBitVec_inj.mp (BitVec.eq_of_toNat_eq
    (beBytes_inj (by omega) (by omega) hshard)), ?_⟩
  cases cp
  cases cp'
  simp only [ChainCheckpoint.mk.injEq]
  exact ⟨beBytes_int64_inj hstart, beBytes_int64_inj hhead, Subtype.ext hlink,
    beBytes_int64_inj hnewest⟩

/-- The domain separators part at their 21st byte. -/
theorem linkBytes_ne_checkpointBytes (prev : ChainHash) (newest : Option Int64)
    (record : AuditExportRecord) (shard : Int32) (cp : ChainCheckpoint) :
    linkBytes texts prev newest record ≠ checkpointBytes shard cp := by
  intro h
  have htake := congrArg (List.take 21) h
  have hlink : 21 ≤ chainDomain.length := by decide
  have hcheck : 21 ≤ checkpointDomain.length := by decide
  rw [linkBytes, checkpointBytes, List.take_append_of_le_length hlink,
    List.take_append_of_le_length hcheck] at htake
  exact absurd htake (by decide)

end Encoding

end Harvest.Audit
