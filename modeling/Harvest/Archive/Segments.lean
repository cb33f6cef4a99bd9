import Mathlib.Data.Int.Notation
import Mathlib.Data.List.Induction
import Mathlib.Algebra.Group.Int.Defs
import Mathlib.Algebra.Group.Nat.Defs
import Harvest.Lib.JsonGrammar
import Harvest.Lib.Lines

/-!
# Segments of a partition export

Model of the export side of `partition_archive.rs`. The rows of a partition are texts, one on a
line. A writer packs them into segments, a digest hashes them, and a manifest names the segments by
their content. SHA-256 and the dates of `chrono` are parameters.

Proved here:
* `writeAll_eq`: the segments are groups of the rows within the limits.
* `segmentKey_inj`: two segments of an export have different keys.
* `exportPartition_spec`: what an export leaves in the store.
-/

namespace Harvest.Archive

open Harvest.Lib

/-! ## Hashes as text -/

/-- The line feed. -/
def lineFeed : Char := Char.ofNat 0x0a

/-- `{b:02x}` -/
def hexByte (b : UInt8) : List Char := [Nat.digitChar (b.toNat / 16), Nat.digitChar (b.toNat % 16)]

def hex (bytes : List UInt8) : String := String.ofList (bytes.flatMap hexByte)

/-- `str::get(..n)`: the first `n` bytes, when they end at a character. -/
def getTo : ℕ → List Char → Option (List Char)
  | 0, _ => some []
  | _ + 1, [] => none
  | n + 1, c :: text =>
    if c.utf8Size ≤ n + 1 then (getTo (n + 1 - c.utf8Size) text).map (c :: ·) else none

/-- The first 16 hex digits of a hash, or all of a shorter text. -/
def shortHash (sha256 : String) : String :=
  ((getTo 16 sha256.toList).map String.ofList).getD sha256

/-! ## Keys -/

/-- `{n:06}` -/
def padded (n : ℕ) : List Char :=
  List.replicate (6 - (Nat.toDigits 10 n).length) '0' ++ Nat.toDigits 10 n

/-- The dates of `chrono`: the nanoseconds of a second, and the text for a format. -/
structure Chrono (T : Type) where
  nanosecond : T → ℕ
  format : T → String → String

section Keys

variable {T : Type} (chrono : Chrono T)

/-- One cohort bound as a key part. -/
def keyBound : Option T → String
  | none => "min"
  | some ts =>
    if chrono.nanosecond ts = 0 then chrono.format ts "%Y%m%dT%H%M%SZ"
    else chrono.format ts "%Y%m%dT%H%M%S%.6fZ"

def archivePrefix (shardId : ℤ) (partition : String) (lower : Option T) (upper : T) : String :=
  "harvest-partitions/shard-" ++ toString shardId ++ "/" ++ partition ++ "/" ++
    keyBound chrono lower ++ "_" ++ keyBound chrono (some upper)

end Keys

def manifestKey (root sha256 : String) : String :=
  root ++ "/manifest-" ++ shortHash sha256 ++ ".json"

def segmentKey (root : String) (n : ℕ) (sha256 : String) : String :=
  root ++ "/segment-" ++ String.ofList (padded n) ++ "-" ++ shortHash sha256 ++ ".jsonl"

/-! ## Manifest -/

structure SegmentEntry where
  key : String
  rows : ℕ
  bytes : ℕ
  sha256 : String
deriving DecidableEq

structure PartitionManifest (T : Type) where
  format : ℕ
  shardId : ℤ
  partition : String
  lower : Option T
  upper : T
  exportedAt : T
  rowCount : ℕ
  sha256 : String
  rowChecksum : String
  segments : List SegmentEntry

section Manifest

variable {T : Type} (chrono : Chrono T)

def PartitionManifest.root (m : PartitionManifest T) : String :=
  archivePrefix chrono m.shardId m.partition m.lower m.upper

def PartitionManifest.key (m : PartitionManifest T) : String :=
  manifestKey (m.root chrono) m.sha256

end Manifest

/-- `FORMAT_VERSION` -/
def formatVersion : ℕ := 1

/-! ## Digest of the rows -/

section Digest

variable (sha256 : ByteArray → Vector UInt8 32)

def sha256Hex (bytes : ByteArray) : String := hex (sha256 bytes).toList

/-- The first 8 bytes of the hash, as a big-endian `i64`. -/
def rowHash (line : String) : ℤ :=
  let n : ℕ := ((sha256 line.toByteArray).toList.take 8).foldl (fun n b => n * 256 + b.toNat) 0
  if n < 2 ^ 63 then (n : ℤ) else (n : ℤ) - 2 ^ 64

/-- A line with its line feed. -/
def lineBytes (line : String) : ByteArray := line.toByteArray ++ "\n".toByteArray

/-- The hasher holds what it was given. -/
structure RowDigest where
  hasher : ByteArray
  rows : ℕ
  checksum : ℤ

namespace RowDigest

/-- `RowDigest::default` -/
def empty : RowDigest := ⟨.empty, 0, 0⟩

def push (d : RowDigest) (line : String) : RowDigest :=
  ⟨d.hasher ++ lineBytes line, d.rows + 1, d.checksum + rowHash sha256 line⟩

def finish (d : RowDigest) : String × String := (sha256Hex sha256 d.hasher, toString d.checksum)

end RowDigest

end Digest

/-! ## Writer -/

structure SegmentWriter where
  maxRows : ℕ
  maxBytes : ℕ
  buf : ByteArray
  rows : ℕ

namespace SegmentWriter

/-- A zero limit counts as 1. -/
def new (maxRows maxBytes : ℕ) : SegmentWriter := ⟨max maxRows 1, max maxBytes 1, .empty, 0⟩

/-- The open segment, if it holds a row. -/
def finish (w : SegmentWriter) : SegmentWriter × Option (ByteArray × ℕ) :=
  if w.rows = 0 then (w, none) else ({ w with buf := .empty, rows := 0 }, some (w.buf, w.rows))

/-- Adds a line, and gives the segment that was closed before it. -/
def push (w : SegmentWriter) (line : String) : SegmentWriter × Option (ByteArray × ℕ) :=
  let full := w.maxRows ≤ w.rows ∨ w.maxBytes < w.buf.size + line.utf8ByteSize + 1
  let (w, closed) := if full then w.finish else (w, none)
  ({ w with buf := w.buf ++ lineBytes line, rows := w.rows + 1 }, closed)

end SegmentWriter

/-! ## Export -/

/-- The objects of the backend, by key; a call can fail. -/
abbrev Store := String → Except String (Option ByteArray)

def Store.put (store : Store) (key : String) (bytes : ByteArray) : Store :=
  fun k => if k = key then .ok (some bytes) else store k

theorem Store.put_self (store : Store) (key : String) (bytes : ByteArray) :
    store.put key bytes key = .ok (some bytes) := if_pos rfl

theorem Store.put_of_ne (store : Store) {key k : String} (h : k ≠ key) (bytes : ByteArray) :
    store.put key bytes k = store k := if_neg h

/-- The objects that were put, and the entries of the segments among them. -/
structure Uploads where
  store : Store
  segments : List SegmentEntry

/-- The state of `export_partition`. -/
structure ExportState where
  writer : SegmentWriter
  digest : RowDigest
  uploads : Uploads

section Export

variable (sha256 : ByteArray → Vector UInt8 32)

/-- The entry of the segment after `n` others. -/
def segmentEntry (root : String) (n : ℕ) (segment : ByteArray × ℕ) : SegmentEntry :=
  let hash := sha256Hex sha256 segment.1
  { key := segmentKey root (n + 1) hash
    rows := segment.2
    bytes := segment.1.size
    sha256 := hash }

def uploadSegment (root : String) (uploads : Uploads) (segment : ByteArray × ℕ) : Uploads :=
  let entry := segmentEntry sha256 root uploads.segments.length segment
  { store := uploads.store.put entry.key segment.1
    segments := uploads.segments ++ [entry] }

/-- The body of the loop over the rows. -/
def exportRow (root : String) (st : ExportState) (line : String) : ExportState :=
  let (writer, closed) := st.writer.push line
  { writer
    digest := st.digest.push sha256 line
    uploads := closed.elim st.uploads (uploadSegment sha256 root st.uploads) }

/-- What an export names: the shard, the partition, its bounds, and when it finished. -/
structure ExportInfo (T : Type) where
  shardId : ℤ
  partition : String
  lower : Option T
  upper : T
  exportedAt : T

/-- The manifest of an export. -/
def exportManifest {T : Type} (info : ExportInfo T) (digest : RowDigest)
    (segments : List SegmentEntry) : PartitionManifest T :=
  { format := formatVersion
    shardId := info.shardId
    partition := info.partition
    lower := info.lower
    upper := info.upper
    exportedAt := info.exportedAt
    rowCount := digest.rows
    sha256 := (digest.finish sha256).1
    rowChecksum := (digest.finish sha256).2
    segments }

variable {T : Type} (chrono : Chrono T) (toVec : PartitionManifest T → ByteArray)

/-- Writes the segments of the rows, then the manifest under its own key. -/
def exportPartition (info : ExportInfo T) (maxRows maxBytes : ℕ) (store : Store)
    (lines : List String) : Store × PartitionManifest T :=
  let root := archivePrefix chrono info.shardId info.partition info.lower info.upper
  let st := lines.foldl (exportRow sha256 root) ⟨.new maxRows maxBytes, .empty, store, []⟩
  let uploads := st.writer.finish.2.elim st.uploads (uploadSegment sha256 root st.uploads)
  let manifest := exportManifest sha256 info st.digest uploads.segments
  (uploads.store.put (manifest.key chrono) (toVec manifest), manifest)

end Export

/-! ## Lines as bytes -/

/-- Each line with its line feed. -/
def linesText : List String → String
  | [] => ""
  | line :: rest => line ++ "\n" ++ linesText rest

def linesBytes (lines : List String) : ByteArray := (linesText lines).toByteArray

theorem linesText_append (lines more : List String) :
    linesText (lines ++ more) = linesText lines ++ linesText more := by
  induction lines with
  | nil => simp [linesText]
  | cons line lines ih =>
    rw [List.cons_append, linesText, linesText, ih, ← String.append_assoc]

theorem linesBytes_concat (lines : List String) (line : String) :
    linesBytes (lines ++ [line]) = linesBytes lines ++ lineBytes line := by
  rw [linesBytes, linesText_append, String.toByteArray_append, linesText, linesText,
    String.append_empty]
  rfl

theorem size_lineBytes (line : String) : (lineBytes line).size = line.utf8ByteSize + 1 := by
  rw [lineBytes, ByteArray.size_append]
  rfl

theorem toList_linesText (lines : List String) :
    (linesText lines).toList = joinTerminated lineFeed (lines.map String.toList) := by
  induction lines with
  | nil => rfl
  | cons line lines ih =>
    rw [linesText, String.toList_append, String.toList_append, ih, List.map_cons,
      joinTerminated_cons, List.append_assoc]
    rfl

theorem foldl_push_hasher (sha256 : ByteArray → Vector UInt8 32) (d : RowDigest)
    (lines : List String) : (lines.foldl (RowDigest.push sha256) d).hasher =
      d.hasher ++ linesBytes lines := by
  induction lines generalizing d with
  | nil => exact ByteArray.append_empty.symm
  | cons line lines ih =>
    rw [List.foldl_cons, ih, RowDigest.push, ByteArray.append_assoc]
    rfl

theorem foldl_push_rows (sha256 : ByteArray → Vector UInt8 32) (d : RowDigest)
    (lines : List String) :
    (lines.foldl (RowDigest.push sha256) d).rows = d.rows + lines.length := by
  induction lines generalizing d with
  | nil => rfl
  | cons line lines ih =>
    rw [List.foldl_cons, ih, List.length_cons, Nat.add_comm lines.length, ← Nat.add_assoc]
    rfl

/-! ## Groups of lines -/

/-- All segments that a writer gives for the lines. -/
def writeAll (w : SegmentWriter) : List String → List (ByteArray × ℕ)
  | [] => w.finish.2.toList
  | line :: rest => (w.push line).2.toList ++ writeAll (w.push line).1 rest

/-- A group of lines within both limits, or one line. -/
structure Fits (maxRows maxBytes : ℕ) (lines : List String) : Prop where
  ne_nil : lines ≠ []
  rows_le : lines.length ≤ maxRows
  bytes_le : (linesBytes lines).size ≤ maxBytes ∨ lines.length = 1

/-- The segment of a group of lines. -/
def segmentOf (lines : List String) : ByteArray × ℕ := (linesBytes lines, lines.length)

/-- The writer holds the lines of a group that is not closed. -/
structure Holding (w : SegmentWriter) (lines : List String) : Prop where
  buf : w.buf = linesBytes lines
  rows : w.rows = lines.length
  one_le : 1 ≤ w.maxRows
  fits : lines = [] ∨ Fits w.maxRows w.maxBytes lines

theorem holding_new (maxRows maxBytes : ℕ) : Holding (.new maxRows maxBytes) [] :=
  ⟨rfl, rfl, Nat.le_max_right _ _, .inl rfl⟩

theorem Holding.finish_none {w : SegmentWriter} (h : Holding w []) : w.finish = (w, none) :=
  if_pos h.rows

theorem Holding.finish_some {w : SegmentWriter} {lines : List String} (h : Holding w lines)
    (hne : lines ≠ []) :
    w.finish = ({ w with buf := .empty, rows := 0 }, some (segmentOf lines)) := by
  have hrows : w.rows ≠ 0 := by
    rw [h.rows]
    exact mt List.length_eq_zero_iff.mp hne
  rw [SegmentWriter.finish, if_neg hrows, segmentOf, h.buf, h.rows]

/-- A line starts a group, or joins the open one. -/
theorem Holding.push {w : SegmentWriter} {lines : List String} (h : Holding w lines)
    (line : String) :
    (∃ w', w.push line = (w', none) ∧ w'.maxRows = w.maxRows ∧ w'.maxBytes = w.maxBytes ∧
        Holding w' (lines ++ [line])) ∨
      lines ≠ [] ∧ ∃ w', w.push line = (w', some (segmentOf lines)) ∧ w'.maxRows = w.maxRows ∧
        w'.maxBytes = w.maxBytes ∧ Holding w' [line] := by
  have hone : Fits w.maxRows w.maxBytes [line] := ⟨List.cons_ne_nil _ _, h.one_le, .inr rfl⟩
  have hempty : linesBytes [line] = ByteArray.empty ++ lineBytes line := linesBytes_concat [] line
  unfold SegmentWriter.push
  by_cases hfull : w.maxRows ≤ w.rows ∨ w.maxBytes < w.buf.size + line.utf8ByteSize + 1
  · simp only [if_pos hfull]
    by_cases hlines : lines = []
    · subst hlines
      rw [h.finish_none]
      refine .inl ⟨_, rfl, rfl, rfl, ?_, ?_, h.one_le, .inr hone⟩
      · rw [List.nil_append, hempty, h.buf]
        rfl
      · exact congrArg (· + 1) h.rows
    · rw [h.finish_some hlines]
      exact .inr ⟨hlines, _, rfl, rfl, rfl, hempty.symm, rfl, h.one_le, .inr hone⟩
  · simp only [if_neg hfull]
    obtain ⟨hrows, hbytes⟩ := not_or.mp hfull
    refine .inl ⟨_, rfl, rfl, rfl, ?_, ?_, h.one_le, .inr ⟨?_, ?_, .inl ?_⟩⟩
    · rw [linesBytes_concat, h.buf]
    · rw [List.length_append, h.rows]
      rfl
    · exact List.append_ne_nil_of_right_ne_nil _ (List.cons_ne_nil _ _)
    · rw [List.length_append, ← h.rows]
      exact Nat.lt_of_not_le hrows
    · rw [linesBytes_concat, ByteArray.size_append, size_lineBytes, ← h.buf, ← Nat.add_assoc]
      exact Nat.le_of_not_lt hbytes

/-- **The segments are groups of the lines, within the limits.** -/
theorem writeAll_eq {w : SegmentWriter} {lines : List String} (h : Holding w lines)
    (more : List String) :
    ∃ groups : List (List String), groups.flatten = lines ++ more ∧
      writeAll w more = groups.map segmentOf ∧
      ∀ group ∈ groups, Fits w.maxRows w.maxBytes group := by
  induction more generalizing w lines with
  | nil =>
    by_cases hlines : lines = []
    · subst hlines
      exact ⟨[], rfl, by rw [writeAll, h.finish_none]; rfl, fun _ hmem => absurd hmem List.not_mem_nil⟩
    · refine ⟨[lines], by simp, by rw [writeAll, h.finish_some hlines]; rfl, ?_⟩
      intro group hgroup
      obtain rfl := List.mem_singleton.mp hgroup
      exact h.fits.resolve_left hlines
  | cons line more ih =>
    rw [writeAll]
    obtain ⟨w', hpush, hrows, hbytes, hnext⟩ | ⟨hlines, w', hpush, hrows, hbytes, hnext⟩ :=
      h.push line
    · obtain ⟨groups, hflat, hwrite, hfits⟩ := ih hnext
      rw [hpush]
      refine ⟨groups, ?_, hwrite, hrows ▸ hbytes ▸ hfits⟩
      rw [hflat, List.append_assoc, List.singleton_append]
    · obtain ⟨groups, hflat, hwrite, hfits⟩ := ih hnext
      rw [hpush]
      refine ⟨lines :: groups, ?_, ?_, ?_⟩
      · rw [List.flatten_cons, hflat, List.singleton_append]
      · rw [List.map_cons, hwrite]
        rfl
      · intro group hgroup
        rcases List.mem_cons.mp hgroup with rfl | hgroup
        · exact h.fits.resolve_left hlines
        · exact hrows ▸ hbytes ▸ hfits group hgroup

/-! ## Short hashes -/

theorem utf8Size_hex {bytes : List UInt8} {c : Char} (h : c ∈ (hex bytes).toList) :
    c.utf8Size = 1 := by
  rw [hex, String.toList_ofList] at h
  obtain ⟨b, -, hc⟩ := List.mem_flatMap.mp h
  have hb := b.toNat_lt
  simp only [hexByte, List.mem_cons, List.not_mem_nil, or_false] at hc
  rcases hc with rfl | rfl
  · exact JsonText.utf8Size_digitChar (by omega)
  · exact JsonText.utf8Size_digitChar (by omega)

theorem length_hex (bytes : List UInt8) : (hex bytes).toList.length = bytes.length * 2 := by
  rw [hex, String.toList_ofList, List.length_flatMap]
  simp [hexByte]

theorem getTo_of_ascii {n : ℕ} {text : List Char} (h : ∀ c ∈ text, c.utf8Size = 1)
    (hn : n ≤ text.length) : getTo n text = some (text.take n) := by
  induction n generalizing text with
  | zero => cases text <;> rfl
  | succ n ih =>
    cases text with
    | nil => exact absurd hn (by simp)
    | cons c text =>
      obtain ⟨hc, htext⟩ := List.forall_mem_cons.mp h
      have hrest := ih htext (Nat.le_of_succ_le_succ hn)
      rw [getTo, hc, if_pos (Nat.succ_le_succ (Nat.zero_le n)), Nat.add_sub_cancel, hrest]
      rfl

section Hashes

variable (sha256 : ByteArray → Vector UInt8 32)

/-- The short form of a hash has 16 characters. -/
theorem length_shortHash (bytes : ByteArray) :
    (shortHash (sha256Hex sha256 bytes)).toList.length = 16 := by
  have hlength : (sha256Hex sha256 bytes).toList.length = 64 := by
    rw [sha256Hex, length_hex, Vector.length_toList]
  have hascii : ∀ c ∈ (sha256Hex sha256 bytes).toList, c.utf8Size = 1 := fun c hc => utf8Size_hex hc
  rw [shortHash, getTo_of_ascii hascii (by omega), Option.map_some,
    Option.getD_some, String.toList_ofList, List.length_take, hlength]
  rfl

/-- Under one key two manifests have the same short hash. -/
theorem shortHash_eq_of_manifestKey_eq {root root' : String} {a b : ByteArray}
    (h : manifestKey root (sha256Hex sha256 a) = manifestKey root' (sha256Hex sha256 b)) :
    shortHash (sha256Hex sha256 a) = shortHash (sha256Hex sha256 b) := by
  rw [manifestKey, manifestKey, ← String.toList_inj] at h
  simp only [String.toList_append] at h
  have hsame := (List.append_inj' (List.append_inj' h rfl).1 (by simp [length_shortHash])).2
  exact String.toList_inj.mp hsame

end Hashes

/-! ## Keys of an export -/

theorem ofDigitChars_padded (n : ℕ) : Nat.ofDigitChars 10 (padded n) 0 = n := by
  rw [padded, Nat.ofDigitChars_append, Nat.ofDigitChars_replicate_zero, Nat.mul_zero,
    Nat.ofDigitChars_ten_toDigits]

theorem dash_notMem_padded (n : ℕ) : '-' ∉ padded n := by
  intro h
  rcases List.mem_append.mp h with h | h
  · exact absurd (List.eq_of_mem_replicate h) (by decide)
  · exact absurd (Nat.isDigit_of_mem_toDigits (by decide) (by decide) h) (by decide)

/-- **Two segments of an export have different keys.** -/
theorem segmentKey_inj {root hash hash' : String} {n n' : ℕ}
    (h : segmentKey root n hash = segmentKey root n' hash') : n = n' := by
  have hdash : "-".toList = ['-'] := rfl
  rw [segmentKey, segmentKey, ← String.toList_inj] at h
  simp only [String.toList_append, String.toList_ofList, List.append_assoc, List.append_cancel_left_eq,
    hdash, List.cons_append] at h
  -- the number ends at the dash
  have hlines := congrArg (splitTerminator '-') h
  rw [splitTerminator_append (dash_notMem_padded n), splitTerminator_append (dash_notMem_padded n'),
    List.cons.injEq] at hlines
  rw [← ofDigitChars_padded n, hlines.1, ofDigitChars_padded]

theorem segmentKey_ne_manifestKey (root hash hash' : String) (n : ℕ) :
    segmentKey root n hash ≠ manifestKey root hash' := by
  intro h
  rw [segmentKey, manifestKey, ← String.toList_inj] at h
  simp only [String.toList_append, List.append_assoc, List.append_cancel_left_eq] at h
  have hsecond := congrArg (·[1]?) h
  exact absurd hsecond (by simp)

/-! ## What an export leaves -/

section Spec

variable (sha256 : ByteArray → Vector UInt8 32)

/-- Every segment is found under its key. -/
theorem uploads_spec (root : String) (store : Store) (segments : List (ByteArray × ℕ)) :
    (segments.foldl (uploadSegment sha256 root) ⟨store, []⟩).segments =
        segments.mapIdx (segmentEntry sha256 root) ∧
      ∀ i segment, segments[i]? = some segment →
        (segments.foldl (uploadSegment sha256 root) ⟨store, []⟩).store
          (segmentEntry sha256 root i segment).key = .ok (some segment.1) := by
  induction segments using List.reverseRecOn with
  | nil => exact ⟨rfl, fun i segment h => by simp at h⟩
  | append_singleton segments last ih =>
    obtain ⟨hentries, hstore⟩ := ih
    have hlength : (segments.foldl (uploadSegment sha256 root) ⟨store, []⟩).segments.length =
        segments.length := by rw [hentries, List.length_mapIdx]
    rw [List.foldl_append, List.foldl_cons, List.foldl_nil]
    refine ⟨?_, fun i segment h => ?_⟩
    · rw [uploadSegment, hlength, hentries, List.mapIdx_concat]
    · rw [uploadSegment, hlength]
      rcases Nat.lt_or_ge i segments.length with hlt | hge
      · rw [List.getElem?_append_left hlt] at h
        have hne : (segmentEntry sha256 root i segment).key ≠
            (segmentEntry sha256 root segments.length last).key := by
          intro hkey
          have hsame := segmentKey_inj hkey
          omega
        exact (Store.put_of_ne _ hne _).trans (hstore i segment h)
      · obtain ⟨hi, -⟩ := List.getElem?_eq_some_iff.mp h
        obtain rfl : i = segments.length := by
          simp only [List.length_append, List.length_singleton] at hi
          omega
        obtain rfl : last = segment := by simpa using h
        exact Store.put_self _ _ _

theorem foldl_exportRow (root : String) (st : ExportState) (lines : List String) :
    (lines.foldl (exportRow sha256 root) st).digest =
        lines.foldl (RowDigest.push sha256) st.digest ∧
      (lines.foldl (exportRow sha256 root) st).writer.finish.2.elim
          (lines.foldl (exportRow sha256 root) st).uploads
          (uploadSegment sha256 root (lines.foldl (exportRow sha256 root) st).uploads) =
        (writeAll st.writer lines).foldl (uploadSegment sha256 root) st.uploads := by
  induction lines generalizing st with
  | nil =>
    refine ⟨rfl, ?_⟩
    rw [List.foldl_nil, writeAll]
    cases st.writer.finish.2 <;> rfl
  | cons line lines ih =>
    obtain ⟨hdigest, huploads⟩ := ih (exportRow sha256 root st line)
    rw [List.foldl_cons]
    refine ⟨hdigest, huploads.trans ?_⟩
    rw [writeAll, List.foldl_append, exportRow]
    obtain ⟨writer, closed⟩ := st.writer.push line
    cases closed <;> rfl

variable {T : Type} (chrono : Chrono T) (toVec : PartitionManifest T → ByteArray)

/-- What the manifest of the rows says, and what the store holds. -/
structure Exported (maxRows maxBytes : ℕ) (lines : List String)
    (groups : List (List String)) (store : Store) (m : PartitionManifest T) : Prop where
  flatten_eq : groups.flatten = lines
  fits : ∀ group ∈ groups, Fits (max maxRows 1) (max maxBytes 1) group
  format_eq : m.format = formatVersion
  rowCount_eq : m.rowCount = lines.length
  sha256_eq : m.sha256 = sha256Hex sha256 (linesBytes lines)
  checksum_eq : m.rowChecksum = toString (lines.foldl (RowDigest.push sha256) .empty).checksum
  segments_eq : m.segments = (groups.map segmentOf).mapIdx (segmentEntry sha256 (m.root chrono))
  stored : ∀ i group, groups[i]? = some group →
    store (segmentEntry sha256 (m.root chrono) i (segmentOf group)).key =
      .ok (some (linesBytes group))
  manifest_stored : store (m.key chrono) = .ok (some (toVec m))

/-- **What an export leaves**: the groups of the rows under their keys, and the manifest under its
own. -/
theorem exportPartition_spec (info : ExportInfo T) (maxRows maxBytes : ℕ) (store : Store)
    (lines : List String) : ∃ groups, Exported sha256 chrono toVec maxRows maxBytes lines groups
      (exportPartition sha256 chrono toVec info maxRows maxBytes store lines).1
      (exportPartition sha256 chrono toVec info maxRows maxBytes store lines).2 := by
  obtain ⟨groups, hflat, hwrite, hfits⟩ := writeAll_eq (holding_new maxRows maxBytes) lines
  unfold exportPartition
  dsimp only
  -- the manifest names the prefix under which the segments are
  have hroot : ∀ digest segments, (exportManifest sha256 info digest segments).root chrono =
      archivePrefix chrono info.shardId info.partition info.lower info.upper :=
    fun _ _ => rfl
  generalize archivePrefix chrono info.shardId info.partition info.lower info.upper = root
    at hroot ⊢
  obtain ⟨hdigest, huploads⟩ :=
    foldl_exportRow sha256 root ⟨.new maxRows maxBytes, .empty, store, []⟩ lines
  obtain ⟨hentries, hstored⟩ := uploads_spec sha256 root store (groups.map segmentOf)
  rw [huploads, hdigest, hwrite]
  generalize (groups.map segmentOf).foldl (uploadSegment sha256 root) ⟨store, []⟩ = uploads
    at hentries hstored ⊢
  have hkey : ∀ digest segments, (exportManifest sha256 info digest segments).key chrono =
      manifestKey root (RowDigest.finish sha256 digest).1 := by
    intro digest segments
    rw [PartitionManifest.key, hroot]
    rfl
  refine ⟨groups, ⟨hflat, hfits, rfl, ?_, ?_, rfl, ?_, ?_, Store.put_self _ _ _⟩⟩
  · exact (foldl_push_rows sha256 .empty lines).trans (Nat.zero_add _)
  · exact congrArg (sha256Hex sha256)
      ((foldl_push_hasher sha256 .empty lines).trans ByteArray.empty_append)
  · rw [hroot]
    exact hentries
  · intro i group hgroup
    rw [hroot, hkey]
    refine (Store.put_of_ne _ (segmentKey_ne_manifestKey _ _ _ _) _).trans
      (hstored i (segmentOf group) ?_)
    rw [List.getElem?_map, hgroup, Option.map_some]

end Spec

end Harvest.Archive
