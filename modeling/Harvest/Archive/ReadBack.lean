import Mathlib
import Harvest.Archive.Segments

/-!
# Reading a partition export back

Model of `read_back` in `partition_archive.rs`. It follows the manifest under a key, fetches every
segment and checks sizes, hashes, row counts and the checksum.

`serde_json` is a parameter: it reads a row only from the text of one JSON object.

Proved here:
* `readSegments_eq_ok`, `readBack_eq_ok`: what a clean read found in the store.
* `readBack_exportPartition`: an export reads back.
* `rows_eq_of_linesBytes_eq`: segments with the bytes of the rows have the rows, wherever they are
  cut.
-/

namespace Harvest.Archive

open Harvest.Lib

/-- `serde_json` on manifests and rows, and the message of an invalid text. -/
structure ArchiveCodec (T Row : Type) where
  fromSlice : ByteArray → Except String (PartitionManifest T)
  toVec : PartitionManifest T → ByteArray
  fromStr : String → Except String Row
  utf8Error : ByteArray → String
  /-- A row is read from one JSON object, with white space around it. -/
  fromStr_object : ∀ line row, fromStr line = .ok row → JsonText.IsObject line.toList

inductive ReadBackError
  | missing (key : String)
  | backend (key source : String)
  | corrupt (message : String)

structure ArchivedPartition (T Row : Type) where
  manifest : PartitionManifest T
  rows : List Row

def fetch (store : Store) (key : String) : Except ReadBackError ByteArray :=
  match store key with
  | .error source => .error (.backend key source)
  | .ok none => .error (.missing key)
  | .ok (some bytes) => .ok bytes

/-- `split_terminator` at line feeds. -/
def textLines (text : String) : List String :=
  (splitTerminator lineFeed text.toList).map String.ofList

structure ReadState (Row : Type) where
  total : ByteArray
  digest : RowDigest
  rows : List Row

section ReadBack

variable {T Row : Type} (sha256 : ByteArray → Vector UInt8 32) (chrono : Chrono T)
variable (codec : ArchiveCodec T Row) (keepRows : Bool)

def readLine (key : String) (st : ReadState Row) (line : String) :
    Except ReadBackError (ReadState Row) :=
  match codec.fromStr line with
  | .error e => .error (.corrupt (key ++ ": " ++ e))
  | .ok row =>
    .ok { st with
      digest := st.digest.push sha256 line
      rows := if keepRows then st.rows ++ [row] else st.rows }

/-- The lines of a segment, and their number. -/
def readText (seg : SegmentEntry) (st : ReadState Row) (text : String) :
    Except ReadBackError (ReadState Row) :=
  match (textLines text).foldlM (readLine sha256 codec keepRows seg.key) st with
  | .error e => .error e
  | .ok after =>
    if after.digest.rows - st.digest.rows ≠ seg.rows then
      .error (.corrupt (seg.key ++ ": the row count does not match the manifest"))
    else .ok after

def readSegment (store : Store) (st : ReadState Row) (seg : SegmentEntry) :
    Except ReadBackError (ReadState Row) :=
  match fetch store seg.key with
  | .error e => .error e
  | .ok bytes =>
    if bytes.size ≠ seg.bytes ∨ sha256Hex sha256 bytes ≠ seg.sha256 then
      .error (.corrupt (seg.key ++ ": the bytes do not match the manifest"))
    else
      match String.fromUTF8? bytes with
      | none => .error (.corrupt (seg.key ++ ": " ++ codec.utf8Error bytes))
      | some text =>
        readText sha256 codec keepRows seg { st with total := st.total ++ bytes } text

/-- The checks of the manifest itself: its format, its key, and where its segments are. -/
def checkManifest (manifestKey : String) (m : PartitionManifest T) : Except ReadBackError Unit :=
  if m.format ≠ formatVersion then
    .error (.corrupt (manifestKey ++ ": format " ++ toString m.format ++ " is not " ++
      toString formatVersion))
  else if m.key chrono ≠ manifestKey ∨
      m.segments.any fun seg => !((m.root chrono ++ "/").toList.isPrefixOf seg.key.toList) then
    .error (.corrupt (manifestKey ++ ": the manifest names another partition"))
  else .ok ()

/-- The checks over all segments. -/
def checkTotals (manifestKey : String) (m : PartitionManifest T) (st : ReadState Row) :
    Except ReadBackError (ArchivedPartition T Row) :=
  if st.digest.rows ≠ m.rowCount ∨ sha256Hex sha256 st.total ≠ m.sha256 ∨
      (st.digest.finish sha256).2 ≠ m.rowChecksum then
    .error (.corrupt (manifestKey ++ ": the segments do not match the manifest"))
  else .ok ⟨m, st.rows⟩

def readBackInner (store : Store) (manifestKey : String) :
    Except ReadBackError (ArchivedPartition T Row) :=
  match fetch store manifestKey with
  | .error e => .error e
  | .ok raw =>
    match codec.fromSlice raw with
    | .error e => .error (.corrupt (manifestKey ++ ": " ++ e))
    | .ok m =>
      match checkManifest chrono manifestKey m with
      | .error e => .error e
      | .ok () =>
        match m.segments.foldlM (readSegment sha256 codec keepRows store) ⟨.empty, .empty, []⟩ with
        | .error e => .error e
        | .ok st => checkTotals sha256 manifestKey m st

def readBack (store : Store) (manifestKey : String) :
    Except ReadBackError (ArchivedPartition T Row) :=
  readBackInner sha256 chrono codec true store manifestKey

end ReadBack

/-! ## What a clean read found -/

section Found

variable {T Row : Type} {sha256 : ByteArray → Vector UInt8 32} {chrono : Chrono T}
variable {codec : ArchiveCodec T Row} {keepRows : Bool}

theorem fetch_eq_ok {store : Store} {key : String} {bytes : ByteArray} :
    fetch store key = .ok bytes ↔ store key = .ok (some bytes) := by
  unfold fetch
  cases store key with
  | error source => simp
  | ok found => cases found <;> simp

theorem fromUTF8?_eq_some {bytes : ByteArray} {text : String} :
    String.fromUTF8? bytes = some text ↔ bytes = text.toByteArray := by
  unfold String.fromUTF8?
  constructor
  · intro h
    split at h
    · obtain rfl := Option.some.inj h
      rfl
    · cases h
  · rintro rfl
    rw [dif_pos text.isValidUTF8]
    rfl

variable (codec) in
/-- The rows that are read from the lines. -/
abbrev Parses (lines : List String) (rows : List Row) : Prop :=
  List.Forall₂ (fun line row => codec.fromStr line = .ok row) lines rows

variable (sha256 keepRows) in
/-- The state after the lines. -/
def ReadState.addLines (st : ReadState Row) (lines : List String) (rows : List Row) :
    ReadState Row :=
  { st with
    digest := lines.foldl (RowDigest.push sha256) st.digest
    rows := if keepRows then st.rows ++ rows else st.rows }

theorem readLines_eq_ok {key : String} {lines : List String} {st st' : ReadState Row} :
    lines.foldlM (readLine sha256 codec keepRows key) st = .ok st' ↔
      ∃ rows, Parses codec lines rows ∧ st' = st.addLines sha256 keepRows lines rows := by
  induction lines generalizing st with
  | nil =>
    rw [List.foldlM_nil]
    constructor
    · intro h
      cases h
      exact ⟨[], .nil, by simp [ReadState.addLines]⟩
    · rintro ⟨rows, hrows, rfl⟩
      cases hrows
      simp [ReadState.addLines, pure, Except.pure]
  | cons line lines ih =>
    rw [List.foldlM_cons]
    cases hline : codec.fromStr line with
    | error e =>
      have hread : readLine sha256 codec keepRows key st line =
          .error (.corrupt (key ++ ": " ++ e)) := by rw [readLine, hline]
      rw [hread]
      constructor
      · intro h
        cases h
      · rintro ⟨rows, hrows, -⟩
        cases hrows with
        | cons hfirst _ =>
          rw [hline] at hfirst
          cases hfirst
    | ok row =>
      have hread : readLine sha256 codec keepRows key st line =
          .ok (st.addLines sha256 keepRows [line] [row]) := by
        rw [readLine, hline]
        rfl
      have hnext : ∀ rows, (st.addLines sha256 keepRows [line] [row]).addLines sha256 keepRows
          lines rows = st.addLines sha256 keepRows (line :: lines) (row :: rows) := by
        intro rows
        cases keepRows <;> simp [ReadState.addLines]
      rw [hread]
      refine Iff.trans ih ?_
      constructor
      · rintro ⟨rows, hrows, rfl⟩
        exact ⟨row :: rows, .cons hline hrows, hnext rows⟩
      · rintro ⟨rows, hrows, rfl⟩
        cases hrows with
        | @cons _ first _ rest hfirst hrest =>
          rw [hline] at hfirst
          cases hfirst
          exact ⟨rest, hrest, (hnext rest).symm⟩

variable (sha256 codec) in
/-- The store holds the segment: its text has the size and the hash of the entry, and its lines are
that many rows. -/
structure Holds (store : Store) (seg : SegmentEntry) (text : String) (rows : List Row) :
    Prop where
  stored : store seg.key = .ok (some text.toByteArray)
  size_eq : text.toByteArray.size = seg.bytes
  hash_eq : sha256Hex sha256 text.toByteArray = seg.sha256
  parses : Parses codec (textLines text) rows
  rows_eq : (textLines text).length = seg.rows

variable (sha256 keepRows) in
/-- The state after a segment. -/
def ReadState.addText (st : ReadState Row) (text : String) (rows : List Row) : ReadState Row :=
  { st with total := st.total ++ text.toByteArray }.addLines sha256 keepRows (textLines text) rows

theorem readText_eq_ok {seg : SegmentEntry} {st st' : ReadState Row} {text : String} :
    readText sha256 codec keepRows seg st text = .ok st' ↔
      ∃ rows, Parses codec (textLines text) rows ∧ (textLines text).length = seg.rows ∧
        st' = st.addLines sha256 keepRows (textLines text) rows := by
  have hcount : ∀ rows : List Row,
      (st.addLines sha256 keepRows (textLines text) rows).digest.rows - st.digest.rows =
        (textLines text).length := by
    intro rows
    have hrows := foldl_push_rows sha256 st.digest (textLines text)
    simp only [ReadState.addLines]
    omega
  unfold readText
  constructor
  · intro h
    split at h
    · cases h
    · next after hlines =>
      obtain ⟨rows, hrows, rfl⟩ := readLines_eq_ok.mp hlines
      rw [hcount] at h
      split at h
      · cases h
      · next hlength =>
        cases h
        exact ⟨rows, hrows, not_not.mp hlength, rfl⟩
  · rintro ⟨rows, hrows, hlength, rfl⟩
    rw [readLines_eq_ok.mpr ⟨rows, hrows, rfl⟩]
    dsimp only
    rw [hcount, if_neg (not_not.mpr hlength)]

/-- A segment is read when the store holds it. -/
theorem readSegment_eq_ok {store : Store} {seg : SegmentEntry} {st st' : ReadState Row} :
    readSegment sha256 codec keepRows store st seg = .ok st' ↔
      ∃ text rows, Holds sha256 codec store seg text rows ∧
        st' = st.addText sha256 keepRows text rows := by
  unfold readSegment
  constructor
  · intro h
    split at h
    · cases h
    · next bytes hfetch =>
      split at h
      · cases h
      · next hmatch =>
        obtain ⟨hsize, hhash⟩ := not_or.mp hmatch
        split at h
        · cases h
        · next text htext =>
          obtain rfl := fromUTF8?_eq_some.mp htext
          obtain ⟨rows, hrows, hlength, rfl⟩ := readText_eq_ok.mp h
          exact ⟨text, rows, ⟨fetch_eq_ok.mp hfetch, not_not.mp hsize, not_not.mp hhash, hrows,
            hlength⟩, rfl⟩
  · rintro ⟨text, rows, hholds, rfl⟩
    rw [fetch_eq_ok.mpr hholds.stored]
    dsimp only
    have hmatch : ¬ (text.toByteArray.size ≠ seg.bytes ∨
        sha256Hex sha256 text.toByteArray ≠ seg.sha256) :=
      not_or.mpr ⟨not_not.mpr hholds.size_eq, not_not.mpr hholds.hash_eq⟩
    rw [if_neg hmatch, fromUTF8?_eq_some.mpr rfl]
    exact readText_eq_ok.mpr ⟨rows, hholds.parses, hholds.rows_eq, rfl⟩

variable (sha256 keepRows) in
/-- The state after all segments, with what was found for each of them. -/
def ReadState.addTexts (st : ReadState Row) (found : List (String × List Row)) : ReadState Row :=
  found.foldl (fun st p => st.addText sha256 keepRows p.1 p.2) st

/-- **The segments are read when the store holds all of them.** -/
theorem readSegments_eq_ok {store : Store} {segments : List SegmentEntry}
    {st st' : ReadState Row} :
    segments.foldlM (readSegment sha256 codec keepRows store) st = .ok st' ↔
      ∃ found, List.Forall₂ (fun seg p => Holds sha256 codec store seg p.1 p.2) segments found ∧
        st' = st.addTexts sha256 keepRows found := by
  induction segments generalizing st with
  | nil =>
    rw [List.foldlM_nil]
    constructor
    · intro h
      cases h
      exact ⟨[], .nil, rfl⟩
    · rintro ⟨found, hfound, rfl⟩
      cases hfound
      rfl
  | cons seg segments ih =>
    rw [List.foldlM_cons]
    constructor
    · intro h
      cases hseg : readSegment sha256 codec keepRows store st seg with
      | error e =>
        rw [hseg] at h
        cases h
      | ok next =>
        rw [hseg] at h
        obtain ⟨text, rows, hholds, rfl⟩ := readSegment_eq_ok.mp hseg
        obtain ⟨found, hfound, rfl⟩ := ih.mp h
        exact ⟨(text, rows) :: found, .cons hholds hfound, rfl⟩
    · rintro ⟨found, hfound, rfl⟩
      cases hfound with
      | @cons _ p _ rest hholds hrest =>
        rw [readSegment_eq_ok.mpr ⟨p.1, p.2, hholds, rfl⟩]
        exact ih.mpr ⟨rest, hrest, rfl⟩

/-- The bytes, the lines and the rows of all segments. -/
theorem addTexts_eq (st : ReadState Row) (found : List (String × List Row)) :
    (st.addTexts sha256 true found).total =
        st.total ++ (found.foldr (fun p text => p.1 ++ text) "").toByteArray ∧
      (st.addTexts sha256 true found).digest =
        (found.flatMap fun p => textLines p.1).foldl (RowDigest.push sha256) st.digest ∧
      (st.addTexts sha256 true found).rows = st.rows ++ found.flatMap Prod.snd := by
  induction found generalizing st with
  | nil => exact ⟨ByteArray.append_empty.symm, rfl, (List.append_nil _).symm⟩
  | cons p found ih =>
    obtain ⟨htotal, hdigest, hrows⟩ := ih (st.addText sha256 true p.1 p.2)
    refine ⟨htotal.trans ?_, hdigest.trans ?_, hrows.trans ?_⟩
    · rw [List.foldr_cons, String.toByteArray_append, ← ByteArray.append_assoc]
      rfl
    · rw [List.flatMap_cons, List.foldl_append]
      rfl
    · rw [List.flatMap_cons, ← List.append_assoc]
      rfl

theorem checkManifest_eq_ok {key : String} {m : PartitionManifest T} :
    checkManifest chrono key m = .ok () ↔
      m.format = formatVersion ∧ m.key chrono = key ∧
        ∀ seg ∈ m.segments, (m.root chrono ++ "/").toList <+: seg.key.toList := by
  have hany : (m.segments.any fun seg =>
      !((m.root chrono ++ "/").toList.isPrefixOf seg.key.toList)) = false ↔
      ∀ seg ∈ m.segments, (m.root chrono ++ "/").toList <+: seg.key.toList := by
    rw [List.any_eq_false]
    exact forall₂_congr fun seg _ => by rw [Bool.not_eq_true, Bool.not_eq_false',
      List.isPrefixOf_iff_prefix]
  unfold checkManifest
  split
  · next hformat => exact iff_of_false (fun h => by cases h) fun h => hformat h.1
  · next hformat =>
    rw [not_not] at hformat
    split
    · next hother =>
      refine iff_of_false (fun h => by cases h) fun h => ?_
      rcases hother with hkey | hseg
      · exact hkey h.2.1
      · rw [hany.mpr h.2.2] at hseg
        cases hseg
    · next hother =>
      obtain ⟨hkey, hseg⟩ := not_or.mp hother
      exact iff_of_true rfl ⟨hformat, not_not.mp hkey, hany.mp (Bool.not_eq_true _ ▸ hseg)⟩

theorem checkTotals_eq_ok {key : String} {m : PartitionManifest T} {st : ReadState Row}
    {out : ArchivedPartition T Row} : checkTotals sha256 key m st = .ok out ↔
      st.digest.rows = m.rowCount ∧ sha256Hex sha256 st.total = m.sha256 ∧
        toString st.digest.checksum = m.rowChecksum ∧ out = ⟨m, st.rows⟩ := by
  unfold checkTotals
  split
  · next hother =>
    refine iff_of_false (fun h => by cases h) ?_
    rintro ⟨hrows, hhash, hsum, -⟩
    rcases hother with hne | hne | hne
    · exact hne hrows
    · exact hne hhash
    · exact hne hsum
  · next hsame =>
    obtain ⟨hrows, hrest⟩ := not_or.mp hsame
    obtain ⟨hhash, hsum⟩ := not_or.mp hrest
    constructor
    · intro h
      cases h
      exact ⟨not_not.mp hrows, not_not.mp hhash, not_not.mp hsum, rfl⟩
    · rintro ⟨-, -, -, rfl⟩
      rfl

variable (sha256 chrono codec) in
/-- What a clean read found: the manifest, and for each segment its text and its rows. -/
structure Found (store : Store) (key : String) (m : PartitionManifest T)
    (found : List (String × List Row)) : Prop where
  stored : ∃ raw, store key = .ok (some raw) ∧ codec.fromSlice raw = .ok m
  checked : checkManifest chrono key m = .ok ()
  holds : List.Forall₂ (fun seg p => Holds sha256 codec store seg p.1 p.2) m.segments found
  rowCount_eq : (found.flatMap fun p => textLines p.1).length = m.rowCount
  sha256_eq : sha256Hex sha256 (found.foldr (fun p text => p.1 ++ text) "").toByteArray = m.sha256
  checksum_eq : toString ((found.flatMap fun p => textLines p.1).foldl (RowDigest.push sha256)
    .empty).checksum = m.rowChecksum

/-- **A clean read** returns the rows of all segments. -/
theorem readBack_eq_ok {store : Store} {key : String} {out : ArchivedPartition T Row} :
    readBack sha256 chrono codec store key = .ok out ↔
      ∃ m found, Found sha256 chrono codec store key m found ∧
        out = ⟨m, found.flatMap Prod.snd⟩ := by
  -- the totals of what was found
  have htotals : ∀ (m : PartitionManifest T) (found : List (String × List Row)),
      checkTotals sha256 key m ((ReadState.mk .empty .empty []).addTexts sha256 true found) =
          .ok out ↔
        (found.flatMap fun p => textLines p.1).length = m.rowCount ∧
          sha256Hex sha256 (found.foldr (fun p text => p.1 ++ text) "").toByteArray = m.sha256 ∧
          toString ((found.flatMap fun p => textLines p.1).foldl (RowDigest.push sha256)
            .empty).checksum = m.rowChecksum ∧ out = ⟨m, found.flatMap Prod.snd⟩ := by
    intro m found
    obtain ⟨htotal, hdigest, hrows⟩ :=
      @addTexts_eq Row sha256 (ReadState.mk .empty .empty []) found
    rw [checkTotals_eq_ok, htotal, hdigest, hrows, foldl_push_rows, ByteArray.empty_append]
    simp only [RowDigest.empty, Nat.zero_add, List.nil_append]
  unfold readBack readBackInner
  constructor
  · intro h
    split at h
    · cases h
    · next raw hraw =>
      split at h
      · cases h
      · next m hm =>
        split at h
        · cases h
        · next hchecked =>
          split at h
          · cases h
          · next st hst =>
            obtain ⟨found, hfound, rfl⟩ := readSegments_eq_ok.mp hst
            obtain ⟨hcount, hhash, hsum, rfl⟩ := (htotals m found).mp h
            exact ⟨m, found, ⟨⟨raw, fetch_eq_ok.mp hraw, hm⟩, hchecked, hfound, hcount, hhash, hsum⟩,
              rfl⟩
  · rintro ⟨m, found, ⟨⟨raw, hraw, hm⟩, hchecked, hfound, hcount, hhash, hsum⟩, rfl⟩
    rw [fetch_eq_ok.mpr hraw]
    dsimp only
    rw [hm]
    dsimp only
    rw [hchecked]
    dsimp only
    rw [readSegments_eq_ok.mpr ⟨found, hfound, rfl⟩]
    exact (htotals m found).mpr ⟨hcount, hhash, hsum, rfl⟩

end Found

/-! ## Rows of lines -/

section Rows

variable {T Row : Type} (codec : ArchiveCodec T Row)

/-- The rows of the lines that are rows. -/
def rowsOf (lines : List String) : List Row :=
  lines.filterMap fun line => (codec.fromStr line).toOption

variable {codec}

theorem Parses.rowsOf_eq {lines : List String} {rows : List Row} (h : Parses codec lines rows) :
    rowsOf codec lines = rows := by
  induction h with
  | nil => rfl
  | cons hfirst _ ih =>
    rw [rowsOf, List.filterMap_cons, hfirst]
    exact congrArg _ ih

theorem Parses.exists_row {lines : List String} {rows : List Row} (h : Parses codec lines rows)
    {line : String} (hline : line ∈ lines) : ∃ row, codec.fromStr line = .ok row := by
  induction h with
  | nil => exact absurd hline List.not_mem_nil
  | @cons _ row _ _ hfirst _ ih =>
    rcases List.mem_cons.mp hline with rfl | hline
    · exact ⟨row, hfirst⟩
    · exact ih hline

theorem parses_rowsOf {lines : List String}
    (h : ∀ line ∈ lines, ∃ row, codec.fromStr line = .ok row) :
    Parses codec lines (rowsOf codec lines) := by
  induction lines with
  | nil => exact .nil
  | cons line lines ih =>
    obtain ⟨⟨row, hrow⟩, hrest⟩ := List.forall_mem_cons.mp h
    rw [rowsOf, List.filterMap_cons, hrow]
    exact .cons hrow (ih hrest)

theorem flatMap_rowsOf (groups : List (List String)) :
    groups.flatMap (rowsOf codec) = rowsOf codec groups.flatten := by
  induction groups with
  | nil => rfl
  | cons group groups ih =>
    rw [List.flatMap_cons, ih, List.flatten_cons, rowsOf, rowsOf, rowsOf, List.filterMap_append]

/-! ## An export reads back -/

theorem textLines_linesText {lines : List String} (h : ∀ line ∈ lines, lineFeed ∉ line.toList) :
    textLines (linesText lines) = lines := by
  rw [textLines, toList_linesText, splitTerminator_joinTerminated]
  · rw [List.map_map]
    exact (List.map_congr_left fun line _ => String.ofList_toList).trans (List.map_id lines)
  · intro row hrow
    obtain ⟨line, hline, rfl⟩ := List.mem_map.mp hrow
    exact h line hline

theorem foldr_linesText (groups : List (List String)) :
    groups.foldr (fun group text => linesText group ++ text) "" = linesText groups.flatten := by
  induction groups with
  | nil => rfl
  | cons group groups ih => rw [List.foldr_cons, ih, List.flatten_cons, linesText_append]

variable {sha256 : ByteArray → Vector UInt8 32} {chrono : Chrono T}

theorem root_prefix_segmentKey (root hash : String) (n : ℕ) :
    (root ++ "/").toList <+: (segmentKey root n hash).toList := by
  have hslash : "/segment-".toList = "/".toList ++ "segment-".toList := rfl
  rw [segmentKey]
  simp only [String.toList_append, List.append_assoc, hslash]
  rw [← List.append_assoc]
  exact List.prefix_append _ _

/-- **An export reads back.** -/
theorem readBack_exportPartition {maxRows maxBytes : ℕ} {lines : List String}
    {groups : List (List String)} {store : Store} {m : PartitionManifest T} {rows : List Row}
    (h : Exported sha256 chrono codec.toVec maxRows maxBytes lines groups store m)
    (hround : codec.fromSlice (codec.toVec m) = .ok m) (hrows : Parses codec lines rows)
    (hfeeds : ∀ line ∈ lines, lineFeed ∉ line.toList) :
    readBack sha256 chrono codec store (m.key chrono) = .ok ⟨m, rows⟩ := by
  have hgroup : ∀ group ∈ groups, ∀ line ∈ group, line ∈ lines := by
    intro group hgroup line hline
    rw [← h.flatten_eq]
    exact List.mem_flatten.mpr ⟨group, hgroup, hline⟩
  have htext : ∀ group ∈ groups, textLines (linesText group) = group :=
    fun group hmem => textLines_linesText fun line hline => hfeeds line (hgroup group hmem line hline)
  have hlines : (groups.map fun group => (linesText group, rowsOf codec group)).flatMap
      (fun p => textLines p.1) = lines := by
    rw [List.flatMap_map, ← h.flatten_eq, List.flatten_eq_flatMap]
    exact List.flatMap_congr htext
  refine readBack_eq_ok.mpr
    ⟨m, groups.map fun group => (linesText group, rowsOf codec group), ?_, ?_⟩
  · refine ⟨⟨_, h.manifest_stored, hround⟩, ?_, ?_, ?_, ?_, ?_⟩
    · refine checkManifest_eq_ok.mpr ⟨h.format_eq, rfl, ?_⟩
      intro seg hseg
      rw [h.segments_eq] at hseg
      obtain ⟨i, hi, rfl⟩ := List.mem_mapIdx.mp hseg
      exact root_prefix_segmentKey _ _ _
    · rw [h.segments_eq]
      refine List.forall₂_iff_get.mpr ⟨by simp, fun i hi hi' => ?_⟩
      have hlt : i < groups.length := by simpa using hi'
      have hget : groups[i]? = some groups[i] := List.getElem?_eq_getElem hlt
      have hmem : groups[i] ∈ groups := List.getElem_mem hlt
      simp only [List.get_eq_getElem, List.getElem_mapIdx, List.getElem_map]
      have hlinesOf := htext groups[i] hmem
      refine ⟨h.stored i groups[i] hget, rfl, rfl, ?_, congrArg List.length hlinesOf⟩
      rw [hlinesOf]
      exact parses_rowsOf fun line hline => hrows.exists_row (hgroup _ hmem line hline)
    · rw [hlines, h.rowCount_eq]
    · rw [List.foldr_map, foldr_linesText, h.flatten_eq, h.sha256_eq]
      rfl
    · rw [hlines, h.checksum_eq]
  · rw [List.flatMap_map]
    have hall := @flatMap_rowsOf T Row codec groups
    rw [h.flatten_eq, hrows.rowsOf_eq] at hall
    rw [← hall]

/-! ## Other contents of the store -/

variable (codec) in
/-- The bytes of all segments that the manifest under the key names. -/
def archiveBytes (store : Store) (key : String) : Option ByteArray := do
  let raw ← (fetch store key).toOption
  let m ← (codec.fromSlice raw).toOption
  m.segments.foldlM (fun total seg => (fetch store seg.key).toOption.map (total ++ ·)) .empty

theorem foldlM_fetch {store : Store} {segments : List SegmentEntry}
    {found : List (String × List Row)}
    (h : List.Forall₂ (fun seg p => Holds sha256 codec store seg p.1 p.2) segments found)
    (total : ByteArray) :
    segments.foldlM (fun total seg => (fetch store seg.key).toOption.map (total ++ ·)) total =
      some (total ++ (found.foldr (fun p text => p.1 ++ text) "").toByteArray) := by
  induction h generalizing total with
  | nil => exact congrArg some ByteArray.append_empty.symm
  | @cons seg p segments found hholds _ ih =>
    rw [List.foldlM_cons, fetch_eq_ok.mpr hholds.stored]
    refine (ih (total ++ p.1.toByteArray)).trans ?_
    rw [List.foldr_cons, String.toByteArray_append, ByteArray.append_assoc]

theorem parses_of_holds {store : Store} {segments : List SegmentEntry}
    {found : List (String × List Row)}
    (h : List.Forall₂ (fun seg p => Holds sha256 codec store seg p.1 p.2) segments found) :
    ∀ p ∈ found, Parses codec (textLines p.1) p.2 := by
  induction h with
  | nil => exact fun p hp => absurd hp List.not_mem_nil
  | cons hholds _ ih => exact List.forall_mem_cons.mpr ⟨hholds.parses, ih⟩

theorem Found.archiveBytes_eq {store : Store} {key : String} {m : PartitionManifest T}
    {found : List (String × List Row)} (h : Found sha256 chrono codec store key m found) :
    archiveBytes codec store key =
      some (found.foldr (fun p text => p.1 ++ text) "").toByteArray := by
  obtain ⟨raw, hraw, hm⟩ := h.stored
  unfold archiveBytes
  rw [fetch_eq_ok.mpr hraw]
  refine (congrArg (fun r => Option.bind (Except.toOption r) _) hm).trans ?_
  refine (foldlM_fetch h.holds .empty).trans ?_
  rw [ByteArray.empty_append]

/-- **Wherever the segments are cut**, when they have the bytes of the rows, their lines are the
rows. -/
theorem lines_eq_of_linesText_eq {lines : List String} {texts : List String}
    (hrows : ∀ line ∈ lines, ∃ row, codec.fromStr line = .ok row)
    (hfeeds : ∀ line ∈ lines, lineFeed ∉ line.toList)
    (hlines : ∀ text ∈ texts, ∀ line ∈ textLines text, ∃ row, codec.fromStr line = .ok row)
    (h : texts.foldr (· ++ ·) "" = linesText lines) : texts.flatMap textLines = lines := by
  have hflat : (texts.map String.toList).flatten =
      joinTerminated lineFeed (lines.map String.toList) := by
    rw [← toList_linesText, ← h]
    clear h hlines
    induction texts with
    | nil => rfl
    | cons text texts ih =>
      rw [List.map_cons, List.flatten_cons, ih, List.foldr_cons, String.toList_append]
  have hends : ∀ a b, JsonText.IsObject a → JsonText.IsObject (a ++ b) →
      ∀ c ∈ b, c ∈ JsonText.blanks := fun a b ha hab => ha.blank_of_append hab
  have hsolid : ∀ a, JsonText.IsObject a → ∃ c ∈ a, ¬ c ∈ JsonText.blanks := by
    intro a ha
    by_contra hnone
    push Not at hnone
    exact ha.not_blank hnone
  have hdocs : ∀ row ∈ lines.map String.toList, JsonText.IsObject row ∧ lineFeed ∉ row := by
    intro row hrow
    obtain ⟨line, hline, rfl⟩ := List.mem_map.mp hrow
    obtain ⟨row, hparse⟩ := hrows line hline
    exact ⟨codec.fromStr_object line row hparse, hfeeds line hline⟩
  have hchunks : ∀ chunk ∈ texts.map String.toList,
      ∀ line ∈ splitTerminator lineFeed chunk, JsonText.IsObject line := by
    intro chunk hchunk line hline
    obtain ⟨text, htext, rfl⟩ := List.mem_map.mp hchunk
    obtain ⟨row, hparse⟩ := hlines text htext (String.ofList line) (List.mem_map_of_mem hline)
    rw [← String.toList_ofList (l := line)]
    exact codec.fromStr_object _ row hparse
  have hall := flatMap_splitTerminator hends hsolid hdocs hchunks hflat
  calc texts.flatMap textLines
      = ((texts.map String.toList).flatMap (splitTerminator lineFeed)).map String.ofList := by
        rw [List.flatMap_map, List.map_flatMap]
        rfl
    _ = lines := by
        rw [hall, List.map_map]
        exact (List.map_congr_left fun line _ => String.ofList_toList).trans (List.map_id lines)

/-- SHA-256, cut to its first 16 hex digits, tells the inputs apart. Then so does all of it. -/
def CollisionFree (sha256 : ByteArray → Vector UInt8 32) (inputs : Set ByteArray) : Prop :=
  ∀ a ∈ inputs, ∀ b ∈ inputs,
    shortHash (sha256Hex sha256 a) = shortHash (sha256Hex sha256 b) → a = b

/-- **Another content under the key** reads back the same rows, or not at all. -/
theorem rows_eq_of_readBack {lines : List String} {rows : List Row}
    {m : PartitionManifest T} (hsha : m.sha256 = sha256Hex sha256 (linesBytes lines))
    (hrows : Parses codec lines rows) (hfeeds : ∀ line ∈ lines, lineFeed ∉ line.toList)
    {other : Store} {out : ArchivedPartition T Row}
    (hfree : CollisionFree sha256
      ({linesBytes lines} ∪ {bytes | archiveBytes codec other (m.key chrono) = some bytes}))
    (h : readBack sha256 chrono codec other (m.key chrono) = .ok out) : out.rows = rows := by
  obtain ⟨m', found, hfound, rfl⟩ := readBack_eq_ok.mp h
  obtain ⟨-, hkey, -⟩ := checkManifest_eq_ok.mp hfound.checked
  have hshort : shortHash (sha256Hex sha256 (found.foldr (fun p text => p.1 ++ text) "").toByteArray) =
      shortHash (sha256Hex sha256 (linesBytes lines)) := by
    rw [PartitionManifest.key, PartitionManifest.key, ← hfound.sha256_eq, hsha] at hkey
    exact shortHash_eq_of_manifestKey_eq sha256 hkey
  have hbytes := hfree _ (.inr hfound.archiveBytes_eq) _ (.inl rfl) hshort
  have htext : found.foldr (fun p text => p.1 ++ text) "" = linesText lines :=
    String.toByteArray_inj.mp hbytes
  -- every line of every segment is a row
  have hparses := parses_of_holds hfound.holds
  have hlines : (found.map Prod.fst).flatMap textLines = lines := by
    refine lines_eq_of_linesText_eq (fun line hline => hrows.exists_row hline) hfeeds ?_ ?_
    · intro text htext line hline
      obtain ⟨p, hp, rfl⟩ := List.mem_map.mp htext
      exact (hparses p hp).exists_row hline
    · rw [List.foldr_map]
      exact htext
  show found.flatMap Prod.snd = rows
  calc found.flatMap Prod.snd
      = (found.map fun p => textLines p.1).flatMap (rowsOf codec) := by
        rw [List.flatMap_map]
        exact List.flatMap_congr fun p hp => ((hparses p hp).rowsOf_eq).symm
    _ = rowsOf codec lines := by
        rw [flatMap_rowsOf, ← hlines, List.flatMap_map, List.flatten_eq_flatMap, List.flatMap_map]
        rfl
    _ = rows := hrows.rowsOf_eq

/-- **A partition archive reads back exactly what was exported.** The rows are texts without a line
feed that `serde_json` reads as rows. Under the key of the manifest the export reads back as these
rows; every segment is within both limits, or is one row; and any other content of the store, on
which SHA-256 does not collide, reads back as the same rows or not at all. -/
theorem a_partition_archive_reads_back (sha256 : ByteArray → Vector UInt8 32) (chrono : Chrono T)
    (codec : ArchiveCodec T Row) (info : ExportInfo T) (maxRows maxBytes : ℕ) (store : Store)
    (lines : List String) (rows : List Row) (hrows : Parses codec lines rows)
    (hfeeds : ∀ line ∈ lines, lineFeed ∉ line.toList)
    (hround : let m := (exportPartition sha256 chrono codec.toVec info maxRows maxBytes store lines).2
      codec.fromSlice (codec.toVec m) = .ok m) :
    let exported := exportPartition sha256 chrono codec.toVec info maxRows maxBytes store lines
    let key := exported.2.key chrono
    readBack sha256 chrono codec exported.1 key = .ok ⟨exported.2, rows⟩ ∧
      (∀ seg ∈ exported.2.segments, ∃ group : List String,
        exported.1 seg.key = .ok (some (linesBytes group)) ∧
        seg.rows = group.length ∧ seg.bytes = (linesBytes group).size ∧
        seg.rows ≤ max maxRows 1 ∧ (seg.bytes ≤ max maxBytes 1 ∨ seg.rows = 1)) ∧
      ∀ other out, CollisionFree sha256
          ({linesBytes lines} ∪ {bytes | archiveBytes codec other key = some bytes}) →
        readBack sha256 chrono codec other key = .ok out → out.rows = rows := by
  obtain ⟨groups, hexported⟩ :=
    exportPartition_spec sha256 chrono codec.toVec info maxRows maxBytes store lines
  refine ⟨readBack_exportPartition hexported hround hrows hfeeds, ?_, ?_⟩
  · intro seg hseg
    rw [hexported.segments_eq] at hseg
    obtain ⟨i, hi, rfl⟩ := List.mem_mapIdx.mp hseg
    have hlt : i < groups.length := by simpa using hi
    rw [List.getElem_map]
    have hfits := hexported.fits groups[i] (List.getElem_mem hlt)
    exact ⟨groups[i], hexported.stored i groups[i] (List.getElem?_eq_getElem hlt), rfl, rfl,
      hfits.rows_le, hfits.bytes_le⟩
  · intro other out hfree hread
    exact rows_eq_of_readBack hexported.sha256_eq hrows hfeeds hfree hread

end Rows

/-! ## One row -/

/-- A text between quotes. -/
def quotedText (text : String) : List Char :=
  JsonText.quote :: (text.toList ++ [JsonText.quote])

def memberText (m : String × List Char) : List Char := quotedText m.1 ++ ':' :: m.2

def objectText (first : String × List Char) (rest : List (String × List Char)) : List Char :=
  JsonText.leftBrace ::
    (memberText first ++ rest.flatMap (fun m => ',' :: memberText m) ++ [JsonText.rightBrace])

/-- Characters that stand in a string as they are. -/
def Plain (text : String) : Prop :=
  ∀ c ∈ text.toList, 0x1f < c.toNat ∧ c ≠ JsonText.quote ∧ c ≠ JsonText.backslash

theorem isString_quotedText {text : String} (h : Plain text) :
    JsonText.IsString (quotedText text) := by
  refine ⟨text.toList, ?_, rfl⟩
  unfold Plain at h
  generalize text.toList = chars at h ⊢
  induction chars with
  | nil => exact .nil
  | cons c rest ih =>
    obtain ⟨⟨hcontrol, hquote, hback⟩, hrest⟩ := List.forall_mem_cons.mp h
    exact .plain hcontrol hquote hback (ih hrest)

theorem isObject_objectText {first : String × List Char} {rest : List (String × List Char)}
    (h : ∀ m ∈ first :: rest, Plain m.1 ∧ JsonText.Grammar .value m.2) :
    JsonText.IsObject (objectText first rest) := by
  have hnone : JsonText.Blank [] := fun _ hc => absurd hc List.not_mem_nil
  have hmember : ∀ m ∈ first :: rest, JsonText.Grammar .member (memberText m) := by
    intro m hm
    obtain ⟨hkey, hvalue⟩ := h m hm
    have hpadded : JsonText.Grammar .padded m.2 := by
      have hwhole := JsonText.Grammar.padded hnone hvalue hnone
      rwa [List.nil_append, List.append_nil] at hwhole
    exact .member hnone (isString_quotedText hkey) hnone hpadded
  have hmembers : JsonText.Grammar .members
      (memberText first ++ rest.flatMap fun m => ',' :: memberText m) := by
    clear h
    induction rest generalizing first with
    | nil =>
      rw [List.flatMap_nil, List.append_nil]
      exact .lastMember (hmember first List.mem_cons_self)
    | cons next rest ih =>
      rw [List.flatMap_cons, List.cons_append]
      exact .members (hmember first List.mem_cons_self)
        (ih fun m hm => hmember m (List.mem_cons_of_mem first hm))
  exact ⟨[], objectText first rest, [], hnone, .object hmembers, rfl, hnone, by simp⟩

/-- A row of the table, as JSON text. -/
def oneRow : String := String.ofList (objectText ("id", ['1'])
  [("workflow_exec_id", quotedText "00000000-0000-0000-0000-000000000001"), ("event_id", ['0']),
    ("event_type", quotedText "A"), ("event_data", ['n', 'u', 'l', 'l']),
    ("timestamp", quotedText "2026-01-01T00:00:00Z")])

theorem isObject_oneRow : JsonText.IsObject oneRow.toList := by
  have hnumber : ∀ d ∈ JsonText.digits, JsonText.Grammar .value [d] := by
    intro d hd
    have hdigits : JsonText.IsDigits [d] :=
      ⟨List.cons_ne_nil _ _, fun c hc => List.mem_singleton.mp hc ▸ hd⟩
    refine .number ⟨[], [d], [], [], rfl, .inl rfl, hdigits, ?_, .inl rfl, .inl rfl⟩
    intro hzero
    rw [Option.some.inj hzero]
  have htext : ∀ text : String, Plain text → JsonText.Grammar .value (quotedText text) :=
    fun text h => .string (isString_quotedText h)
  rw [oneRow, String.toList_ofList]
  refine isObject_objectText ?_
  simp only [List.forall_mem_cons]
  refine ⟨⟨?_, hnumber '1' (by decide)⟩, ⟨?_, htext _ ?_⟩, ⟨?_, hnumber '0' (by decide)⟩,
    ⟨?_, htext _ ?_⟩, ⟨?_, .literal (by decide)⟩, ⟨?_, htext _ ?_⟩,
    fun _ hm => absurd hm List.not_mem_nil⟩
  all_goals exact JsonText.forall_mem_of_all (by decide +kernel)

/-- SHA-256 of the row, with its line feed and without. -/
def oneSha256 (bytes : ByteArray) : Vector UInt8 32 :=
  if bytes = lineBytes oneRow then
    #v[153, 95, 9, 159, 179, 188, 180, 192, 0, 83, 121, 190, 168, 169, 202, 164,
      169, 162, 195, 69, 137, 55, 118, 115, 62, 29, 208, 170, 52, 57, 9, 111]
  else if bytes = oneRow.toByteArray then
    #v[217, 242, 64, 250, 151, 161, 22, 40, 255, 193, 93, 121, 108, 214, 118, 67,
      232, 49, 63, 213, 6, 255, 37, 165, 208, 94, 207, 195, 170, 163, 213, 185]
  else Vector.replicate 32 0

/-- Instants as their compact texts. -/
def oneChrono : Chrono String := ⟨fun _ => 0, fun ts _ => ts⟩

def oneInfo : ExportInfo String where
  shardId := 0
  partition := "harvest_events_p_20260101"
  lower := some "20260101T000000Z"
  upper := "20260102T000000Z"
  exportedAt := "20260103T000000Z"

def noStore : Store := fun _ => .ok none

/-- The manifest does not depend on how it is written. -/
theorem exportPartition_manifest {T : Type} (sha256 : ByteArray → Vector UInt8 32)
    (chrono : Chrono T) (toVec toVec' : PartitionManifest T → ByteArray) (info : ExportInfo T)
    (maxRows maxBytes : ℕ) (store : Store) (lines : List String) :
    (exportPartition sha256 chrono toVec info maxRows maxBytes store lines).2 =
      (exportPartition sha256 chrono toVec' info maxRows maxBytes store lines).2 := rfl

def oneManifest : PartitionManifest String :=
  (exportPartition oneSha256 oneChrono (fun _ => .empty) oneInfo 10000 8388608 noStore [oneRow]).2

def oneManifestJson : ByteArray :=
  ("\x7b\"format\":1,\"shard_id\":0,\"partition\":\"harvest_events_p_20260101\",\"lower\":\"20" ++
    "26-01-01T00:00:00Z\",\"upper\":\"2026-01-02T00:00:00Z\",\"exported_at\":\"2026-01-03" ++
    "T00:00:00Z\",\"row_count\":1,\"sha256\":\"995f099fb3bcb4c0005379bea8a9caa4a9a2c345" ++
    "893776733e1dd0aa3439096f\",\"row_checksum\":\"-2742057778085292504\",\"segments\":[" ++
    "\x7b\"key\":\"harvest-partitions/shard-0/harvest_events_p_20260101/20260101T000000" ++
    "Z_20260102T000000Z/segment-000001-995f099fb3bcb4c0.jsonl\",\"rows\":1,\"bytes\":1" ++
    "50,\"sha256\":\"995f099fb3bcb4c0005379bea8a9caa4a9a2c345893776733e1dd0aa3439096" ++
    "f\"\x7d]\x7d").toByteArray

/-- The reader and writer of the one row and of its manifest. A row is read as its id. -/
def oneCodec : ArchiveCodec String ℤ where
  fromSlice raw := if raw = oneManifestJson then .ok oneManifest else .error "expected value"
  toVec _ := oneManifestJson
  fromStr line := if line = oneRow then .ok 1 else .error "expected value"
  utf8Error _ := "invalid utf-8"
  fromStr_object := by
    intro line row h
    split at h
    · next hline =>
      subst hline
      exact isObject_oneRow
    · cases h

/-- An export of the one row. -/
theorem one_row_reads_back :
    let exported :=
      exportPartition oneSha256 oneChrono oneCodec.toVec oneInfo 10000 8388608 noStore [oneRow]
    readBack oneSha256 oneChrono oneCodec exported.1 (exported.2.key oneChrono) =
      .ok ⟨exported.2, [1]⟩ := by
  have hrow : oneCodec.fromStr oneRow = .ok 1 := by simp only [oneCodec, if_true]
  have hrows : Parses oneCodec [oneRow] [1] := .cons hrow .nil
  have hfeeds : ∀ line ∈ [oneRow], lineFeed ∉ line.toList := by
    intro line hline
    obtain rfl := List.mem_singleton.mp hline
    rw [oneRow, String.toList_ofList]
    decide +kernel
  have hround : oneCodec.fromSlice (oneCodec.toVec (exportPartition oneSha256 oneChrono
      oneCodec.toVec oneInfo 10000 8388608 noStore [oneRow]).2) =
      .ok (exportPartition oneSha256 oneChrono
        oneCodec.toVec oneInfo 10000 8388608 noStore [oneRow]).2 := by
    rw [exportPartition_manifest oneSha256 oneChrono oneCodec.toVec fun _ => .empty]
    simp only [oneCodec, if_true, oneManifest]
  exact (a_partition_archive_reads_back oneSha256 oneChrono oneCodec oneInfo 10000 8388608 noStore
    [oneRow] [1] hrows hfeeds hround).1

end Harvest.Archive
