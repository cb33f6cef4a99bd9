import Harvest.Event
import Harvest.Reset.Boundary
import Harvest.Wasm.Accepted
import Mathlib.Data.Nat.Log

/-!
# The size of an export

Model of `measure_export_bytes` in `history_export.rs`. An export document states its own size in
one of its fields, so its size depends on the number of digits of that field. The size is solved
for with one serialization; everything else is arithmetic on the number of digits.

How `serde_json` writes an event value, and how `chrono` writes an instant, are parameters. No field
of a document can fail to serialize.

Proved here:
* `utf8ByteSize_toVec`: the text of a document takes a fixed number of bytes and the digits of the
  field.
* `guess_settles`: three guesses reach a size that is its own guess, from every `usize`.
* `settle_stops`: the loop then ends there.
* `export_size_is_the_real_size`: the field states the size of the text that holds it.
-/

namespace Harvest.Export

open Harvest.Wasm (writeString commaSeparated)
open Harvest.Reset (uuidText)

/-! ## Documents -/

inductive HistoryPayloadPolicy
  | full
  | redacted
deriving DecidableEq, Repr

def HistoryPayloadPolicy.asWire : HistoryPayloadPolicy → String
  | full => "full"
  | redacted => "redacted"

structure HistoryExportStatus where
  state : String
  terminal : Bool

structure HistoryExportSizeLimit where
  maxBytes : ℕ
  actualBytes : ℕ
  truncated : Bool
  truncationBehavior : String

inductive StartSource
  | api | schedule | backfill | signalWithStart | updateWithStart | completionTrigger | webhook
  | broker | child | batch | continueAsNew | reset | rerun | outbox | transactional | fork | unknown
deriving DecidableEq, Repr

def StartSource.asStr : StartSource → String
  | api => "api"
  | schedule => "schedule"
  | backfill => "backfill"
  | signalWithStart => "signal_with_start"
  | updateWithStart => "update_with_start"
  | completionTrigger => "completion_trigger"
  | webhook => "webhook"
  | broker => "broker"
  | child => "child"
  | batch => "batch"
  | continueAsNew => "continue_as_new"
  | reset => "reset"
  | rerun => "rerun"
  | outbox => "outbox"
  | transactional => "transactional"
  | fork => "fork"
  | unknown => "unknown"

structure StartProvenance where
  source : StartSource
  continuedFrom : Option ExecutionId

structure HistoryExportDocument where
  schema : String
  version : UInt32
  workflowName : String
  workflowId : Option String
  queueName : Option String
  executionId : ExecutionId
  shardId : Int32
  exportedAt : DateTime
  eventCount : ℕ
  status : HistoryExportStatus
  payloadPolicy : HistoryPayloadPolicy
  sizeLimit : HistoryExportSizeLimit
  events : List Json
  /-- The headers in the order in which the map gives them. -/
  contextHeaders : Option (List (String × String))
  /-- In milliseconds. -/
  executionTimeout : Option Int
  deadlineAt : Option DateTime
  parentExecutionId : Option ExecutionId
  startProvenance : Option StartProvenance

/-- The document with another value in its size field. -/
def HistoryExportDocument.withActualBytes (document : HistoryExportDocument) (n : ℕ) :
    HistoryExportDocument :=
  { document with sizeLimit := { document.sizeLimit with actualBytes := n } }

/-! ## The text of a document -/

def member (key value : String) : String := "\"" ++ key ++ "\":" ++ value

/-- `skip_serializing_if = "Option::is_none"` -/
def optionalMember (key : String) (value : Option String) : List String :=
  value.toList.map (member key)

def objectText (members : List String) : String := "\x7b" ++ commaSeparated members ++ "\x7d"

def boolText (b : Bool) : String := if b then "true" else "false"

def idText (id : ExecutionId) : String := writeString (uuidText id.uuid)

def HistoryExportStatus.text (status : HistoryExportStatus) : String :=
  objectText [member "state" (writeString status.state), member "terminal" (boolText status.terminal)]

def HistoryExportSizeLimit.text (limit : HistoryExportSizeLimit) : String :=
  objectText [member "max_bytes" limit.maxBytes.repr, member "actual_bytes" limit.actualBytes.repr,
    member "truncated" (boolText limit.truncated),
    member "truncation_behavior" (writeString limit.truncationBehavior)]

def StartProvenance.text (provenance : StartProvenance) : String :=
  objectText (member "source" (writeString provenance.source.asStr) ::
    optionalMember "continued_from" (provenance.continuedFrom.map idText))

def headersText (headers : List (String × String)) : String :=
  objectText (headers.map fun (name, value) => writeString name ++ ":" ++ writeString value)

section Text

variable (jsonText : Json → String) (timeText : DateTime → String)

namespace HistoryExportDocument

/-- The members in front of the size field. -/
def membersBefore (document : HistoryExportDocument) : List String :=
  [member "schema" (writeString document.schema), member "version" document.version.toNat.repr,
    member "workflow_name" (writeString document.workflowName)] ++
  optionalMember "workflow_id" (document.workflowId.map writeString) ++
  optionalMember "queue_name" (document.queueName.map writeString) ++
  [member "execution_id" (idText document.executionId),
    member "shard_id" (toString document.shardId.toInt),
    member "exported_at" (writeString (timeText document.exportedAt)),
    member "event_count" document.eventCount.repr, member "status" document.status.text,
    member "payload_policy" (writeString document.payloadPolicy.asWire)]

/-- The members behind it. -/
def membersAfter (document : HistoryExportDocument) : List String :=
  member "events" ("[" ++ commaSeparated (document.events.map jsonText) ++ "]") ::
  (optionalMember "context_headers" (document.contextHeaders.map headersText) ++
  optionalMember "execution_timeout" (document.executionTimeout.map toString) ++
  optionalMember "deadline_at" (document.deadlineAt.map fun time => writeString (timeText time)) ++
  optionalMember "parent_execution_id" (document.parentExecutionId.map idText) ++
  optionalMember "start_provenance" (document.startProvenance.map StartProvenance.text))

/-- `serde_json::to_vec` of the document. -/
def toVec (document : HistoryExportDocument) : String :=
  objectText (document.membersBefore timeText ++
    member "size_limit" document.sizeLimit.text :: document.membersAfter jsonText timeText)

end HistoryExportDocument

/-! ## The measurement -/

/-- `1` for `0`, `n.ilog10() + 1` otherwise. -/
def decimalDigitWidth (n : ℕ) : ℕ := if n = 0 then 1 else Nat.log 10 n + 1

/-- The loop of `measure_export_bytes`. -/
def settle (constant : ℕ) : ℕ → HistoryExportDocument → ℕ → ℕ → HistoryExportDocument × ℕ
  | 0, document, previous, _ => (document, previous)
  | turns + 1, document, previous, actual =>
    if actual = previous then (document, actual)
    else
      settle constant turns (document.withActualBytes actual) actual
        (constant + decimalDigitWidth actual)

/-- The document with its size, and the size. -/
def measureExportBytes (document : HistoryExportDocument) : HistoryExportDocument × ℕ :=
  let previous := document.sizeLimit.actualBytes
  let actual := (document.toVec jsonText timeText).utf8ByteSize
  let constant := actual - decimalDigitWidth previous
  settle constant 4 document previous actual

end Text

/-! ## Digits -/

theorem decimalDigitWidth_eq (n : ℕ) : decimalDigitWidth n = Nat.log 10 n + 1 := by
  rw [decimalDigitWidth]
  split_ifs with h
  · rw [h, Nat.log_zero_right]
  · rfl

theorem decimalDigitWidth_mono {m n : ℕ} (h : m ≤ n) : decimalDigitWidth m ≤ decimalDigitWidth n := by
  rw [decimalDigitWidth_eq, decimalDigitWidth_eq]
  exact Nat.succ_le_succ (Nat.log_mono_right h)

/-- A number is written with as many bytes as it has digits. -/
theorem utf8ByteSize_repr (n : ℕ) : n.repr.utf8ByteSize = decimalDigitWidth n := by
  rw [Wasm.utf8ByteSize_repr_eq_length, decimalDigitWidth_eq]
  refine le_antisymm ?_ ?_
  · exact (Nat.length_toDigits_le_iff (by decide) (Nat.succ_pos _)).mpr
      (Nat.lt_pow_succ_log_self (by decide) n)
  · by_contra hlt
    rcases Nat.eq_zero_or_pos (Nat.log 10 n) with hzero | hpos
    · have hone := @Nat.length_toDigits_pos 10 n
      omega
    · have hsmall : n < 10 ^ Nat.log 10 n :=
        (Nat.length_toDigits_le_iff (by decide) hpos).mp (by omega)
      have hne : n ≠ 0 := by
        rintro rfl
        simp at hpos
      exact absurd (Nat.pow_log_le_self 10 hne) (Nat.not_le.mpr hsmall)

/-- A `usize` has at most twenty digits. -/
theorem decimalDigitWidth_le {n : ℕ} (h : n < 2 ^ 64) : decimalDigitWidth n ≤ 20 := by
  have hlog : Nat.log 10 n < 20 := Nat.log_lt_of_lt_pow' (by decide) (by omega)
  rw [decimalDigitWidth_eq]
  omega

theorem decimalDigitWidth_pos (n : ℕ) : 0 < decimalDigitWidth n := by
  rw [decimalDigitWidth_eq]
  exact Nat.succ_pos _

/-- Ten times a number has one more digit. -/
theorem decimalDigitWidth_le_of_le_mul {m n : ℕ} (hm : m ≠ 0) (h : n ≤ m * 10) :
    decimalDigitWidth n ≤ decimalDigitWidth m + 1 := by
  have hwidth : decimalDigitWidth (m * 10) = decimalDigitWidth m + 1 := by
    rw [decimalDigitWidth_eq, decimalDigitWidth_eq, Nat.log_mul_base (by decide) hm]
  rw [← hwidth]
  exact decimalDigitWidth_mono h

theorem decimalDigitWidth_le_self {n : ℕ} (h : n ≠ 0) : decimalDigitWidth n ≤ n := by
  have hlog : Nat.log 10 n < n := Nat.log_lt_self 10 h
  rw [decimalDigitWidth_eq]
  omega

/-! ## The text around the field -/

/-- All of a list but one entry takes a fixed number of bytes. -/
theorem utf8ByteSize_commaSeparated (before after : List String) :
    ∃ fixed, ∀ text, (commaSeparated (before ++ text :: after)).utf8ByteSize =
      fixed + text.utf8ByteSize := by
  have hcomma : ",".utf8ByteSize = 1 := by decide
  induction before with
  | nil =>
    cases after with
    | nil => exact ⟨0, fun text => (Nat.zero_add _).symm⟩
    | cons next rest =>
      refine ⟨1 + (commaSeparated (next :: rest)).utf8ByteSize, fun text => ?_⟩
      show (text ++ "," ++ commaSeparated (next :: rest)).utf8ByteSize = _
      rw [String.utf8ByteSize_append, String.utf8ByteSize_append, hcomma]
      omega
  | cons first before ih =>
    obtain ⟨fixed, hfixed⟩ := ih
    refine ⟨first.utf8ByteSize + 1 + fixed, fun text => ?_⟩
    have hstep : commaSeparated (first :: (before ++ text :: after)) =
        first ++ "," ++ commaSeparated (before ++ text :: after) := by
      cases before <;> rfl
    rw [List.cons_append, hstep, String.utf8ByteSize_append, String.utf8ByteSize_append, hcomma,
      hfixed text]
    omega

/-- All of an object but one value takes a fixed number of bytes, its braces among them. -/
theorem utf8ByteSize_objectText (before after : List String) (key : String) :
    ∃ fixed, 2 ≤ fixed ∧ ∀ value, (objectText (before ++ member key value :: after)).utf8ByteSize =
      fixed + value.utf8ByteSize := by
  have hopen : "\x7b".utf8ByteSize = 1 := by decide
  have hclose : "\x7d".utf8ByteSize = 1 := by decide
  obtain ⟨fixed, hfixed⟩ := utf8ByteSize_commaSeparated before after
  refine ⟨2 + fixed + ("\"" ++ key ++ "\":").utf8ByteSize, by omega, fun value => ?_⟩
  unfold objectText
  rw [String.utf8ByteSize_append, String.utf8ByteSize_append, hopen, hclose, hfixed, member,
    String.utf8ByteSize_append]
  omega

section Size

variable (jsonText : Json → String) (timeText : DateTime → String)
  (document : HistoryExportDocument)

/-- Only the digits of the field change when the field does. -/
theorem utf8ByteSize_toVec : ∃ fixed, 2 ≤ fixed ∧
    ∀ n, ((document.withActualBytes n).toVec jsonText timeText).utf8ByteSize =
      fixed + decimalDigitWidth n := by
  obtain ⟨outer, houter, htext⟩ := utf8ByteSize_objectText (document.membersBefore timeText)
    (document.membersAfter jsonText timeText) "size_limit"
  obtain ⟨inner, hinner, hlimit⟩ := utf8ByteSize_objectText
    [member "max_bytes" document.sizeLimit.maxBytes.repr]
    [member "truncated" (boolText document.sizeLimit.truncated),
      member "truncation_behavior" (writeString document.sizeLimit.truncationBehavior)]
    "actual_bytes"
  refine ⟨outer + inner, by omega, fun n => ?_⟩
  have hdocument : ((document.withActualBytes n).toVec jsonText timeText).utf8ByteSize =
      outer + (document.withActualBytes n).sizeLimit.text.utf8ByteSize := htext _
  have hfield : (document.withActualBytes n).sizeLimit.text.utf8ByteSize =
      inner + n.repr.utf8ByteSize := hlimit _
  rw [hdocument, hfield, utf8ByteSize_repr, Nat.add_assoc]

end Size

/-! ## The loop -/

/-- The size of a document whose field is `n`. -/
def guess (fixed n : ℕ) : ℕ := fixed + decimalDigitWidth n

/-- A guess near `fixed` has the digits of `fixed + 1`, or one more. -/
theorem decimalDigitWidth_guess {fixed n : ℕ} (hlow : fixed + 1 ≤ n) (hhigh : n ≤ (fixed + 1) * 10) :
    decimalDigitWidth n = decimalDigitWidth (fixed + 1) ∨
      decimalDigitWidth n = decimalDigitWidth (fixed + 1) + 1 := by
  have hmono := decimalDigitWidth_mono hlow
  have hstep := decimalDigitWidth_le_of_le_mul fixed.add_one_ne_zero hhigh
  omega

/-- From the second guess on there are two candidates, `low` and `low + 1`. A candidate that is not
its own guess leads to the other one, which then is. -/
theorem guess_settles {fixed n : ℕ} (hfixed : 2 ≤ fixed) (hn : n < 2 ^ 64) :
    guess fixed ((guess fixed)^[3] n) = (guess fixed)^[3] n := by
  have hfirst : fixed + 1 ≤ guess fixed n ∧ guess fixed n ≤ (fixed + 1) * 10 := by
    have hpos := decimalDigitWidth_pos n
    have hle := decimalDigitWidth_le hn
    unfold guess
    omega
  have hself := decimalDigitWidth_le_self fixed.add_one_ne_zero
  have hpos := decimalDigitWidth_pos (fixed + 1)
  have hwidth := decimalDigitWidth_guess hfirst.1 hfirst.2
  set low := fixed + decimalDigitWidth (fixed + 1) with hlow
  have hsecond : guess fixed (guess fixed n) = low ∨ guess fixed (guess fixed n) = low + 1 := by
    rw [guess]
    omega
  have hatLow : guess fixed low = low ∨ guess fixed low = low + 1 := by
    have hcases := @decimalDigitWidth_guess fixed low (by omega) (by omega)
    rw [guess]
    omega
  have hatNext : guess fixed (low + 1) = low ∨ guess fixed (low + 1) = low + 1 := by
    have hcases := @decimalDigitWidth_guess fixed (low + 1) (by omega) (by omega)
    rw [guess]
    omega
  have hmono : guess fixed low ≤ guess fixed (low + 1) :=
    Nat.add_le_add_left (decimalDigitWidth_mono (Nat.le_succ low)) fixed
  show guess fixed (guess fixed (guess fixed (guess fixed n))) =
    guess fixed (guess fixed (guess fixed n))
  rcases hsecond with hsecond | hsecond
  · rw [hsecond]
    rcases hatLow with hatLow | hatLow
    · rw [hatLow, hatLow]
    · rw [hatLow]
      omega
  · rw [hsecond]
    rcases hatNext with hatNext | hatNext
    · rw [hatNext]
      omega
    · rw [hatNext, hatNext]

/-- If the guesses have settled after so many turns, the loop ends at a guess that is its own, and
leaves it in the field. -/
theorem settle_stops {fixed : ℕ} : ∀ (turns : ℕ) (document : HistoryExportDocument)
    {outcome : HistoryExportDocument × ℕ},
    guess fixed ((guess fixed)^[turns] document.sizeLimit.actualBytes) =
      (guess fixed)^[turns] document.sizeLimit.actualBytes →
    settle fixed turns document document.sizeLimit.actualBytes
      (guess fixed document.sizeLimit.actualBytes) = outcome →
    outcome.1 = document.withActualBytes outcome.2 ∧ guess fixed outcome.2 = outcome.2 := by
  intro turns
  induction turns with
  | zero =>
    rintro document _ hsettled rfl
    exact ⟨rfl, hsettled⟩
  | succ turns ih =>
    intro document outcome hsettled houtcome
    rw [settle] at houtcome
    by_cases hsame : guess fixed document.sizeLimit.actualBytes = document.sizeLimit.actualBytes
    · rw [if_pos hsame, hsame] at houtcome
      rw [← houtcome]
      exact ⟨rfl, hsame⟩
    · rw [if_neg hsame] at houtcome
      exact ih (document.withActualBytes (guess fixed document.sizeLimit.actualBytes)) hsettled
        houtcome

/-- The outcome of a measurement is the document with the size of its own text in the field, and
that size. -/
structure IsMeasured (jsonText : Json → String) (timeText : DateTime → String)
    (document : HistoryExportDocument) (outcome : HistoryExportDocument × ℕ) : Prop where
  otherwise_unchanged : outcome.1 = document.withActualBytes outcome.2
  field_eq : outcome.1.sizeLimit.actualBytes = (outcome.1.toVec jsonText timeText).utf8ByteSize
  returned : outcome.2 = outcome.1.sizeLimit.actualBytes

/-- The field states the size of the text that holds it, whatever it said before. -/
theorem export_size_is_the_real_size (jsonText : Json → String) (timeText : DateTime → String)
    (document : HistoryExportDocument) (husize : document.sizeLimit.actualBytes < 2 ^ 64) :
    IsMeasured jsonText timeText document (measureExportBytes jsonText timeText document) := by
  obtain ⟨fixed, hfixed, hsize⟩ := utf8ByteSize_toVec jsonText timeText document
  have hactual : (document.toVec jsonText timeText).utf8ByteSize =
      guess fixed document.sizeLimit.actualBytes := hsize document.sizeLimit.actualBytes
  have hconstant : guess fixed document.sizeLimit.actualBytes -
      decimalDigitWidth document.sizeLimit.actualBytes = fixed := Nat.add_sub_cancel _ _
  have hthird := guess_settles hfixed husize
  have hfourth : guess fixed ((guess fixed)^[4] document.sizeLimit.actualBytes) =
      (guess fixed)^[4] document.sizeLimit.actualBytes := by
    rw [Function.iterate_succ_apply', hthird, hthird]
  have hloop : measureExportBytes jsonText timeText document =
      settle fixed 4 document document.sizeLimit.actualBytes
        (guess fixed document.sizeLimit.actualBytes) := by
    simp only [measureExportBytes, hactual, hconstant]
  obtain ⟨hmeasured, hself⟩ := settle_stops 4 document hfourth hloop.symm
  refine ⟨hmeasured, ?_, ?_⟩
  · rw [hmeasured, hsize]
    exact hself.symm
  · rw [hmeasured]
    rfl

/-- A finished run without events, exported at the epoch. -/
def emptyExport : HistoryExportDocument where
  schema := "autumn-harvest.history-export"
  version := 1
  workflowName := "orders"
  workflowId := none
  queueName := none
  executionId := ⟨0⟩
  shardId := 0
  exportedAt := 0
  eventCount := 0
  status := ⟨"COMPLETED", true⟩
  payloadPolicy := .full
  sizeLimit := ⟨10 * 1024 * 1024, 0, false, "fail"⟩
  events := []
  contextHeaders := none
  executionTimeout := none
  deadlineAt := none
  parentExecutionId := none
  startProvenance := none

/-- The field of `emptyExport` goes from `0` to a number of three digits. -/
theorem emptyExport_is_measured :
    emptyExport.sizeLimit.actualBytes < 2 ^ 64 ∧
      IsMeasured (fun _ => "null") (fun _ => "1970-01-01T00:00:00Z") emptyExport
        (measureExportBytes (fun _ => "null") (fun _ => "1970-01-01T00:00:00Z") emptyExport) :=
  ⟨by decide, export_size_is_the_real_size _ _ emptyExport (by decide)⟩

end Harvest.Export
