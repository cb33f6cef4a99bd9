import Mathlib.Data.List.Sort
import Harvest.Codec.EventWire
import Harvest.Keyed.Checkpoint
import Harvest.Replay.Roles

/-!
# The records of a cancelled scope

Model of the data of `cancellation_scope.rs`: the members of a scope, the decisions that a cancel
withdraws, the marker that keeps them and its wire form.

How ids and numbers are written is not part of the engine: `MarkerSerde` is what it relies on.

Proved here:
* `decodeMarker_encodeMarker`: a cancel reads the marker that a nested cancel wrote.
* `cancelDecision_encodeMarker`: without its records, a marker is the one of an empty capture.
* `capturedRecords_eq`: the capture is the one list of its records that is in push order.
-/

namespace Harvest.Scope

open Keyed (fieldOrDefault optionOfJson)
open Replay (patchMarkerName versionMarkerName)

/-! ## Commands and members -/

/-- The operations that a scope cancels. -/
structure ScopeMembers where
  activities : List ActivityExecId
  children : List ExecutionId
  timers : List TimerId
deriving DecidableEq, Repr

def ScopeMembers.empty : ScopeMembers := ⟨[], [], []⟩

def ScopeMembers.isEmpty (members : ScopeMembers) : Bool :=
  members.activities.isEmpty && members.children.isEmpty && members.timers.isEmpty

/-- The variants that a scope looks at, with the fields that it reads. -/
inductive WorkflowCommand
  | scheduleActivity (activityId : ActivityExecId)
  | waitForActivity (activityId : ActivityExecId)
  | scheduleExternalActivity (activityId : ActivityExecId)
  | startChildWorkflow (childId : ExecutionId)
  | startTimer (timerId : TimerId)
  | armTimer (timerId : TimerId) (forAwait : Bool)
  | recordMarker (name : String) (details : Json)
  | recordSideEffect (kind : SideEffectKind) (name : Option String) (value : Json)
  | cancelRaceLosers (members : ScopeMembers)
  | releaseMutex
  | recordUpdateResult
  | unread (variant : String)
deriving DecidableEq, Repr

/-- `ScopeMembers::add_from` -/
def ScopeMembers.addFrom (members : ScopeMembers) : WorkflowCommand → ScopeMembers
  | .scheduleActivity id
  | .waitForActivity id
  | .scheduleExternalActivity id =>
    if members.activities.contains id then members
    else { members with activities := members.activities ++ [id] }
  | .startChildWorkflow id =>
    if members.children.contains id then members
    else { members with children := members.children ++ [id] }
  | .startTimer id
  | .armTimer id true =>
    if members.timers.contains id then members
    else { members with timers := members.timers ++ [id] }
  | _ => members

/-! ## Names -/

def scopeCancelReason : String := "cancellation scope cancelled"

def cancelMarkerHead : String := "cancel_scope:"

/-- `cancel_marker_name` -/
def cancelMarkerName (seq : ℕ) : String := cancelMarkerHead ++ toString seq

def beginsWith (name head : String) : Bool := head.toList.isPrefixOf name.toList

def stripHead (name head : String) : Option String :=
  if beginsWith name head then some (String.ofList (name.toList.drop head.length)) else none

theorem beginsWith_append (head rest : String) : beginsWith (head ++ rest) head = true := by
  simp [beginsWith]

theorem cancelMarkerName_begins (seq : ℕ) :
    beginsWith (cancelMarkerName seq) cancelMarkerHead = true :=
  beginsWith_append _ _

/-- A cancel marker is no version gate. -/
theorem not_cancel_and_version {name : String} (hcancel : beginsWith name cancelMarkerHead = true)
    (hversion : beginsWith name "version:" = true) : False := by
  obtain ⟨rest, hrest⟩ := List.isPrefixOf_iff_prefix.mp hcancel
  obtain ⟨rest', hrest'⟩ := List.isPrefixOf_iff_prefix.mp hversion
  rw [← hrest] at hrest'
  exact absurd (congrArg List.head? hrest') (by simp [cancelMarkerHead])

theorem version_of_cancel (seq : ℕ) : beginsWith (cancelMarkerName seq) "version:" = false :=
  Bool.eq_false_iff.mpr fun h => not_cancel_and_version (cancelMarkerName_begins seq) h

theorem cancel_of_version (changeId : String) :
    beginsWith (versionMarkerName changeId) cancelMarkerHead = false :=
  Bool.eq_false_iff.mpr fun h => not_cancel_and_version h (beginsWith_append "version:" changeId)

/-! ## Captured records -/

/-- A recorded decision that a scope cancel withdraws. -/
inductive CapturedRecord
  | sideEffect (order : ℕ) (kind : SideEffectKind) (name : Option String) (value : Json)
  | marker (order : ℕ) (name : String) (details : Json)
deriving DecidableEq, Repr

def sideEffectLabel (kind : SideEffectKind) (name : Option String) : String :=
  "SideEffectRecorded(" ++ name.getD kind.asStr ++ ")"

namespace CapturedRecord

/-- The gate of a `patch:` or `version:` marker record. -/
def gateId : CapturedRecord → Option String
  | .marker _ name _ => (stripHead name "patch:").or (stripHead name "version:")
  | .sideEffect .. => none

def order : CapturedRecord → ℕ
  | .sideEffect order ..
  | .marker order .. => order

def label : CapturedRecord → String
  | .sideEffect _ kind name _ => sideEffectLabel kind name
  | .marker _ name _ => "MarkerRecorded(" ++ name ++ ")"

/-- What a replay gets from the record. -/
def value : CapturedRecord → Json
  | .sideEffect _ _ _ value => value
  | .marker _ _ details => details

end CapturedRecord

/-- The details of a `cancel_scope:` marker. -/
structure CancelMarker where
  reason : String
  horizon : ℕ
  members : ScopeMembers
  records : List CapturedRecord
deriving DecidableEq, Repr

/-! ## The wire form -/

/-- How ids and numbers are written. -/
structure MarkerSerde where
  uuid : Uuid → Json
  readUuid : Json → Option Uuid
  readUuid_uuid : ∀ id, readUuid (uuid id) = some id
  number : ℕ → Json
  readNumber : Json → Option ℕ
  readNumber_number : ∀ n, readNumber (number n) = some n

def readKind : Json → Option SideEffectKind
  | .str "Now" => some .now
  | .str "Uuid" => some .uuid
  | .str "Random" => some .random
  | .str "Custom" => some .custom
  | .str "EntityState" => some .entityState
  | _ => none

def readItems {T : Type} (read : Json → Option T) : Json → Option (List T)
  | .arr items => items.mapM read
  | _ => none

theorem readItems_map {T : Type} (read : Json → Option T) (write : T → Json)
    (h : ∀ x, read (write x) = some x) (xs : List T) :
    readItems read (.arr (xs.map write)) = some xs := by
  induction xs with
  | nil => rfl
  | cons x xs ih =>
    simp only [readItems, List.map_cons, List.mapM_cons, h] at ih ⊢
    rw [ih]
    rfl

namespace MarkerSerde

variable (serde : MarkerSerde)

/-- An object with the variant under `record`. -/
def encodeRecord : CapturedRecord → Json
  | .sideEffect order kind name value =>
    .obj ([("kind", .str kind.variantName)] ++ optionalField "name" (name.map .str) ++
      [("order", serde.number order), ("record", .str "side_effect"), ("value", value)])
  | .marker order name details =>
    .obj [("details", details), ("name", .str name), ("order", serde.number order),
      ("record", .str "marker")]

def decodeRecord (value : Json) : Option CapturedRecord :=
  match value.get "record" with
  | some (.str "side_effect") => do
    let order ← fieldOrDefault 0 serde.readNumber (value.get "order")
    let kind ← (value.get "kind").bind readKind
    let name ← fieldOrDefault none optionOfJson (value.get "name")
    let recorded ← value.get "value"
    some (.sideEffect order kind name recorded)
  | some (.str "marker") => do
    let order ← fieldOrDefault 0 serde.readNumber (value.get "order")
    let name ← (value.get "name").bind Json.asStr
    let details ← value.get "details"
    some (.marker order name details)
  | _ => none

theorem decodeRecord_encodeRecord (record : CapturedRecord) :
    serde.decodeRecord (serde.encodeRecord record) = some record := by
  cases record with
  | sideEffect order kind name value =>
    have hkind : readKind (.str kind.variantName) = some kind := by cases kind <;> rfl
    cases name with
    | none =>
      simp [encodeRecord, decodeRecord, Json.get, optionalField, List.lookup_cons, fieldOrDefault,
        serde.readNumber_number, hkind]
    | some name =>
      simp [encodeRecord, decodeRecord, Json.get, optionalField, List.lookup_cons, fieldOrDefault,
        serde.readNumber_number, hkind, optionOfJson]
  | marker order name details =>
    simp [encodeRecord, decodeRecord, Json.get, List.lookup_cons, fieldOrDefault,
      serde.readNumber_number, Json.asStr]

/-- The members are flattened, an empty capture is left out. -/
def encodeMarker (marker : CancelMarker) : Json :=
  .obj ([("activities", .arr (marker.members.activities.map fun id => serde.uuid id.uuid)),
      ("children", .arr (marker.members.children.map fun id => serde.uuid id.uuid)),
      ("horizon", serde.number marker.horizon), ("reason", .str marker.reason)] ++
    (if marker.records.isEmpty then []
      else [("records", .arr (marker.records.map serde.encodeRecord))]) ++
    [("timers", .arr (marker.members.timers.map fun id => .str id.name))])

def decodeMarker (value : Json) : Option CancelMarker := do
  let reason ← (value.get "reason").bind Json.asStr
  let horizon ← (value.get "horizon").bind serde.readNumber
  let activities ← fieldOrDefault []
    (readItems fun item => (serde.readUuid item).map ActivityExecId.mk) (value.get "activities")
  let children ← fieldOrDefault []
    (readItems fun item => (serde.readUuid item).map ExecutionId.mk) (value.get "children")
  let timers ← fieldOrDefault [] (readItems fun item => item.asStr.map TimerId.mk)
    (value.get "timers")
  let records ← fieldOrDefault [] (readItems serde.decodeRecord) (value.get "records")
  some ⟨reason, horizon, ⟨activities, children, timers⟩, records⟩

/-- **A cancel reads the marker that a nested cancel wrote.** -/
theorem decodeMarker_encodeMarker (marker : CancelMarker) :
    serde.decodeMarker (serde.encodeMarker marker) = some marker := by
  obtain ⟨reason, horizon, ⟨activities, children, timers⟩, records⟩ := marker
  have hactivities := readItems_map (fun item => (serde.readUuid item).map ActivityExecId.mk)
    (fun id => serde.uuid id.uuid) (fun id => by simp [serde.readUuid_uuid]) activities
  have hchildren := readItems_map (fun item => (serde.readUuid item).map ExecutionId.mk)
    (fun id => serde.uuid id.uuid) (fun id => by simp [serde.readUuid_uuid]) children
  have htimers := readItems_map (fun item => item.asStr.map TimerId.mk)
    (fun id => .str id.name) (fun _ => rfl) timers
  have hrecords := readItems_map _ _ serde.decodeRecord_encodeRecord records
  have hreason : Json.asStr (.str reason) = some reason := rfl
  cases records with
  | nil =>
    simp [encodeMarker, decodeMarker, Json.get, List.lookup_cons, fieldOrDefault, hreason,
      serde.readNumber_number, hactivities, hchildren, htimers]
  | cons record rest =>
    rw [List.map_cons] at hrecords
    simp [encodeMarker, decodeMarker, Json.get, List.lookup_cons, fieldOrDefault, hreason,
      serde.readNumber_number, hactivities, hchildren, htimers, hrecords]

end MarkerSerde

/-- The details of a cancel marker without its captured records. -/
def cancelDecision : Json → Json
  | .obj fields => .obj (fields.filter fun field => field.1 != "records")
  | details => details

theorem cancelDecision_encodeMarker (serde : MarkerSerde) (marker : CancelMarker) :
    cancelDecision (serde.encodeMarker marker) =
      serde.encodeMarker { marker with records := [] } := by
  unfold MarkerSerde.encodeMarker cancelDecision
  by_cases h : marker.records.isEmpty
  · simp [h]
  · simp [h]

/-! ## The capture -/

section Capture

variable (serde : MarkerSerde)

/-- What one withdrawn command gives. The marker of a nested cancel gives its records too. -/
def commandRecords (order : ℕ) : WorkflowCommand → List CapturedRecord
  | .recordSideEffect kind name value => [.sideEffect order kind name value]
  | .recordMarker name details =>
    if beginsWith name cancelMarkerHead then
      (serde.decodeMarker details).elim [] (·.records) ++
        [.marker order name (cancelDecision details)]
    else [.marker order name details]
  | _ => []

def gather (cmds : List (ℕ × WorkflowCommand)) : List CapturedRecord :=
  cmds.flatMap fun cmd => commandRecords serde cmd.1 cmd.2

/-- `captured_records` -/
def capturedRecords (cmds : List (ℕ × WorkflowCommand)) : List CapturedRecord :=
  (gather serde cmds).insertionSort fun a b => a.order ≤ b.order

theorem capturedRecords_perm (cmds : List (ℕ × WorkflowCommand)) :
    (capturedRecords serde cmds).Perm (gather serde cmds) :=
  List.perm_insertionSort _ _

theorem capturedRecords_pairwise (cmds : List (ℕ × WorkflowCommand)) :
    (capturedRecords serde cmds).Pairwise fun a b => a.order ≤ b.order :=
  have : Std.Total fun a b : CapturedRecord => a.order ≤ b.order := ⟨fun _ _ => Nat.le_total _ _⟩
  have : IsTrans CapturedRecord fun a b => a.order ≤ b.order := ⟨fun _ _ _ => Nat.le_trans⟩
  List.pairwise_insertionSort _ _

/-- **The capture is the one list of its records that is in push order.** -/
theorem capturedRecords_eq {cmds : List (ℕ × WorkflowCommand)} {records : List CapturedRecord}
    (hperm : (gather serde cmds).Perm records)
    (hordered : records.Pairwise fun a b => a.order < b.order) :
    capturedRecords serde cmds = records := by
  have hsame := (capturedRecords_perm serde cmds).trans hperm
  have hdistinct : (records.map (·.order)).Nodup :=
    List.pairwise_map.mpr (hordered.imp Nat.ne_of_lt)
  refine List.Perm.eq_of_pairwise ?_ (capturedRecords_pairwise serde cmds)
    (hordered.imp Nat.le_of_lt) hsame
  intro a b ha hb hab hba
  exact List.inj_on_of_nodup_map hdistinct (hsame.mem_iff.mp ha) hb (Nat.le_antisymm hab hba)

end Capture

/-- The decision that one pushed command is. A cancel counts without its records. -/
def decisionOf (order : ℕ) : WorkflowCommand → Option CapturedRecord
  | .recordSideEffect kind name value => some (.sideEffect order kind name value)
  | .recordMarker name details =>
    some (.marker order name
      (if beginsWith name cancelMarkerHead then cancelDecision details else details))
  | _ => none

theorem order_of_decisionOf {order : ℕ} {cmd : WorkflowCommand} {record : CapturedRecord}
    (h : decisionOf order cmd = some record) : record.order = order := by
  cases cmd with
  | recordSideEffect kind name value =>
    cases h
    rfl
  | recordMarker name details =>
    cases h
    rfl
  | _ => cases h

end Harvest.Scope
