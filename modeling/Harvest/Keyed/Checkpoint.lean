import Mathlib.Data.Nat.Log
import Harvest.Json
import Harvest.Wasm.Journal

/-!
# The checkpoint of a keyed entity

Model of `EntityCheckpoint` in `entity.rs`: its wire form, the counters, the bound on the last
error and the size estimate of a checkpoint input.

`Serialize` and `Deserialize` of the state type are not part of the engine: `StateType` is what
the engine relies on. The text of a float comes from outside too, so its length is a parameter.

Proved here:
* `EntityCheckpoint.ofJson_toJson`: a continued run reads the checkpoint that was written.
* `jsonLen_continued_le`: the estimate of `claim_waiting_ops` is at least the size of the input.
-/

namespace Harvest.Keyed

open Wasm (escapedLen cutTo)

/-! ## The size of JSON text -/

section JsonLen

variable (floatLen : UInt64 → Nat)

/-- The bytes of a sequence of parts with separators between them. -/
def joinedLen (parts : List Nat) : Nat := parts.sum + (parts.length - 1)

def numberLen : Number → Nat
  | .posInt n => (Nat.toDigits 10 n.toNat).length
  | .negInt n => 1 + (Nat.toDigits 10 n.toInt.natAbs).length
  | .float bits => floatLen bits

mutual
/-- `json_len`: the bytes of the compact JSON text. -/
def jsonLen : Json → Nat
  | .null => 4
  | .bool b => if b then 4 else 5
  | .num n => numberLen floatLen n
  | .str s => escapedLen s
  | .arr items => 2 + joinedLen (itemLens items)
  | .obj fields => 2 + joinedLen (fieldLens fields)
def itemLens : List Json → List Nat
  | [] => []
  | item :: items => jsonLen item :: itemLens items
def fieldLens : List (String × Json) → List Nat
  | [] => []
  | (key, value) :: fields => (escapedLen key + 1 + jsonLen value) :: fieldLens fields
end

end JsonLen

/-! ## Counters and errors -/

/-- `EntityStats` -/
structure EntityStats where
  applied : UInt64 := 0
  failed : UInt64 := 0
  checkpoints : UInt64 := 0
  lastError : Option String := none
deriving DecidableEq, Repr

/-- `ENTITY_LAST_ERROR_MAX_BYTES` -/
def entityLastErrorMaxBytes : Nat := 1024

/-- `TRUNCATION_MARKER` -/
def truncationMarker : String := "... [truncated]"

/-- Cut an error to `entityLastErrorMaxBytes`, marker included. -/
def boundError (error : String) : String :=
  if error.utf8ByteSize ≤ entityLastErrorMaxBytes then error
  else
    String.ofList (cutTo (entityLastErrorMaxBytes - truncationMarker.utf8ByteSize) error.toList) ++
      truncationMarker

def recordFailure (stats : EntityStats) (error : String) : EntityStats :=
  { stats with failed := stats.failed + 1, lastError := some (boundError error) }

/-- The decimal digits of a number, by its logarithm. -/
def digits (v : Nat) : Nat := Nat.log 10 v + 1

/-- The bytes that `n + 1` adds over `n` in decimal JSON. -/
def counterGrowth (n : UInt64) : Nat :=
  if n.toNat + 1 < 2 ^ 64 then digits (n.toNat + 1) - digits n.toNat else 1

/-! ## The state type -/

/-- What the engine relies on of a state type. `null` is the wire form of a missing field, so only
the default may serialize to it. -/
structure StateType (S : Type) where
  default : S
  toJson : S → Json
  ofJson : Json → Option S
  ofJson_toJson : ∀ s, ofJson (toJson s) = some s
  null_is_default : ∀ s, toJson s = .null → s = default

/-- `null_as_default` -/
def nullAsDefault {T : Type} (default : T) (decode : Json → Option T) : Json → Option T
  | .null => some default
  | value => decode value

/-- A field of a struct with `#[serde(default)]`. -/
def fieldOrDefault {T : Type} (default : T) (decode : Json → Option T) : Option Json → Option T
  | none => some default
  | some value => decode value

theorem StateType.nullAsDefault_toJson {S : Type} (T : StateType S) (s : S) :
    nullAsDefault T.default T.ofJson (T.toJson s) = some s := by
  unfold nullAsDefault
  split
  · next h => rw [T.null_is_default s h]
  · exact T.ofJson_toJson s

/-! ## The wire form -/

def optionToJson : Option String → Json
  | none => .null
  | some s => .str s

/-- `Option<String>` -/
def optionOfJson : Json → Option (Option String)
  | .null => some none
  | .str s => some (some s)
  | _ => none

def EntityStats.fields (stats : EntityStats) : List (String × Json) :=
  [("applied", .num (.posInt stats.applied)), ("failed", .num (.posInt stats.failed)),
    ("checkpoints", .num (.posInt stats.checkpoints)),
    ("last_error", optionToJson stats.lastError)]

def EntityStats.toJson (stats : EntityStats) : Json := .obj (Json.ofPairs stats.fields)

def EntityStats.ofParts (applied failed checkpoints lastError : Option Json) :
    Option EntityStats := do
  let applied ← fieldOrDefault 0 Json.asU64 applied
  let failed ← fieldOrDefault 0 Json.asU64 failed
  let checkpoints ← fieldOrDefault 0 Json.asU64 checkpoints
  let lastError ← fieldOrDefault none optionOfJson lastError
  return ⟨applied, failed, checkpoints, lastError⟩

/-- A struct reads from a map, or from a sequence of its fields. -/
def EntityStats.ofJson : Json → Option EntityStats
  | .obj fields =>
    ofParts (fields.lookup "applied") (fields.lookup "failed") (fields.lookup "checkpoints")
      (fields.lookup "last_error")
  | .arr items => if items.length ≤ 4 then ofParts items[0]? items[1]? items[2]? items[3]? else none
  | _ => none

/-- `Vec<Value>` -/
def pendingOfJson : Json → Option (List Json)
  | .arr items => some items
  | _ => none

/-- `EntityCheckpoint` -/
structure EntityCheckpoint (S : Type) where
  state : S
  pending : List Json := []
  stats : EntityStats := {}

namespace EntityCheckpoint

variable {S : Type} (T : StateType S)

/-- The fields in the order the struct writes them. -/
def fields (checkpoint : EntityCheckpoint S) : List (String × Json) :=
  [("state", T.toJson checkpoint.state), ("pending", .arr checkpoint.pending),
    ("stats", checkpoint.stats.toJson)]

/-- `serde_json::to_value` -/
def toJson (checkpoint : EntityCheckpoint S) : Json := .obj (Json.ofPairs (checkpoint.fields T))

def ofParts (state pending stats : Option Json) : Option (EntityCheckpoint S) := do
  let state ← fieldOrDefault T.default (nullAsDefault T.default T.ofJson) state
  let pending ← fieldOrDefault [] (nullAsDefault [] pendingOfJson) pending
  let stats ← fieldOrDefault {} (nullAsDefault {} EntityStats.ofJson) stats
  return ⟨state, pending, stats⟩

/-- `Deserialize` for `EntityCheckpoint`, through `CheckpointWire`. -/
def ofJson : Json → Option (EntityCheckpoint S)
  | .null => some { state := T.default }
  | .obj fields =>
    ofParts T (fields.lookup "state") (fields.lookup "pending") (fields.lookup "stats")
  | .arr items => if items.length ≤ 3 then ofParts T items[0]? items[1]? items[2]? else none
  | _ => none

end EntityCheckpoint

/-! ## Reading back -/

theorem optionOfJson_optionToJson (s : Option String) : optionOfJson (optionToJson s) = some s := by
  cases s with
  | none => rfl
  | some s => rfl

theorem EntityStats.ofJson_toJson (stats : EntityStats) : ofJson stats.toJson = some stats := by
  show ofParts _ _ _ _ = some stats
  rw [Json.lookup_ofPairs, Json.lookup_ofPairs, Json.lookup_ofPairs, Json.lookup_ofPairs]
  simp [fields, ofParts, List.lookup_cons, fieldOrDefault, Json.asU64, optionOfJson_optionToJson]

/-- A continued run reads the checkpoint that its predecessor wrote. -/
theorem EntityCheckpoint.ofJson_toJson {S : Type} (T : StateType S)
    (checkpoint : EntityCheckpoint S) : ofJson T (checkpoint.toJson T) = some checkpoint := by
  have hstats : nullAsDefault {} EntityStats.ofJson checkpoint.stats.toJson =
      some checkpoint.stats := EntityStats.ofJson_toJson checkpoint.stats
  show ofParts T _ _ _ = some checkpoint
  rw [Json.lookup_ofPairs, Json.lookup_ofPairs, Json.lookup_ofPairs]
  simp [fields, ofParts, List.lookup_cons, fieldOrDefault, T.nullAsDefault_toJson, hstats]
  simp [nullAsDefault, pendingOfJson]

/-! ## The size of a checkpoint input -/

theorem length_toDigits (n : Nat) : (Nat.toDigits 10 n).length = digits n := by
  apply Nat.le_antisymm
  · rw [Nat.length_toDigits_le_iff (by decide) (by unfold digits; omega)]
    exact Nat.lt_pow_succ_log_self (by decide) n
  · by_contra hlt
    have hlt : (Nat.toDigits 10 n).length ≤ Nat.log 10 n := by unfold digits at hlt; omega
    have hpos : 0 < Nat.log 10 n := Nat.lt_of_lt_of_le Nat.length_toDigits_pos hlt
    rw [Nat.length_toDigits_le_iff (by decide) hpos] at hlt
    have hne : n ≠ 0 := by
      rintro rfl
      simp at hpos
    exact absurd (Nat.pow_log_le_self 10 hne) (Nat.not_le.mpr hlt)

/-- A counter that goes up by one grows by at most its estimate. It wraps at the top. -/
theorem digits_succ_le (n : UInt64) :
    digits (n + 1).toNat ≤ digits n.toNat + counterGrowth n := by
  unfold counterGrowth
  split_ifs with h
  · have hsucc : (n + 1).toNat = n.toNat + 1 := by
      rw [UInt64.toNat_add]
      exact Nat.mod_eq_of_lt h
    rw [hsucc]
    omega
  · have hlt := n.toNat_lt
    have hzero : (n + 1).toNat = 0 := by
      rw [UInt64.toNat_add]
      have : n.toNat = 2 ^ 64 - 1 := by omega
      rw [this]
      rfl
    rw [hzero]
    simp [digits]

section Size

variable (floatLen : UInt64 → Nat) {S : Type} (T : StateType S)

theorem itemLens_eq_map (items : List Json) :
    itemLens floatLen items = items.map (jsonLen floatLen) := by
  induction items with
  | nil => rfl
  | cons item items ih => rw [itemLens, ih, List.map_cons]

theorem fieldLens_eq_map (fields : List (String × Json)) :
    fieldLens floatLen fields =
      fields.map fun field => escapedLen field.1 + 1 + jsonLen floatLen field.2 := by
  induction fields with
  | nil => rfl
  | cons field fields ih => rw [fieldLens, ih, List.map_cons]

/-- The order of the fields does not change the length. -/
theorem jsonLen_obj_perm {fields fields' : List (String × Json)} (h : fields.Perm fields') :
    jsonLen floatLen (.obj fields) = jsonLen floatLen (.obj fields') := by
  have hlens := h.map fun field => escapedLen field.1 + 1 + jsonLen floatLen field.2
  rw [jsonLen, jsonLen, fieldLens_eq_map, fieldLens_eq_map, joinedLen, joinedLen, hlens.sum_eq,
    hlens.length_eq]

theorem insertField_perm {key : String} {value : Json} {fields : List (String × Json)}
    (h : key ∉ fields.map Prod.fst) :
    (Json.insertField key value fields).Perm ((key, value) :: fields) := by
  induction fields with
  | nil => exact List.Perm.refl _
  | cons field fields ih =>
    have hne : key ≠ field.1 := fun heq => h (heq ▸ List.mem_cons_self)
    have hrest : key ∉ fields.map Prod.fst := fun hmem => h (List.mem_cons_of_mem _ hmem)
    rw [Json.insertField, if_neg hne]
    split_ifs with hlt
    · exact List.Perm.refl _
    · exact ((ih hrest).cons field).trans (List.Perm.swap _ _ _)

theorem ofPairs_perm {pairs : List (String × Json)} (h : (pairs.map Prod.fst).Nodup) :
    (Json.ofPairs pairs).Perm pairs := by
  induction pairs with
  | nil => exact List.Perm.refl _
  | cons pair pairs ih =>
    obtain ⟨hnot, hrest⟩ := List.nodup_cons.mp h
    have hmem : pair.1 ∉ (Json.ofPairs pairs).map Prod.fst := by
      intro hmem
      exact hnot (((ih hrest).map Prod.fst).mem_iff.mp hmem)
    rw [Json.ofPairs_cons]
    exact (insertField_perm hmem).trans ((ih hrest).cons pair)

theorem joinedLen_le (parts : List Nat) : joinedLen parts ≤ (parts.map (· + 1)).sum := by
  unfold joinedLen
  induction parts with
  | nil => simp
  | cons part parts ih =>
    simp only [List.sum_cons, List.length_cons, List.map_cons]
    omega

theorem jsonLen_statsToJson (stats : EntityStats) :
    jsonLen floatLen stats.toJson = jsonLen floatLen (.obj stats.fields) :=
  jsonLen_obj_perm floatLen (ofPairs_perm (by simp [EntityStats.fields]))

theorem jsonLen_toJson (checkpoint : EntityCheckpoint S) :
    jsonLen floatLen (checkpoint.toJson T) = jsonLen floatLen (.obj (checkpoint.fields T)) :=
  jsonLen_obj_perm floatLen (ofPairs_perm (by simp [EntityCheckpoint.fields]))

/-- The stats of the next run. -/
def EntityStats.continued (stats : EntityStats) : EntityStats :=
  { stats with checkpoints := stats.checkpoints + 1 }

/-- The input of the next run. -/
def EntityCheckpoint.continued (checkpoint : EntityCheckpoint S) (waiting : List Json) :
    EntityCheckpoint S where
  state := checkpoint.state
  pending := waiting
  stats := checkpoint.stats.continued

/-- The size that `claim_waiting_ops` starts from. -/
def EntityCheckpoint.baseSize (checkpoint : EntityCheckpoint S) : Nat :=
  jsonLen floatLen (.obj (checkpoint.fields T)) + counterGrowth checkpoint.stats.checkpoints

/-- The size that `claim_waiting_ops` adds for the ops it carries. -/
def opsSize (ops : List Json) : Nat := (ops.map fun op => jsonLen floatLen op + 1).sum

theorem opsSize_concat (ops : List Json) (op : Json) :
    opsSize floatLen (ops ++ [op]) = opsSize floatLen ops + (jsonLen floatLen op + 1) := by
  simp [opsSize]

theorem jsonLen_arr_le (ops : List Json) :
    jsonLen floatLen (.arr ops) ≤ 2 + opsSize floatLen ops := by
  have hjoined := joinedLen_le (itemLens floatLen ops)
  rw [jsonLen, itemLens_eq_map]
  rw [itemLens_eq_map, List.map_map] at hjoined
  exact Nat.add_le_add_left hjoined 2

theorem jsonLen_statsContinued_le (stats : EntityStats) :
    jsonLen floatLen stats.continued.toJson ≤
      jsonLen floatLen stats.toJson + counterGrowth stats.checkpoints := by
  have hcounter := digits_succ_le stats.checkpoints
  rw [jsonLen_statsToJson, jsonLen_statsToJson]
  simp only [EntityStats.fields, EntityStats.continued, jsonLen, fieldLens, joinedLen, numberLen,
    length_toDigits, List.sum_cons, List.length_cons]
  omega

/-- The estimate of `claim_waiting_ops` covers the separators and the counter. -/
theorem jsonLen_continued_le (checkpoint : EntityCheckpoint S) (hempty : checkpoint.pending = [])
    (waiting : List Json) :
    jsonLen floatLen ((checkpoint.continued waiting).toJson T) ≤
      checkpoint.baseSize floatLen T + opsSize floatLen waiting := by
  have hops := jsonLen_arr_le floatLen waiting
  have hnone : jsonLen floatLen (.arr []) = 2 := rfl
  have hstats := jsonLen_statsContinued_le floatLen checkpoint.stats
  rw [jsonLen_toJson, EntityCheckpoint.baseSize, jsonLen, jsonLen]
  simp only [EntityCheckpoint.fields, EntityCheckpoint.continued, fieldLens, joinedLen, hempty,
    hnone, List.sum_cons, List.length_cons]
  omega

end Size

end Harvest.Keyed
