import Mathlib.Data.List.Basic
import Mathlib.Data.String.Basic

/-!
# JSON values

The `serde_json::Value` the engine stores. The crate builds `serde_json` without
`preserve_order`, so an object is a sorted map: here a list of fields that
`insertField` keeps sorted.

Proved here:
* `lookup_insertField`, `lookup_setField`: reading after a write.
* `lookup_ofPairs`: reading what was built from a list of fields.
-/

namespace Harvest

/-- `serde_json::Number`. A float is kept as its bits. -/
inductive Number
  | posInt (n : UInt64)
  | negInt (n : Int64)
  | float (bits : UInt64)
deriving DecidableEq, Repr

inductive Json
  | null
  | bool (b : Bool)
  | num (n : Number)
  | str (s : String)
  | arr (items : List Json)
  | obj (fields : List (String × Json))
deriving Repr

namespace Json

/-! ## Equality -/

mutual
def decEq : (a b : Json) → Decidable (a = b)
  | .null, .null => isTrue rfl
  | .bool a, .bool b => decidable_of_iff (a = b) (by simp)
  | .num a, .num b => decidable_of_iff (a = b) (by simp)
  | .str a, .str b => decidable_of_iff (a = b) (by simp)
  | .arr a, .arr b =>
    match decEqItems a b with
    | isTrue h => isTrue (by rw [h])
    | isFalse h => isFalse (by intro e; injection e with e; exact h e)
  | .obj a, .obj b =>
    match decEqFields a b with
    | isTrue h => isTrue (by rw [h])
    | isFalse h => isFalse (by intro e; injection e with e; exact h e)
  | .null, .bool _ | .null, .num _ | .null, .str _ | .null, .arr _ | .null, .obj _
  | .bool _, .null | .bool _, .num _ | .bool _, .str _ | .bool _, .arr _ | .bool _, .obj _
  | .num _, .null | .num _, .bool _ | .num _, .str _ | .num _, .arr _ | .num _, .obj _
  | .str _, .null | .str _, .bool _ | .str _, .num _ | .str _, .arr _ | .str _, .obj _
  | .arr _, .null | .arr _, .bool _ | .arr _, .num _ | .arr _, .str _ | .arr _, .obj _
  | .obj _, .null | .obj _, .bool _ | .obj _, .num _ | .obj _, .str _ | .obj _, .arr _ =>
    isFalse (by simp)
def decEqItems : (a b : List Json) → Decidable (a = b)
  | [], [] => isTrue rfl
  | [], _ :: _ => isFalse (by simp)
  | _ :: _, [] => isFalse (by simp)
  | x :: xs, y :: ys =>
    match decEq x y, decEqItems xs ys with
    | isTrue h, isTrue h' => isTrue (by rw [h, h'])
    | isFalse h, _ => isFalse (by intro e; injection e with e; exact h e)
    | _, isFalse h => isFalse (by intro e; injection e with _ e; exact h e)
def decEqFields : (a b : List (String × Json)) → Decidable (a = b)
  | [], [] => isTrue rfl
  | [], _ :: _ => isFalse (by simp)
  | _ :: _, [] => isFalse (by simp)
  | (k, x) :: xs, (k', y) :: ys =>
    if hk : k = k' then
      match decEq x y, decEqFields xs ys with
      | isTrue h, isTrue h' => isTrue (by rw [hk, h, h'])
      | isFalse h, _ => isFalse (by intro e; injection e with e; injection e with _ e; exact h e)
      | _, isFalse h => isFalse (by intro e; injection e with _ e; exact h e)
    else isFalse (by intro e; injection e with e; injection e with e _; exact hk e)
end

instance : DecidableEq Json := decEq

/-! ## Readers -/

def isNull : Json → Bool
  | .null => true
  | _ => false

def asObject : Json → Option (List (String × Json))
  | .obj fields => some fields
  | _ => none

def asStr : Json → Option String
  | .str s => some s
  | _ => none

/-- `Value::as_i64`: an unsigned number must fit. -/
def asI64 : Json → Option Int
  | .num (.posInt n) => if n.toNat < 9223372036854775808 then some n.toNat else none
  | .num (.negInt n) => some n.toInt
  | _ => none

def asU64 : Json → Option UInt64
  | .num (.posInt n) => some n
  | _ => none

/-- `Value::get` with a string index. -/
def get (key : String) : Json → Option Json
  | .obj fields => fields.lookup key
  | _ => none

/-- `Value::from` of a literal that is not negative. -/
def ofNat (n : Nat) : Json := .num (.posInt (UInt64.ofNat n))

/-! ## Fields of an object -/

/-- `Map::insert`: at the key's place, replacing what is there. -/
def insertField (key : String) (value : Json) : List (String × Json) → List (String × Json)
  | [] => [(key, value)]
  | (k, v) :: rest =>
    if key < k then (key, value) :: (k, v) :: rest
    else if key = k then (key, value) :: rest
    else (k, v) :: insertField key value rest

/-- A write through `Map::get_mut`: nothing happens to a missing key. -/
def setField (key : String) (value : Json) (fields : List (String × Json)) :
    List (String × Json) :=
  fields.map fun (k, v) => (k, if k = key then value else v)

/-- The object `serde` builds from the fields a value serializes, in any order. -/
def ofPairs (pairs : List (String × Json)) : List (String × Json) :=
  pairs.foldr (fun (k, v) fields => insertField k v fields) []

@[simp] theorem setField_nil (key : String) (value : Json) : setField key value [] = [] := rfl

@[simp] theorem setField_cons (key k : String) (value v : Json) (rest : List (String × Json)) :
    setField key value ((k, v) :: rest) =
      (k, if k = key then value else v) :: setField key value rest := rfl

@[simp] theorem ofPairs_nil : ofPairs [] = [] := rfl

@[simp] theorem ofPairs_cons (k : String) (v : Json) (rest : List (String × Json)) :
    ofPairs ((k, v) :: rest) = insertField k v (ofPairs rest) := rfl

theorem lookup_cons_ite (key k : String) (v : Json) (rest : List (String × Json)) :
    ((k, v) :: rest).lookup key = if key = k then some v else rest.lookup key := by
  rw [List.lookup_cons]
  by_cases h : key = k
  · simp [h]
  · have hne : (key == k) = false := by simp [h]
    simp [hne, h]

theorem lookup_insertField (key k : String) (value : Json) (fields : List (String × Json)) :
    (insertField key value fields).lookup k =
      if k = key then some value else fields.lookup k := by
  induction fields with
  | nil => simp [insertField, lookup_cons_ite]
  | cons kv rest ih =>
    obtain ⟨k', v⟩ := kv
    unfold insertField
    by_cases hlt : key < k'
    · simp [hlt, lookup_cons_ite]
    · by_cases heq : key = k'
      · subst heq
        by_cases h : k = key <;> simp [lookup_cons_ite, h]
      · rw [if_neg hlt, if_neg heq, lookup_cons_ite, lookup_cons_ite, ih]
        by_cases h : k = key
        · simp [h, heq]
        · simp [h]

theorem lookup_setField (key k : String) (value : Json) (fields : List (String × Json)) :
    (setField key value fields).lookup k =
      if k = key then (fields.lookup k).map fun _ => value else fields.lookup k := by
  induction fields with
  | nil => simp
  | cons kv rest ih =>
    obtain ⟨k', v⟩ := kv
    rw [setField_cons, lookup_cons_ite, lookup_cons_ite, ih]
    by_cases h : k = k'
    · subst h
      by_cases hk : k = key <;> simp [hk]
    · simp [h]

theorem lookup_ofPairs (key : String) (pairs : List (String × Json)) :
    (ofPairs pairs).lookup key = pairs.lookup key := by
  induction pairs with
  | nil => rfl
  | cons kv rest ih =>
    obtain ⟨k, v⟩ := kv
    rw [ofPairs_cons, lookup_insertField, lookup_cons_ite, ih]

end Json
end Harvest
