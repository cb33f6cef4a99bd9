import Harvest.Json

/-!
# Codec envelopes

Model of the wire half of `payload_codec.rs`: the three shapes of a codec
envelope, the one parser that every read path shares, the check for envelope
shapes inside a payload, and the one builder. A payload is arbitrary JSON, so the
parser must tell the builder's output from business data by shape alone.

Proved here:
* `parts_envelope`: the parser reads back what the builder wrote.
* `parts_eq_none`: what the escape check lets pass is no envelope.
-/

namespace Harvest.Codec

open Json

def codecEnvelopeKey : String := "_harvest_codec_envelope"

/-- Carries the key id a payload was encoded under. Absent means `legacy`. -/
def codecEnvelopeKidKey : String := "kid"

/-- Version of a flat envelope of three keys. -/
def codecEnvelopeVersionLegacy : Nat := 1

/-- Version of a flat envelope of four keys, the fourth a key id. -/
def codecEnvelopeVersionKeyed : Nat := 2

def codecLegacyKeyId : String := "legacy"

def maxCodecKeyIdBytes : Nat := 64

/-- The variants of the crate's error that the payload path raises. -/
inductive HarvestError
  | config (message : String)
  | codec (message : String)
  | serialization (message : String)
  | unknownCodecKey (keyId codecId : String)
  | unknownPayloadCodec (id : String)
  | payloadOffload (message : String)
deriving DecidableEq, Repr

/-! ## Key ids -/

/-- `{:?}` of a string. Outside ASCII Rust also escapes the code points it cannot
print; these stay as they are here. -/
def debugStr (s : String) : String :=
  "\"" ++ String.join (s.toList.map fun c =>
    if c = '"' then "\\\"" else if c = '\\' then "\\\\"
    else if c = '\n' then "\\n" else if c = '\r' then "\\r" else if c = '\t' then "\\t"
    else if c = '\x00' then "\\0" else c.toString) ++ "\""

/-- The bytes `validate_key_id` accepts. A character outside ASCII has none. -/
def keyIdChar (c : Char) : Bool :=
  c.isAlphanum || c = '-' || c = '_' || c = '.' || c = ':'

def validateKeyId (keyId : String) : Except HarvestError Unit :=
  if keyId.isEmpty then
    .error (.config "codec key id must not be empty")
  else if maxCodecKeyIdBytes < keyId.utf8ByteSize then
    .error (.config ("codec key id " ++ debugStr keyId ++ " is " ++ toString keyId.utf8ByteSize ++
      " bytes; the maximum is " ++ toString maxCodecKeyIdBytes))
  else if ! keyId.toList.all keyIdChar then
    .error (.config ("codec key id " ++ debugStr keyId ++
      " must contain only ASCII alphanumerics and `-_.:`"))
  else
    .ok ()

def ValidKeyId (keyId : String) : Prop := validateKeyId keyId = .ok ()

instance (keyId : String) : Decidable (ValidKeyId keyId) :=
  match h : validateKeyId keyId with
  | .ok () => isTrue h
  | .error _ => isFalse (by simp [ValidKeyId, h])

theorem valid_legacyKeyId : ValidKeyId codecLegacyKeyId := by decide

/-! ## The parser -/

structure CodecEnvelopeParts where
  codecId : String
  kid : Option String
  encodedB64 : String
deriving DecidableEq, Repr

/-- The explicit key id, or `legacy`. -/
def CodecEnvelopeParts.keyId (parts : CodecEnvelopeParts) : String :=
  parts.kid.getD codecLegacyKeyId

/-- The `kid` of an object that must have one. It is untrusted: on a deployment
with the identity codec it is caller input. -/
def storedKid (fields : List (String × Json)) : Option String := do
  let kid ← (fields.lookup codecEnvelopeKidKey).bind asStr
  if ValidKeyId kid then some kid else none

def parseNestedEnvelope (obj nested : List (String × Json)) : Option CodecEnvelopeParts := do
  if obj.length ≠ 1 then none
  else
    let codecId ← (nested.lookup "codec_id").bind asStr
    let encodedB64 ← (nested.lookup "data").bind asStr
    match nested.length with
    | 2 => some ⟨codecId, none, encodedB64⟩
    | 3 =>
      let kid ← storedKid nested
      some ⟨codecId, some kid, encodedB64⟩
    | _ => none

def parseFlatEnvelope (obj : List (String × Json)) (marker : Json) :
    Option CodecEnvelopeParts := do
  let version ← marker.asI64
  let codecId ← (obj.lookup "codec_id").bind asStr
  let encodedB64 ← (obj.lookup "data").bind asStr
  if version = codecEnvelopeVersionLegacy ∧ obj.length = 3 then
    some ⟨codecId, none, encodedB64⟩
  else if version = codecEnvelopeVersionKeyed ∧ obj.length = 4 then
    let kid ← storedKid obj
    some ⟨codecId, some kid, encodedB64⟩
  else
    -- A legacy version with a `kid`, a keyed one without, an unknown version.
    none

def codecEnvelopeParts (payload : Json) : Option CodecEnvelopeParts := do
  let obj ← payload.asObject
  let marker ← obj.lookup codecEnvelopeKey
  match marker.asObject with
  | some nested => parseNestedEnvelope obj nested
  | none => parseFlatEnvelope obj marker

def isCodecEnvelope (payload : Json) : Bool := (codecEnvelopeParts payload).isSome

mutual
/-- The lossy reader looks for envelopes at every depth, so the escape check of
the identity codec does too. -/
def payloadOrADescendantIsACodecEnvelope : Json → Bool
  | .obj fields => isCodecEnvelope (.obj fields) || anyFieldIsACodecEnvelope fields
  | .arr items => isCodecEnvelope (.arr items) || anyItemIsACodecEnvelope items
  | .null => isCodecEnvelope .null
  | .bool b => isCodecEnvelope (.bool b)
  | .num n => isCodecEnvelope (.num n)
  | .str s => isCodecEnvelope (.str s)
def anyFieldIsACodecEnvelope : List (String × Json) → Bool
  | [] => false
  | (_, v) :: rest => payloadOrADescendantIsACodecEnvelope v || anyFieldIsACodecEnvelope rest
def anyItemIsACodecEnvelope : List Json → Bool
  | [] => false
  | v :: rest => payloadOrADescendantIsACodecEnvelope v || anyItemIsACodecEnvelope rest
end

theorem isCodecEnvelope_root {payload : Json} (h : isCodecEnvelope payload = true) :
    payloadOrADescendantIsACodecEnvelope payload = true := by
  cases payload <;> simp [payloadOrADescendantIsACodecEnvelope, h]

/-- A payload that the escape check lets pass is read back verbatim. -/
theorem parts_eq_none {payload : Json}
    (h : payloadOrADescendantIsACodecEnvelope payload = false) :
    codecEnvelopeParts payload = none := by
  cases hparts : codecEnvelopeParts payload with
  | none => rfl
  | some parts =>
    have hroot : isCodecEnvelope payload = true := by simp [isCodecEnvelope, hparts]
    rw [isCodecEnvelope_root hroot] at h
    cases h

/-! ## The builder -/

abbrev Bytes := List UInt8

/-- What the payload path uses of `serde_json` and `base64`. -/
structure Wire where
  toVec : Json → Except String Bytes
  fromSlice : Bytes → Except String Json
  b64Encode : Bytes → String
  b64Decode : String → Except String Bytes

/-- The JSON text of a value parses back to the value. -/
def Wire.RoundTrips (wire : Wire) (value : Json) : Prop :=
  ∃ raw, wire.toVec value = .ok raw ∧ wire.fromSlice raw = .ok value

/-- Base64 decodes what it encoded. -/
def Wire.LosslessBase64 (wire : Wire) : Prop :=
  ∀ bytes, wire.b64Decode (wire.b64Encode bytes) = .ok bytes

/-- The `kid` field, written only for a key id other than `legacy`. -/
def kidField (keyId : String) : List (String × Json) :=
  if keyId ≠ codecLegacyKeyId then [(codecEnvelopeKidKey, .str keyId)] else []

/-- Nested only when forced, which is the escape of the identity codec. -/
def envelope (wire : Wire) (codecId keyId : String) (encoded : Bytes) (forceNested : Bool) :
    Json :=
  let data := Json.str (wire.b64Encode encoded)
  if forceNested then
    .obj [(codecEnvelopeKey,
      .obj (ofPairs ([("codec_id", .str codecId)] ++ kidField keyId ++ [("data", data)])))]
  else
    let version :=
      if keyId ≠ codecLegacyKeyId then codecEnvelopeVersionKeyed else codecEnvelopeVersionLegacy
    .obj (ofPairs ([(codecEnvelopeKey, Json.ofNat version), ("codec_id", .str codecId)] ++
      kidField keyId ++ [("data", data)]))

/-- The `kid` an envelope carries for a key id. -/
def kidOf (keyId : String) : Option String :=
  if keyId ≠ codecLegacyKeyId then some keyId else none

theorem getD_kidOf (keyId : String) : (kidOf keyId).getD codecLegacyKeyId = keyId := by
  unfold kidOf
  by_cases h : keyId = codecLegacyKeyId <;> simp [h]

theorem storedKid_of_lookup {fields : List (String × Json)} {keyId : String}
    (hvalid : ValidKeyId keyId) (hkid : fields.lookup codecEnvelopeKidKey = some (.str keyId)) :
    storedKid fields = some keyId := by
  simp [storedKid, hkid, asStr, hvalid]

/-- **The parser reads back what the builder wrote**, in all four shapes. -/
theorem parts_envelope (wire : Wire) (codecId : String) {keyId : String}
    (hvalid : ValidKeyId keyId) (encoded : Bytes) (forceNested : Bool) :
    codecEnvelopeParts (envelope wire codecId keyId encoded forceNested) =
      some ⟨codecId, kidOf keyId, wire.b64Encode encoded⟩ := by
  by_cases hlegacy : keyId = codecLegacyKeyId
  · subst hlegacy
    cases forceNested <;> rfl
  · -- Both keyed shapes reach the stored `kid`, which is the key id.
    have hfound (fields : List (String × Json))
        (hkid : fields.lookup codecEnvelopeKidKey = some (.str keyId)) :
        ((storedKid fields).bind fun kid =>
          some (⟨codecId, some kid, wire.b64Encode encoded⟩ : CodecEnvelopeParts)) =
            some ⟨codecId, some keyId, wire.b64Encode encoded⟩ := by
      rw [storedKid_of_lookup hvalid hkid]
      rfl
    simp only [envelope, kidField, kidOf, if_pos hlegacy]
    cases forceNested
    · exact hfound (ofPairs [(codecEnvelopeKey, Json.ofNat codecEnvelopeVersionKeyed),
        ("codec_id", .str codecId), (codecEnvelopeKidKey, .str keyId),
        ("data", .str (wire.b64Encode encoded))]) rfl
    · exact hfound (ofPairs [("codec_id", .str codecId), (codecEnvelopeKidKey, .str keyId),
        ("data", .str (wire.b64Encode encoded))]) rfl

end Harvest.Codec
