import Mathlib
import Harvest.Codec.Envelope

/-!
# The codec registry

Model of `PayloadCodecs` in `payload_codec.rs`: codecs by codec id, keyed codecs
by key id, the active key, the pins of running sweeps and the lock-free mirror of
"any key is registered". Every method holds one lock, so a method is one step.

Proved here:
* `PayloadCodecs.Consistent`, kept by every method (`consistent_register`, …,
  `consistent_retireKeyLocal`).
* `Decodes.resolve`: the registry finds the codec of a payload.
* `decodePayload_of_decodes`: a registry that holds the codec of a stored payload
  decodes it.
-/

namespace Harvest.Codec

open Json
open Std (TreeMap)

/-- The trait. `encode` reads a seed, for a codec may draw a nonce. -/
class PayloadCodec (C : Type) where
  codecId : C → String
  encode : C → Nat → Bytes → Except String Bytes
  decode : C → Bytes → Except String Bytes
  boundKeyId : C → Option String

open PayloadCodec

/-- `Arc<dyn PayloadCodec>`: the built-in pass-through codec, or an embedder's. -/
inductive DynCodec (C : Type)
  | identity
  | custom (codec : C)
deriving DecidableEq, Repr

instance {C : Type} [PayloadCodec C] : PayloadCodec (DynCodec C) where
  codecId
    | .identity => "identity"
    | .custom codec => codecId codec
  encode
    | .identity, _, raw => .ok raw
    | .custom codec, seed, raw => encode codec seed raw
  decode
    | .identity, encoded => .ok encoded
    | .custom codec, encoded => decode codec encoded
  boundKeyId
    | .identity => none
    | .custom codec => boundKeyId codec

/-- Decoding inverts encoding. -/
def Inverts {C : Type} [PayloadCodec C] (codec : C) : Prop :=
  ∀ seed raw encoded, encode codec seed raw = .ok encoded → decode codec encoded = .ok raw

theorem inverts_dyn {C : Type} [PayloadCodec C] (hinv : ∀ codec : C, Inverts codec)
    (codec : DynCodec C) : Inverts codec := by
  intro seed raw encoded hencode
  cases codec with
  | identity =>
    cases hencode
    rfl
  | custom codec => exact hinv codec seed raw encoded hencode

structure PayloadCodecs (C : Type) where
  default : DynCodec C
  codecs : TreeMap String (DynCodec C)
  keys : TreeMap String (DynCodec C)
  active : String
  /-- Live sweep guards per key id. -/
  sweepPins : TreeMap String Nat
  anyKeys : Bool

namespace PayloadCodecs

variable {C : Type} [PayloadCodec C]

/-- `PayloadCodecs::default()`. -/
def new : PayloadCodecs C where
  default := .identity
  codecs := (∅ : TreeMap String (DynCodec C)).insert "identity" .identity
  keys := ∅
  active := codecLegacyKeyId
  sweepPins := ∅
  anyKeys := false

/-! ## Methods -/

def register (r : PayloadCodecs C) (codec : DynCodec C) : PayloadCodecs C :=
  { r with codecs := r.codecs.insert (codecId codec) codec }

def setDefault (r : PayloadCodecs C) (codec : DynCodec C) : PayloadCodecs C :=
  { r.register codec with default := codec }

/-- The refusal of a codec that binds another key id into its output. The legacy
id may hold any codec: history without a `kid` predates key ids. -/
def checkBoundKeyId (keyId : String) (codec : DynCodec C) : Except HarvestError Unit :=
  match boundKeyId codec with
  | some bound =>
    if bound ≠ keyId ∧ keyId ≠ codecLegacyKeyId then
      .error (.config ("codec key id " ++ debugStr keyId ++ " does not match the key id " ++
        debugStr bound ++ " that the codec binds into its output; register the codec under " ++
        debugStr bound))
    else .ok ()
  | none => .ok ()

def registerKey (r : PayloadCodecs C) (keyId : String) (codec : DynCodec C) :
    Except HarvestError (PayloadCodecs C) := do
  validateKeyId keyId
  checkBoundKeyId keyId codec
  if r.keys.contains keyId then
    .error (.config ("codec key id " ++ debugStr keyId ++
      " is already registered; key registrations are immutable because replacing one would " ++
      "destroy the only decoder for every stored envelope bearing that key id"))
  else
    .ok { r with
      keys := r.keys.insert keyId codec
      active := if r.keys.isEmpty then keyId else r.active
      anyKeys := true }

def setActiveKey (r : PayloadCodecs C) (keyId : String) :
    Except HarvestError (PayloadCodecs C) :=
  if ! r.keys.contains keyId then
    .error (.config ("cannot activate unregistered codec key id " ++ debugStr keyId ++
      "; register it with `PayloadCodecs::register_key` first"))
  else
    .ok { r with active := keyId }

def pinKeyForSweep (r : PayloadCodecs C) (keyId : String) : PayloadCodecs C :=
  { r with sweepPins := r.sweepPins.insert keyId ((r.sweepPins[keyId]?).getD 0 + 1) }

/-- What dropping a `SweepKeyPin` does. -/
def unpinKeyForSweep (r : PayloadCodecs C) (keyId : String) : PayloadCodecs C :=
  match r.sweepPins[keyId]? with
  | some count =>
    if count - 1 = 0 then { r with sweepPins := r.sweepPins.erase keyId }
    else { r with sweepPins := r.sweepPins.insert keyId (count - 1) }
  | none => r

def retireKeyLocal (r : PayloadCodecs C) (keyId : String) :
    Except HarvestError (PayloadCodecs C) :=
  if r.sweepPins.contains keyId then
    .error (.config ("codec key id " ++ debugStr keyId ++
      " is pinned by an in-flight re-encryption sweep batch and cannot be retired yet; " ++
      "retry once the batch completes"))
  else if r.active = keyId then
    .error (.config ("codec key id " ++ debugStr keyId ++
      " is the active key and cannot be retired; activate a different key first"))
  else
    let keys := r.keys.erase keyId
    .ok { r with keys := keys, anyKeys := ! keys.isEmpty }

/-- The key id (`none` is `legacy`) and the codec that new writes use. -/
def activeCodec (r : PayloadCodecs C) : Option String × DynCodec C :=
  if ! r.anyKeys then (none, r.default)
  else
    match r.keys[r.active]? with
    | some codec => (kidOf r.active, codec)
    | none => (none, r.default)

def resolveDecoder (r : PayloadCodecs C) (parts : CodecEnvelopeParts) : Option (DynCodec C) :=
  let keyed := if r.anyKeys then r.keys[parts.keyId]? else none
  match keyed with
  | none => if parts.kid.isNone then r.codecs[parts.codecId]? else none
  | some codec =>
    if codecId codec = parts.codecId then some codec
    -- A named key with another codec id is malformed and never falls back.
    else if parts.kid.isSome then none
    else r.codecs[parts.codecId]?

/-- `encode_payload` and `encode_payload_owned`, which differ in ownership only. -/
def encodePayload (r : PayloadCodecs C) (wire : Wire) (seed : Nat) (payload : Json) :
    Except HarvestError Json := do
  let (keyId, codec) := r.activeCodec
  let isIdentity : Bool := codecId codec = "identity"
  if isIdentity && ! payloadOrADescendantIsACodecEnvelope payload then
    .ok payload
  else
    let raw ← (wire.toVec payload).mapError .serialization
    let encoded ← (encode codec seed raw).mapError fun e => .codec ("payload codec error: " ++ e)
    .ok (envelope wire (codecId codec) (keyId.getD codecLegacyKeyId) encoded isIdentity)

def decodeEnvelopeBytes (r : PayloadCodecs C) (wire : Wire) (parts : CodecEnvelopeParts) :
    Except HarvestError Bytes := do
  let codec ←
    match r.resolveDecoder parts with
    | some codec => .ok codec
    | none =>
      if parts.kid.isSome then .error (.unknownCodecKey parts.keyId parts.codecId)
      else .error (.unknownPayloadCodec parts.codecId)
  let encoded ← (wire.b64Decode parts.encodedB64).mapError .codec
  (decode codec encoded).mapError fun e => .codec ("payload codec error: " ++ e)

/-- `decode_payload` and `decode_payload_owned`. -/
def decodePayload (r : PayloadCodecs C) (wire : Wire) (payload : Json) :
    Except HarvestError Json :=
  match codecEnvelopeParts payload with
  | none => .ok payload
  | some parts => do
    let decoded ← r.decodeEnvelopeBytes wire parts
    (wire.fromSlice decoded).mapError .serialization

/-! ## Consistency -/

/-- What holds between any two methods. -/
structure Consistent (r : PayloadCodecs C) : Prop where
  /-- The default codec is registered for decoding. -/
  default_registered : r.codecs[codecId r.default]? = some r.default
  /-- The mirror equals what it mirrors. -/
  anyKeys_eq : r.anyKeys = ! r.keys.isEmpty
  /-- The active key is registered once any key is. -/
  active_mem : r.keys.isEmpty = false → r.active ∈ r.keys
  key_valid : ∀ keyId ∈ r.keys, ValidKeyId keyId
  /-- A plain codec with the codec id of the legacy entry is the legacy entry. -/
  legacy_agrees : ∀ codec, r.keys[codecLegacyKeyId]? = some codec →
    ∀ plain, r.codecs[codecId codec]? = some plain → plain = codec

/-- A codec id names one codec: the codec is new here, or it is the one that is
registered, also as the legacy key. -/
def Fresh (r : PayloadCodecs C) (codec : DynCodec C) : Prop :=
  (∀ plain ∈ r.codecs[codecId codec]?, plain = codec) ∧
    ∀ legacy ∈ r.keys[codecLegacyKeyId]?, codecId legacy = codecId codec → codec = legacy

/-- A codec under the legacy key id that shares its codec id with a plain codec is
that codec. -/
def LegacyFresh (r : PayloadCodecs C) (keyId : String) (codec : DynCodec C) : Prop :=
  keyId = codecLegacyKeyId → ∀ plain ∈ r.codecs[codecId codec]?, plain = codec

theorem consistent_new : (new : PayloadCodecs C).Consistent where
  default_registered := by simp [new, codecId]
  anyKeys_eq := by simp [new]
  active_mem := by simp [new]
  key_valid := by simp [new]
  legacy_agrees := by simp [new]

theorem consistent_register {r : PayloadCodecs C} {codec : DynCodec C} (hr : r.Consistent)
    (hfresh : r.Fresh codec) : (r.register codec).Consistent where
  default_registered := by
    simp only [register, TreeMap.getElem?_insert, compare_eq_iff_eq]
    split_ifs with hid
    · have hplain := hfresh.1 r.default (by rw [hid]; exact hr.default_registered)
      rw [hplain]
    · exact hr.default_registered
  anyKeys_eq := hr.anyKeys_eq
  active_mem := hr.active_mem
  key_valid := hr.key_valid
  legacy_agrees := by
    intro legacy hlegacy plain hplain
    simp only [register, TreeMap.getElem?_insert, compare_eq_iff_eq] at hplain
    split_ifs at hplain with hid
    · cases hplain
      exact hfresh.2 legacy hlegacy hid.symm
    · exact hr.legacy_agrees legacy hlegacy plain hplain

theorem consistent_setDefault {r : PayloadCodecs C} {codec : DynCodec C} (hr : r.Consistent)
    (hfresh : r.Fresh codec) : (r.setDefault codec).Consistent :=
  { consistent_register hr hfresh with
    default_registered := by simp [setDefault, register] }

/-- What a successful `register_key` did. -/
theorem registerKey_ok {r r' : PayloadCodecs C} {keyId : String} {codec : DynCodec C}
    (h : r.registerKey keyId codec = .ok r') :
    ValidKeyId keyId ∧ keyId ∉ r.keys ∧
      r' = { r with
        keys := r.keys.insert keyId codec
        active := if r.keys.isEmpty then keyId else r.active
        anyKeys := true } := by
  unfold registerKey at h
  cases hvalid : validateKeyId keyId with
  | error e => simp [hvalid, bind, Except.bind] at h
  | ok u =>
    cases hbound : checkBoundKeyId keyId codec with
    | error e => simp [hvalid, hbound, bind, Except.bind] at h
    | ok u =>
      simp only [hvalid, hbound, bind, Except.bind] at h
      by_cases hmem : r.keys.contains keyId = true
      · rw [if_pos hmem] at h
        cases h
      · rw [if_neg hmem] at h
        cases h
        exact ⟨hvalid, by simpa using hmem, rfl⟩

theorem consistent_registerKey {r r' : PayloadCodecs C} {keyId : String} {codec : DynCodec C}
    (hr : r.Consistent) (hfresh : r.LegacyFresh keyId codec)
    (h : r.registerKey keyId codec = .ok r') : r'.Consistent := by
  obtain ⟨hvalid, hnew, rfl⟩ := registerKey_ok h
  constructor
  case default_registered => exact hr.default_registered
  case anyKeys_eq => simp
  case active_mem =>
    intro _
    simp only [TreeMap.mem_insert, compare_eq_iff_eq]
    split_ifs with hempty
    · exact Or.inl rfl
    · exact Or.inr (hr.active_mem (by simpa using hempty))
  case key_valid =>
    intro k hk
    rcases TreeMap.mem_insert.mp hk with hk | hk
    · rw [← compare_eq_iff_eq.mp hk]
      exact hvalid
    · exact hr.key_valid k hk
  case legacy_agrees =>
    intro legacy hlegacy plain hplain
    simp only [TreeMap.getElem?_insert, compare_eq_iff_eq] at hlegacy
    split_ifs at hlegacy with hid
    · cases hlegacy
      exact hfresh hid plain hplain
    · exact hr.legacy_agrees legacy hlegacy plain hplain

omit [PayloadCodec C] in
theorem setActiveKey_ok {r r' : PayloadCodecs C} {keyId : String}
    (h : r.setActiveKey keyId = .ok r') : keyId ∈ r.keys ∧ r' = { r with active := keyId } := by
  unfold setActiveKey at h
  split_ifs at h with hmem
  cases h
  exact ⟨by simpa using hmem, rfl⟩

theorem consistent_setActiveKey {r r' : PayloadCodecs C} {keyId : String} (hr : r.Consistent)
    (h : r.setActiveKey keyId = .ok r') : r'.Consistent := by
  obtain ⟨hmem, rfl⟩ := setActiveKey_ok h
  exact { hr with active_mem := fun _ => hmem }

theorem consistent_pinKeyForSweep {r : PayloadCodecs C} (hr : r.Consistent) (keyId : String) :
    (r.pinKeyForSweep keyId).Consistent :=
  { hr with }

omit [PayloadCodec C] in
theorem unpinKeyForSweep_eq (r : PayloadCodecs C) (keyId : String) :
    r.unpinKeyForSweep keyId =
      { r with sweepPins := (r.unpinKeyForSweep keyId).sweepPins } := by
  unfold unpinKeyForSweep
  split
  · split_ifs <;> rfl
  · rfl

theorem consistent_unpinKeyForSweep {r : PayloadCodecs C} (hr : r.Consistent) (keyId : String) :
    (r.unpinKeyForSweep keyId).Consistent := by
  rw [unpinKeyForSweep_eq]
  exact { hr with }

omit [PayloadCodec C] in
/-- What a successful `retire_key_local` found and did. -/
theorem retireKeyLocal_ok {r r' : PayloadCodecs C} {keyId : String}
    (h : r.retireKeyLocal keyId = .ok r') :
    keyId ∉ r.sweepPins ∧ r.active ≠ keyId ∧
      r' = { r with keys := r.keys.erase keyId, anyKeys := ! (r.keys.erase keyId).isEmpty } := by
  unfold retireKeyLocal at h
  split_ifs at h with hpin hactive
  cases h
  exact ⟨by simpa using hpin, hactive, rfl⟩

theorem consistent_retireKeyLocal {r r' : PayloadCodecs C} {keyId : String} (hr : r.Consistent)
    (h : r.retireKeyLocal keyId = .ok r') : r'.Consistent := by
  obtain ⟨-, hactive, rfl⟩ := retireKeyLocal_ok h
  constructor
  case default_registered => exact hr.default_registered
  case anyKeys_eq => rfl
  case active_mem =>
    intro hleft
    -- Some key is left, so some key was there, so the active one was.
    have hwas : r.keys.isEmpty = false := by
      rw [TreeMap.isEmpty_eq_false_iff_exists_mem] at hleft ⊢
      obtain ⟨k, hk⟩ := hleft
      exact ⟨k, (TreeMap.mem_erase.mp hk).2⟩
    refine TreeMap.mem_erase.mpr ⟨?_, hr.active_mem hwas⟩
    rw [ne_eq, compare_eq_iff_eq]
    exact hactive.symm
  case key_valid =>
    intro k hk
    exact hr.key_valid k (TreeMap.mem_erase.mp hk).2
  case legacy_agrees =>
    intro legacy hlegacy plain hplain
    simp only [TreeMap.getElem?_erase, compare_eq_iff_eq] at hlegacy
    split_ifs at hlegacy
    exact hr.legacy_agrees legacy hlegacy plain hplain

/-! ## Reading back -/

/-- The registry holds the codec of a payload that was written under a key id: as
the keyed codec, or, without a `kid`, as a plain one. -/
def Decodes (r : PayloadCodecs C) (keyId : String) (codec : DynCodec C) : Prop :=
  r.keys[keyId]? = some codec ∨
    keyId = codecLegacyKeyId ∧ r.codecs[codecId codec]? = some codec

/-- **The registry finds the codec of a payload.** -/
theorem Decodes.resolve {r : PayloadCodecs C} {keyId : String} {codec : DynCodec C}
    (h : r.Decodes keyId codec) (hr : r.Consistent) (data : String) :
    r.resolveDecoder ⟨codecId codec, kidOf keyId, data⟩ = some codec := by
  unfold resolveDecoder
  simp only [CodecEnvelopeParts.keyId, getD_kidOf]
  rcases h with hkey | ⟨rfl, hplain⟩
  · have hany : r.anyKeys = true := by
      rw [hr.anyKeys_eq, Bool.not_eq_true', TreeMap.isEmpty_eq_false_iff_exists_mem]
      exact ⟨keyId, TreeMap.mem_iff_isSome_getElem?.mpr (by simp [hkey])⟩
    simp [hany, hkey]
  · have hnokid : kidOf codecLegacyKeyId = none := rfl
    cases hlegacy : (if r.anyKeys then r.keys[codecLegacyKeyId]? else none) with
    | none => simp [hnokid, hplain]
    | some legacy =>
      simp only [hnokid, Option.isSome_none, Bool.false_eq_true, if_false]
      split_ifs with hid
      · have hfound : r.keys[codecLegacyKeyId]? = some legacy := by
          split_ifs at hlegacy
          exact hlegacy
        rw [hr.legacy_agrees legacy hfound codec (by rw [hid]; exact hplain)]
      · exact hplain

/-- The key id that the next write is encoded under. -/
def writeKeyId (r : PayloadCodecs C) : String := r.activeCodec.1.getD codecLegacyKeyId

theorem decodes_active {r : PayloadCodecs C} (hr : r.Consistent) :
    r.Decodes r.writeKeyId r.activeCodec.2 ∧ ValidKeyId r.writeKeyId := by
  unfold writeKeyId activeCodec
  by_cases hany : r.anyKeys = true
  · have hne : r.keys.isEmpty = false := by simpa [hr.anyKeys_eq] using hany
    have hmem := hr.active_mem hne
    obtain ⟨codec, hcodec⟩ := Option.isSome_iff_exists.mp (TreeMap.mem_iff_isSome_getElem?.mp hmem)
    simp only [hany, Bool.not_true, Bool.false_eq_true, if_false, hcodec, getD_kidOf]
    exact ⟨Or.inl hcodec, hr.key_valid _ hmem⟩
  · simp only [hany]
    exact ⟨Or.inr ⟨rfl, hr.default_registered⟩, valid_legacyKeyId⟩

/-- A write stores the payload itself, which then holds no envelope at any depth, or one
envelope around its encoded text. -/
theorem encodePayload_ok {r : PayloadCodecs C} {wire : Wire} {seed : Nat} {payload stored : Json}
    (h : r.encodePayload wire seed payload = .ok stored) :
    (stored = payload ∧ payloadOrADescendantIsACodecEnvelope payload = false) ∨
      ∃ raw encoded nested, wire.toVec payload = .ok raw ∧
        encode r.activeCodec.2 seed raw = .ok encoded ∧
        stored = envelope wire (codecId r.activeCodec.2) r.writeKeyId encoded nested := by
  unfold encodePayload at h
  dsimp only at h
  split_ifs at h with hplain
  · cases h
    exact Or.inl ⟨rfl, by simpa using (Bool.and_eq_true_iff.mp hplain).2⟩
  · cases hraw : wire.toVec payload with
    | error e => simp [hraw, Except.mapError, bind, Except.bind] at h
    | ok raw =>
      cases henc : encode r.activeCodec.2 seed raw with
      | error e => simp [hraw, henc, Except.mapError, bind, Except.bind] at h
      | ok encoded =>
        simp only [hraw, henc, Except.mapError, bind, Except.bind] at h
        cases h
        exact Or.inr ⟨raw, encoded, _, rfl, henc, rfl⟩

/-- **A registry that holds the codec of a stored payload decodes it.** -/
theorem decodePayload_of_decodes {r r' : PayloadCodecs C} {wire : Wire} {seed : Nat}
    {payload stored : Json} (hinv : Inverts r.activeCodec.2) (hb64 : wire.LosslessBase64)
    (hjson : wire.RoundTrips payload) (hr : r.Consistent)
    (hstored : r.encodePayload wire seed payload = .ok stored) (hr' : r'.Consistent)
    (hheld : r'.Decodes r.writeKeyId r.activeCodec.2) :
    r'.decodePayload wire stored = .ok payload := by
  rcases encodePayload_ok hstored with ⟨rfl, hguard⟩ | ⟨raw, encoded, nested, hraw, henc, rfl⟩
  · simp [decodePayload, parts_eq_none hguard]
  · obtain ⟨raw', hraw', hparse⟩ := hjson
    cases hraw.symm.trans hraw'
    have hdecode := hinv seed raw encoded henc
    simp only [decodePayload, parts_envelope wire _ (decodes_active hr).2, decodeEnvelopeBytes,
      hheld.resolve hr', hb64 encoded, hdecode, Except.mapError, bind, Except.bind, hparse]

end PayloadCodecs
end Harvest.Codec
