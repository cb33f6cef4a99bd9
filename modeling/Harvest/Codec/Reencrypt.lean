import Harvest.Codec.Stored

/-!
# The re-encryption step

Model of `codec_rotation.rs`: one stored value, one event and one column cell are moved to a
target key. The step stages every field before it writes one.

Proved here:
* `reencryptFieldUnder_ok`: what a successful step on one value leaves.
* `stageFields_ok`: the stage holds the candidates of the fields that moved.
* `eventSwept`, `cellSwept`: what the sweep leaves of an event and of a cell.
* `reencrypt_changes_ciphertext_only`: the contract of the sweep.
-/

namespace Harvest.Codec

open Json WorkflowEvent PayloadCodec Lib
open Std (TreeMap)

def erasureTombstoneKey : String := "_harvest_erased"

def isErasureTombstone (value : Json) : Bool :=
  match value.asObject with
  | some m => m.length = 1 && m.lookup erasureTombstoneKey = some (.bool true)
  | none => false

/-- The key id a payload was encoded under, `none` for what is no envelope. -/
def codecEnvelopeKeyId (payload : Json) : Option String :=
  (codecEnvelopeParts payload).map CodecEnvelopeParts.keyId

/-- What the step found in one stored value. -/
inductive FieldStep
  | erased
  | offloaded
  | plaintext
  | alreadyActive
  | reencrypted (candidate : Json)
deriving DecidableEq, Repr

/-- The value that a step would write. -/
def FieldStep.candidate : FieldStep → Option Json
  | .reencrypted candidate => some candidate
  | _ => none

structure ReencryptOutcome where
  fieldsReencrypted : Nat
  fieldsSkippedOffloaded : Nat
  fieldsSkippedErased : Nat
  fieldsAlreadyActive : Nat
deriving DecidableEq, Repr

def ReencryptOutcome.default : ReencryptOutcome := ⟨0, 0, 0, 0⟩

/-- Where the envelopes sit inside one cell. -/
inductive CellShape
  | cell
  | elements
  | field (key : String)
deriving DecidableEq, Repr

namespace PayloadCodecs

variable {C : Type} [PayloadCodec C]

section Step

-- `skims` is `serde_json::from_slice::<IgnoredAny>`, which checks that bytes are JSON.
variable (r : PayloadCodecs C) (wire : Wire) (skims : Bytes → Except String Unit)

/-- The plaintext of an envelope, `none` for what is no envelope. -/
def decodePayloadBytes (payload : Json) : Except HarvestError (Option Bytes) :=
  match codecEnvelopeParts payload with
  | none => .ok none
  | some parts => do
    let decoded ← r.decodeEnvelopeBytes wire parts
    (skims decoded).mapError .serialization
    .ok (some decoded)

def encodePayloadBytesUnder (seed : Nat) (keyId : String) (raw : Bytes) :
    Except HarvestError Json :=
  match r.keys[keyId]? with
  | none => .error (.unknownCodecKey keyId "")
  | some codec =>
    if codecId codec = "identity" then
      .error (.config ("refusing to encode under codec key id " ++ debugStr keyId ++
        ": it is registered to the identity codec, and writing its output would replace stored " ++
        "ciphertext with plaintext"))
    else do
      let encoded ← (encode codec seed raw).mapError fun e => .codec ("payload codec error: " ++ e)
      .ok (envelope wire (codecId codec) keyId encoded false)

def reencryptFieldUnder (seed : Nat) (targetKeyId : String) (field : Json) :
    Except HarvestError FieldStep :=
  if isErasureTombstone field then .ok .erased
  else if isOffloadEnvelope field then .ok .offloaded
  else
    match codecEnvelopeKeyId field with
    | none => .ok .plaintext
    | some keyId =>
      if keyId = targetKeyId then .ok .alreadyActive
      else do
        let plaintext ← r.decodePayloadBytes wire skims field
        match plaintext with
        | none => .error (.config
            "field matched codec_envelope_key_id but decode_payload_bytes found no envelope")
        | some bytes =>
          let candidate ← r.encodePayloadBytesUnder wire seed targetKeyId bytes
          .ok (.reencrypted candidate)

/-- One field of the loop: it counts, or it stages. -/
def note (key : String) (acc : ReencryptOutcome × List (String × Json)) :
    FieldStep → ReencryptOutcome × List (String × Json)
  | .erased => ({ acc.1 with fieldsSkippedErased := acc.1.fieldsSkippedErased + 1 }, acc.2)
  | .offloaded =>
    ({ acc.1 with fieldsSkippedOffloaded := acc.1.fieldsSkippedOffloaded + 1 }, acc.2)
  | .alreadyActive => ({ acc.1 with fieldsAlreadyActive := acc.1.fieldsAlreadyActive + 1 }, acc.2)
  | .plaintext => acc
  | .reencrypted candidate => (acc.1, acc.2 ++ [(key, candidate)])

/-- The loop over the payload fields that `data` has. It reads only. -/
def stageFields (seeds : String → Nat) (targetKeyId : String) (data : List (String × Json))
    (keys : List String) (acc : ReencryptOutcome × List (String × Json)) :
    Except HarvestError (ReencryptOutcome × List (String × Json)) :=
  keys.foldlM (fun acc key =>
    match data.lookup key with
    | none => .ok acc
    | some field => do
      let step ← r.reencryptFieldUnder wire skims (seeds key) targetKeyId field
      .ok (note key acc step)) acc

/-- Writes the stage into `data`. Each staged key is in `data`, so `insert` replaces. -/
def writeStaged (staged data : List (String × Json)) : List (String × Json) :=
  staged.foldl (fun data (key, value) => setField key value data) data

/-- The result, and the event value that the call leaves behind. -/
def reencryptEventPayloadFieldsUnder (seeds : String → Nat) (targetKeyId : String)
    (eventValue : Json) : Except HarvestError ReencryptOutcome × Json :=
  if ! r.anyKeys then (.ok .default, eventValue)
  else
    match (eventValue.get "data").bind asObject with
    | none => (.ok .default, eventValue)
    | some data =>
      match r.stageFields wire skims seeds targetKeyId data payloadFieldKeys (.default, []) with
      | .error e => (.error e, eventValue)
      | .ok (outcome, staged) =>
        if staged.isEmpty then (.ok outcome, eventValue)
        else
          (.ok { outcome with fieldsReencrypted := outcome.fieldsReencrypted + staged.length },
            withData (writeStaged staged data) eventValue)

def reencryptColumnValueUnder (seed : Nat) (targetKeyId : String) (value : Json) :
    Except HarvestError (Option Json) := do
  if ! r.anyKeys then .ok none
  else
    let step ← r.reencryptFieldUnder wire skims seed targetKeyId value
    .ok step.candidate

/-- The loop over the elements, with whether one of them moved. -/
def convertElements (seeds : Nat → Nat) (targetKeyId : String) :
    Nat → List Json → Except HarvestError (List Json × Bool)
  | _, [] => .ok ([], false)
  | n, item :: rest => do
    let step ← r.reencryptFieldUnder wire skims (seeds n) targetKeyId item
    let (converted, changed) ← convertElements seeds targetKeyId (n + 1) rest
    .ok (step.candidate.getD item :: converted, step.candidate.isSome || changed)

/-- Re-encodes one cell. `none` is nothing to write. -/
def reencryptColumnCellUnder (seeds : Nat → Nat) (targetKeyId : String) (shape : CellShape)
    (value : Json) : Except HarvestError (Option Json) :=
  match shape with
  | .cell => r.reencryptColumnValueUnder wire skims (seeds 0) targetKeyId value
  | .elements =>
    if ! r.anyKeys then .ok none
    else
      match value with
      | .arr items => do
        let (converted, changed) ← r.convertElements wire skims seeds targetKeyId 0 items
        .ok (if changed then some (.arr converted) else none)
      | _ => .ok none
  | .field key => do
    if ! r.anyKeys then .ok none
    else
      match value with
      | .obj fields =>
        match fields.lookup key with
        | none => .ok none
        | some field =>
          let step ← r.reencryptFieldUnder wire skims (seeds 0) targetKeyId field
          .ok (step.candidate.map fun candidate => .obj (setField key candidate fields))
      | _ => .ok none

end Step

end PayloadCodecs

/-- Whether a payload field carries another key id. -/
def hasNonActiveKey (eventValue : Json) (active : String) : Bool :=
  match (eventValue.get "data").bind asObject with
  | none => false
  | some data => payloadFieldKeys.any fun key =>
      ((data.lookup key).bind codecEnvelopeKeyId).any fun keyId => keyId ≠ active

/-- The key ids of the payload fields. -/
def eventKeyIds (eventValue : Json) : Finset String :=
  match (eventValue.get "data").bind asObject with
  | none => ∅
  | some data =>
    (payloadFieldKeys.filterMap fun key => (data.lookup key).bind codecEnvelopeKeyId).toFinset

/-! ## The shape tests are exclusive -/

theorem mem_of_lookup {fields : List (String × Json)} {key : String} {value : Json}
    (h : fields.lookup key = some value) : key ∈ fields.map Prod.fst := by
  induction fields with
  | nil => cases h
  | cons kv rest ih =>
    obtain ⟨k, v⟩ := kv
    rw [lookup_cons_ite] at h
    split_ifs at h with hk
    · simp [hk]
    · exact List.mem_cons_of_mem _ (ih h)

/-- An object has room for the keys it answers to. -/
theorem length_le_of_lookup {fields : List (String × Json)} {keys : List String}
    (hnodup : keys.Nodup) (h : ∀ key ∈ keys, (fields.lookup key).isSome) :
    keys.length ≤ fields.length := by
  have hsub : keys ⊆ fields.map Prod.fst := by
    intro key hkey
    obtain ⟨value, hvalue⟩ := Option.isSome_iff_exists.mp (h key hkey)
    exact mem_of_lookup hvalue
  simpa using (List.subperm_of_subset hnodup hsub).length_le

/-- The keys that an envelope answers to, and no object of its size has room for another. -/
theorem envelope_keys {fields : List (String × Json)} {parts : CodecEnvelopeParts}
    (h : codecEnvelopeParts (.obj fields) = some parts) :
    ∃ keys : List String, keys.length = fields.length ∧ keys.Nodup ∧
      (∀ key ∈ keys, (fields.lookup key).isSome) ∧
      keys ⊆ [codecEnvelopeKey, "codec_id", codecEnvelopeKidKey, "data"] := by
  unfold codecEnvelopeParts at h
  have hobj : (Json.obj fields).asObject = some fields := rfl
  simp only [hobj, Option.bind_eq_bind, Option.bind_some] at h
  obtain ⟨marker, hmarker, h⟩ := Option.bind_eq_some_iff.mp h
  cases hnested : marker.asObject with
  | some nested =>
    simp only [hnested, parseNestedEnvelope] at h
    split_ifs at h with hlen
    refine ⟨[codecEnvelopeKey], ?_, by simp, ?_, by simp⟩
    · simpa using (not_not.mp hlen).symm
    · simp only [List.forall_mem_singleton, hmarker, Option.isSome_some]
  | none =>
    simp only [hnested, parseFlatEnvelope, Option.bind_eq_bind] at h
    obtain ⟨version, -, h⟩ := Option.bind_eq_some_iff.mp h
    obtain ⟨id, hid, h⟩ := Option.bind_eq_some_iff.mp h
    obtain ⟨idValue, hidValue, -⟩ := Option.bind_eq_some_iff.mp hid
    obtain ⟨data, hdata, h⟩ := Option.bind_eq_some_iff.mp h
    obtain ⟨dataValue, hdataValue, -⟩ := Option.bind_eq_some_iff.mp hdata
    split_ifs at h with hlegacy hkeyed
    · refine ⟨[codecEnvelopeKey, "codec_id", "data"], by simp [hlegacy.2], by decide, ?_, by simp⟩
      simp [-List.lookup_isSome_iff, hmarker, hidValue, hdataValue]
    · obtain ⟨kid, hkid, -⟩ := Option.bind_eq_some_iff.mp h
      obtain ⟨kidText, hkidText, -⟩ := Option.bind_eq_some_iff.mp hkid
      obtain ⟨kidValue, hkidValue, -⟩ := Option.bind_eq_some_iff.mp hkidText
      refine ⟨[codecEnvelopeKey, "codec_id", codecEnvelopeKidKey, "data"], by simp [hkeyed.2],
        by decide, ?_, by simp⟩
      simp [-List.lookup_isSome_iff, hmarker, hidValue, hdataValue, hkidValue]

/-- What answers to a foreign key is no envelope. -/
theorem codecEnvelopeKeyId_of_foreign {fields : List (String × Json)} {key : String} {value : Json}
    (hkey : key ∉ [codecEnvelopeKey, "codec_id", codecEnvelopeKidKey, "data"])
    (hlookup : fields.lookup key = some value) : codecEnvelopeKeyId (.obj fields) = none := by
  unfold codecEnvelopeKeyId
  cases hparts : codecEnvelopeParts (.obj fields) with
  | none => rfl
  | some parts =>
    obtain ⟨keys, hlen, hnodup, hall, hsub⟩ := envelope_keys hparts
    have hroom : (key :: keys).length ≤ fields.length := by
      refine length_le_of_lookup (List.nodup_cons.mpr ⟨fun hmem => hkey (hsub hmem), hnodup⟩) ?_
      intro k hk
      rcases List.mem_cons.mp hk with rfl | hk
      · rw [hlookup, Option.isSome_some]
      · exact hall k hk
    simp only [List.length_cons] at hroom
    omega

theorem codecEnvelopeKeyId_of_tombstone {value : Json} (h : isErasureTombstone value = true) :
    codecEnvelopeKeyId value = none := by
  cases value with
  | obj fields =>
    simp only [isErasureTombstone, asObject, Bool.and_eq_true, decide_eq_true_eq] at h
    exact codecEnvelopeKeyId_of_foreign (by decide) h.2
  | _ => rfl

theorem codecEnvelopeKeyId_of_offload {value : Json} (h : isOffloadEnvelope value = true) :
    codecEnvelopeKeyId value = none := by
  cases value with
  | obj fields =>
    have hmarker : (fields.lookup offloadEnvelopeKey).bind asI64 = some 1 := of_decide_eq_true h
    obtain ⟨marker, hmarker, -⟩ := Option.bind_eq_some_iff.mp hmarker
    exact codecEnvelopeKeyId_of_foreign (by decide) hmarker
  | _ => rfl

/-! ## One value -/

namespace PayloadCodecs

variable {C : Type} [PayloadCodec C]

/-- What every registry has, whatever was registered: the mirror is set once there is a key,
and every key id passed its check. -/
structure Keyed (r : PayloadCodecs C) : Prop where
  anyKeys : ∀ keyId ∈ r.keys, r.anyKeys = true
  key_valid : ∀ keyId ∈ r.keys, ValidKeyId keyId

theorem keyed_step {r : PayloadCodecs C} (op : Op C) (hr : r.Keyed) : (r.step op).Keyed := by
  refine step_cases op ?_ hr
  intro r' h
  cases op with
  | registerKey keyId codec =>
    obtain ⟨hvalid, -, rfl⟩ := registerKey_ok h
    refine ⟨fun _ _ => rfl, fun k hk => ?_⟩
    rcases TreeMap.mem_insert.mp hk with hk | hk
    · exact compare_eq_iff_eq.mp hk ▸ hvalid
    · exact hr.key_valid k hk
  | setActiveKey keyId =>
    obtain ⟨-, rfl⟩ := setActiveKey_ok h
    exact ⟨hr.anyKeys, hr.key_valid⟩
  | pin keyId =>
    cases h
    exact ⟨hr.anyKeys, hr.key_valid⟩
  | unpin keyId =>
    cases h
    rw [unpinKeyForSweep_eq]
    exact ⟨hr.anyKeys, hr.key_valid⟩
  | retireKeyLocal keyId =>
    obtain ⟨-, -, rfl⟩ := retireKeyLocal_ok h
    refine ⟨fun k hk => ?_, fun k hk => hr.key_valid k (TreeMap.mem_erase.mp hk).2⟩
    simp only [Bool.not_eq_true', TreeMap.isEmpty_eq_false_iff_exists_mem]
    exact ⟨k, hk⟩
  | setDefault codec =>
    cases h
    exact ⟨hr.anyKeys, hr.key_valid⟩
  | register codec =>
    cases h
    exact ⟨hr.anyKeys, hr.key_valid⟩

theorem keyed_after (ops : List (Op C)) : (after ops).Keyed := by
  have hrun (r : PayloadCodecs C) (hr : r.Keyed) : (exec step r ops).Keyed := by
    induction ops generalizing r with
    | nil => exact hr
    | cons op rest ih => exact ih _ (keyed_step op hr)
  exact hrun new ⟨by simp [new], by simp [new]⟩

section Field

variable {r : PayloadCodecs C} {wire : Wire} {skims : Bytes → Except String Unit}
  {targetKeyId : String}

/-- A step that leaves only envelopes of the target key finds nothing to write. -/
theorem reencryptFieldUnder_settled {field : Json} (seed : Nat)
    (h : ∀ keyId, codecEnvelopeKeyId field = some keyId → keyId = targetKeyId) :
    ∃ step, r.reencryptFieldUnder wire skims seed targetKeyId field = .ok step ∧
      step.candidate = none := by
  unfold reencryptFieldUnder
  split_ifs
  · exact ⟨_, rfl, rfl⟩
  · exact ⟨_, rfl, rfl⟩
  · cases hkey : codecEnvelopeKeyId field with
    | none => exact ⟨_, rfl, rfl⟩
    | some keyId => exact ⟨.alreadyActive, by simp [h keyId hkey], rfl⟩

/-- What a candidate is: an envelope of the target key around the plaintext of the field. -/
theorem encodePayloadBytesUnder_ok (hr : r.Keyed) (hb64 : wire.LosslessBase64)
    (hinv : ∀ codec : C, Inverts codec) {seed : Nat} {raw : Bytes} {candidate : Json}
    (h : r.encodePayloadBytesUnder wire seed targetKeyId raw = .ok candidate) :
    ∃ parts, codecEnvelopeParts candidate = some parts ∧ parts.keyId = targetKeyId ∧
      r.decodeEnvelopeBytes wire parts = .ok raw := by
  unfold encodePayloadBytesUnder at h
  cases hcodec : r.keys[targetKeyId]? with
  | none => simp [hcodec] at h
  | some codec =>
    simp only [hcodec] at h
    split_ifs at h
    cases henc : encode codec seed raw with
    | error e => simp [henc, Except.mapError, bind, Except.bind] at h
    | ok encoded =>
      simp only [henc, Except.mapError, bind, Except.bind] at h
      cases h
      have hmem : targetKeyId ∈ r.keys := mem_keys_iff.mpr ⟨codec, hcodec⟩
      refine ⟨_, parts_envelope wire _ (hr.key_valid _ hmem) encoded false, ?_, ?_⟩
      · exact getD_kidOf targetKeyId
      · have hresolve : r.resolveDecoder ⟨codecId codec, kidOf targetKeyId, wire.b64Encode encoded⟩ =
            some codec := by
          simp [resolveDecoder, CodecEnvelopeParts.keyId, getD_kidOf, hr.anyKeys _ hmem, hcodec]
        simp only [decodeEnvelopeBytes, hresolve, hb64 encoded,
          inverts_dyn hinv codec seed raw encoded henc, Except.mapError, bind, Except.bind]

/-- How a stored value relates to what the step leaves in its place. -/
structure Moved (r : PayloadCodecs C) (wire : Wire) (skims : Bytes → Except String Unit)
    (targetKeyId : String) (field field' : Json) : Prop where
  /-- An envelope is now one of the target key, with the same plaintext. -/
  envelope : isCodecEnvelope field → codecEnvelopeKeyId field' = some targetKeyId ∧
    r.decodePayloadBytes wire skims field' = r.decodePayloadBytes wire skims field
  /-- What is no envelope stays. -/
  other : ¬ isCodecEnvelope field → field' = field

theorem Moved.keyId {field field' : Json} (h : Moved r wire skims targetKeyId field field')
    (keyId : String) (hkey : codecEnvelopeKeyId field' = some keyId) : keyId = targetKeyId := by
  by_cases henv : isCodecEnvelope field
  · exact Option.some.inj (hkey.symm.trans (h.envelope henv).1)
  · rw [h.other henv, codecEnvelopeKeyId] at hkey
    simp only [isCodecEnvelope, Bool.not_eq_true, Option.isSome_eq_false_iff,
      Option.isNone_iff_eq_none] at henv
    rw [henv] at hkey
    cases hkey

/-- **One value.** A successful step writes only over an envelope of another key. -/
theorem reencryptFieldUnder_ok (hr : r.Keyed) (hb64 : wire.LosslessBase64)
    (hinv : ∀ codec : C, Inverts codec) {seed : Nat} {field : Json} {step : FieldStep}
    (h : r.reencryptFieldUnder wire skims seed targetKeyId field = .ok step) :
    Moved r wire skims targetKeyId field (step.candidate.getD field) ∧
      (step.candidate.isSome → isCodecEnvelope field) := by
  have hplain (hnone : codecEnvelopeKeyId field = none) : Moved r wire skims targetKeyId field field := by
    refine ⟨fun henv => ?_, fun _ => rfl⟩
    rw [codecEnvelopeKeyId, Option.map_eq_none_iff] at hnone
    simp [isCodecEnvelope, hnone] at henv
  unfold reencryptFieldUnder at h
  split_ifs at h with htomb hoff
  · cases h
    exact ⟨hplain (codecEnvelopeKeyId_of_tombstone htomb), by simp [FieldStep.candidate]⟩
  · cases h
    exact ⟨hplain (codecEnvelopeKeyId_of_offload hoff), by simp [FieldStep.candidate]⟩
  · cases hkey : codecEnvelopeKeyId field with
    | none =>
      simp only [hkey] at h
      cases h
      exact ⟨hplain hkey, by simp [FieldStep.candidate]⟩
    | some keyId =>
      simp only [hkey] at h
      obtain ⟨parts, hparts, -⟩ := Option.map_eq_some_iff.mp hkey
      have henv : isCodecEnvelope field := by simp [isCodecEnvelope, hparts]
      split_ifs at h with hid
      · cases h
        exact ⟨⟨fun _ => ⟨by rw [← hid]; exact hkey, rfl⟩, fun _ => rfl⟩,
          by simp [FieldStep.candidate]⟩
      · -- The plaintext came out of the old envelope and goes into the new one.
        cases hold : r.decodePayloadBytes wire skims field with
        | error e => simp [hold, bind, Except.bind] at h
        | ok plaintext =>
          cases plaintext with
          | none => simp [hold, bind, Except.bind] at h
          | some bytes =>
            cases hnew : r.encodePayloadBytesUnder wire seed targetKeyId bytes with
            | error e => simp [hold, hnew, bind, Except.bind] at h
            | ok candidate =>
              simp only [hold, hnew, bind, Except.bind] at h
              cases h
              obtain ⟨parts', hparts', hkeyId, hdecoded⟩ :=
                encodePayloadBytesUnder_ok hr hb64 hinv hnew
              have hskims : skims bytes = .ok () := by
                simp only [decodePayloadBytes, hparts] at hold
                cases hd : r.decodeEnvelopeBytes wire parts with
                | error e => simp [hd, bind, Except.bind] at hold
                | ok decoded =>
                  cases hs : skims decoded with
                  | error e => simp [hd, hs, Except.mapError, bind, Except.bind] at hold
                  | ok u =>
                    simp only [hd, hs, Except.mapError, bind, Except.bind, Except.ok.injEq,
                      Option.some.injEq] at hold
                    rw [← hold, hs]
              refine ⟨⟨fun _ => ⟨?_, ?_⟩, fun hnot => absurd henv hnot⟩, fun _ => henv⟩
              · simp [FieldStep.candidate, codecEnvelopeKeyId, hparts', hkeyId]
              · rw [hold]
                simp [FieldStep.candidate, decodePayloadBytes, hparts', hdecoded, hskims,
                  Except.mapError, bind, Except.bind]

end Field

/-! ## An event -/

section Event

variable {r : PayloadCodecs C} {wire : Wire} {skims : Bytes → Except String Unit}
  {targetKeyId : String} {seeds : String → Nat} {data : List (String × Json)}

/-- What the loop stages for a key. -/
def candidateAt (r : PayloadCodecs C) (wire : Wire) (skims : Bytes → Except String Unit)
    (seeds : String → Nat) (targetKeyId : String) (data : List (String × Json)) (key : String) :
    Option Json :=
  (data.lookup key).bind fun field =>
    match r.reencryptFieldUnder wire skims (seeds key) targetKeyId field with
    | .ok step => step.candidate
    | .error _ => none

omit [PayloadCodec C] in
theorem note_eq (key : String) (acc : ReencryptOutcome × List (String × Json)) (step : FieldStep) :
    (note key acc step).1.fieldsReencrypted = acc.1.fieldsReencrypted ∧
      (note key acc step).2 = acc.2 ++ (step.candidate.map fun c => (key, c)).toList := by
  cases step <;> simp [note, FieldStep.candidate]

/-- The loop stages the candidates in order, and every field it read stepped. -/
theorem stageFields_ok {keys : List String} {acc result : ReencryptOutcome × List (String × Json)}
    (h : r.stageFields wire skims seeds targetKeyId data keys acc = .ok result) :
    (∀ key ∈ keys, ∀ field, data.lookup key = some field →
      ∃ step, r.reencryptFieldUnder wire skims (seeds key) targetKeyId field = .ok step) ∧
      result.1.fieldsReencrypted = acc.1.fieldsReencrypted ∧
      result.2 = acc.2 ++ keys.filterMap fun key =>
        (r.candidateAt wire skims seeds targetKeyId data key).map fun c => (key, c) := by
  induction keys generalizing acc with
  | nil =>
    cases h
    simp
  | cons key keys ih =>
    simp only [stageFields, List.foldlM_cons] at h
    cases hlookup : data.lookup key with
    | none =>
      simp only [hlookup, bind, Except.bind] at h
      obtain ⟨hsteps, hcount, hstaged⟩ := ih h
      refine ⟨?_, hcount, ?_⟩
      · intro k hk field hfield
        rcases List.mem_cons.mp hk with rfl | hk
        · rw [hlookup] at hfield
          cases hfield
        · exact hsteps k hk field hfield
      · simp [hstaged, candidateAt, hlookup]
    | some field =>
      cases hstep : r.reencryptFieldUnder wire skims (seeds key) targetKeyId field with
      | error e => simp [hlookup, hstep, bind, Except.bind] at h
      | ok step =>
        simp only [hlookup, hstep, bind, Except.bind] at h
        obtain ⟨hsteps, hcount, hstaged⟩ := ih h
        obtain ⟨hnoteCount, hnoteStaged⟩ := note_eq key acc step
        refine ⟨?_, hcount.trans hnoteCount, ?_⟩
        · intro k hk field' hfield
          rcases List.mem_cons.mp hk with rfl | hk
          · rw [hlookup] at hfield
            cases hfield
            exact ⟨step, hstep⟩
          · exact hsteps k hk field' hfield
        · have hcandidate : r.candidateAt wire skims seeds targetKeyId data key =
              step.candidate := by
            simp [candidateAt, hlookup, hstep]
          rw [hstaged, hnoteStaged, List.filterMap_cons, hcandidate, List.append_assoc]
          cases step.candidate <;> rfl

/-- A loop in which every field is settled stages nothing. -/
theorem stageFields_settled (keys : List String)
    (h : ∀ key ∈ keys, ∀ field, data.lookup key = some field →
      ∀ keyId, codecEnvelopeKeyId field = some keyId → keyId = targetKeyId)
    (acc : ReencryptOutcome × List (String × Json)) :
    ∃ outcome, r.stageFields wire skims seeds targetKeyId data keys acc = .ok (outcome, acc.2) ∧
      outcome.fieldsReencrypted = acc.1.fieldsReencrypted := by
  induction keys generalizing acc with
  | nil => exact ⟨acc.1, rfl, rfl⟩
  | cons key keys ih =>
    have hrest := ih fun k hk => h k (List.mem_cons_of_mem _ hk)
    cases hlookup : data.lookup key with
    | none =>
      obtain ⟨outcome, hrun, hcount⟩ := hrest acc
      refine ⟨outcome, ?_, hcount⟩
      simpa [stageFields, List.foldlM_cons, hlookup, bind, Except.bind] using hrun
    | some field =>
      obtain ⟨step, hstep, hnone⟩ : ∃ step,
          r.reencryptFieldUnder wire skims (seeds key) targetKeyId field = .ok step ∧
            step.candidate = none :=
        reencryptFieldUnder_settled (seeds key) (h key List.mem_cons_self field hlookup)
      obtain ⟨hnoteCount, hnoteStaged⟩ := note_eq key acc step
      obtain ⟨outcome, hrun, hcount⟩ := hrest (note key acc step)
      rw [hnoteStaged, hnone] at hrun
      refine ⟨outcome, ?_, hcount.trans hnoteCount⟩
      simpa [stageFields, List.foldlM_cons, hlookup, hstep, bind, Except.bind] using hrun

omit [PayloadCodec C] in
theorem writeStaged_eq (g : String → Option Json) {keys : List String} (hnodup : keys.Nodup)
    (data : List (String × Json)) :
    writeStaged (keys.filterMap fun key => (g key).map fun c => (key, c)) data =
      data.map fun (k, v) => (k, if k ∈ keys then (g k).getD v else v) := by
  induction keys generalizing data with
  | nil => simp [writeStaged]
  | cons key keys ih =>
    obtain ⟨hnew, hnodup⟩ := List.nodup_cons.mp hnodup
    cases hg : g key with
    | none =>
      rw [List.filterMap_cons, hg, Option.map_none, ih hnodup]
      apply List.map_congr_left
      rintro ⟨k, v⟩ -
      by_cases hk : k = key
      · subst hk
        simp [hnew, hg]
      · simp [hk]
    | some c =>
      rw [List.filterMap_cons, hg, Option.map_some]
      show writeStaged _ (setField key c data) = _
      rw [ih hnodup, setField, List.map_map]
      apply List.map_congr_left
      rintro ⟨k, v⟩ -
      by_cases hk : k = key
      · subst hk
        simp [hnew, hg]
      · simp [hk]

omit [PayloadCodec C] in
theorem get_withData {value : Json} {data : List (String × Json)}
    (h : (value.get "data").bind asObject = some data) (data' : List (String × Json)) :
    ((withData data' value).get "data").bind asObject = some data' := by
  cases value with
  | obj fields =>
    obtain ⟨old, hold, -⟩ := Option.bind_eq_some_iff.mp h
    have hlookup : fields.lookup "data" = some old := hold
    have hwith : withData data' (.obj fields) = .obj (setField "data" (.obj data') fields) := by
      simp only [withData, h]
    have hget : (Json.obj (setField "data" (.obj data') fields)).get "data" = some (.obj data') := by
      show (setField "data" (.obj data') fields).lookup "data" = _
      rw [lookup_setField, hlookup]
      rfl
    rw [hwith, hget]
    rfl
  | _ => cases h

/-- Every payload field that is an envelope is one of the target key. -/
def Settled (targetKeyId : String) (value : Json) : Prop :=
  ∀ key ∈ payloadFieldKeys, ∀ field, (dataFields value).lookup key = some field →
    ∀ keyId, codecEnvelopeKeyId field = some keyId → keyId = targetKeyId

omit [PayloadCodec C] in
theorem dataFields_of_get {value : Json} {data : List (String × Json)}
    (h : (value.get "data").bind asObject = some data) : dataFields value = data := by
  simp [dataFields, h]

omit [PayloadCodec C] in
/-- **The pre-check and the census agree with the step** on what is settled. -/
theorem Settled.checks {value : Json} (h : Settled targetKeyId value) :
    hasNonActiveKey value targetKeyId = false ∧ eventKeyIds value ⊆ {targetKeyId} := by
  unfold hasNonActiveKey eventKeyIds
  cases hdata : (value.get "data").bind asObject with
  | none => exact ⟨rfl, Finset.empty_subset _⟩
  | some data =>
    unfold Settled at h
    rw [dataFields_of_get hdata] at h
    constructor
    · rw [List.any_eq_false]
      intro key hkey hany
      cases hkeyId : (data.lookup key).bind codecEnvelopeKeyId with
      | none => simp [hkeyId] at hany
      | some keyId =>
        obtain ⟨field, hfield, hid⟩ := Option.bind_eq_some_iff.mp hkeyId
        rw [hkeyId] at hany
        exact absurd (h key hkey field hfield _ hid) (by simpa using hany)
    · intro keyId hmem
      obtain ⟨key, hkey, hid⟩ := List.mem_filterMap.mp (List.mem_toFinset.mp hmem)
      obtain ⟨field, hfield, hid⟩ := Option.bind_eq_some_iff.mp hid
      exact Finset.mem_singleton.mpr (h key hkey field hfield _ hid)

theorem Settled.again {value : Json} (h : Settled targetKeyId value) (seeds : String → Nat) :
    ∃ again, r.reencryptEventPayloadFieldsUnder wire skims seeds targetKeyId value =
      (.ok again, value) ∧ again.fieldsReencrypted = 0 := by
  unfold reencryptEventPayloadFieldsUnder
  split_ifs with hany
  · exact ⟨_, rfl, rfl⟩
  · cases hdata : (value.get "data").bind asObject with
    | none => exact ⟨_, rfl, rfl⟩
    | some data =>
      unfold Settled at h
      rw [dataFields_of_get hdata] at h
      obtain ⟨outcome, hstage, hcount⟩ : ∃ outcome,
          r.stageFields wire skims seeds targetKeyId data payloadFieldKeys (.default, []) =
            .ok (outcome, []) ∧ outcome.fieldsReencrypted = 0 :=
        stageFields_settled payloadFieldKeys h (.default, [])
      exact ⟨outcome, by simp [hstage], hcount⟩

theorem reencryptEvent_error {value value' : Json} {e : HarvestError}
    (hrun : r.reencryptEventPayloadFieldsUnder wire skims seeds targetKeyId value =
      (.error e, value')) : value' = value := by
  unfold reencryptEventPayloadFieldsUnder at hrun
  split_ifs at hrun
  · exact (Prod.mk.inj hrun).2.symm
  · cases hdata : (value.get "data").bind asObject with
    | none =>
      rw [hdata] at hrun
      exact (Prod.mk.inj hrun).2.symm
    | some data =>
      cases hstage : r.stageFields wire skims seeds targetKeyId data payloadFieldKeys
          (.default, []) with
      | error e' =>
        simp only [hdata, hstage] at hrun
        exact (Prod.mk.inj hrun).2.symm
      | ok staged =>
        simp only [hdata, hstage] at hrun
        split_ifs at hrun <;> cases (Prod.mk.inj hrun).1

omit [PayloadCodec C] in
theorem lookup_mapFields_other (g : String → Json → Json) (fields : List (String × Json))
    {key : String} (hkey : key ∉ payloadFieldKeys) :
    (mapFields g fields).lookup key = fields.lookup key := by
  induction fields with
  | nil => rfl
  | cons kv rest ih =>
    obtain ⟨k, v⟩ := kv
    rw [mapFields_cons, lookup_cons_ite, lookup_cons_ite, ih]
    by_cases h : key = k
    · subst h
      simp [hkey]
    · simp [h]

/-- What a run that succeeds does to the payload fields. -/
theorem reencryptEvent_ok (hr : r.Keyed) (hregistered : targetKeyId ∈ r.keys)
    (hb64 : wire.LosslessBase64) (hinv : ∀ codec : C, Inverts codec) {value value' : Json}
    {outcome : ReencryptOutcome}
    (hrun : r.reencryptEventPayloadFieldsUnder wire skims seeds targetKeyId value =
      (.ok outcome, value')) :
    (value' = value ∨ value' = withData (dataFields value') value) ∧
      ∃ g : String → Json → Json, dataFields value' = mapFields g (dataFields value) ∧
        ∀ key ∈ payloadFieldKeys, ∀ field, (dataFields value).lookup key = some field →
          Moved r wire skims targetKeyId field (g key field) := by
  unfold reencryptEventPayloadFieldsUnder at hrun
  simp only [hr.anyKeys _ hregistered, Bool.not_true, Bool.false_eq_true, if_false] at hrun
  cases hdata : (value.get "data").bind asObject with
  | none =>
    simp only [hdata, Prod.mk.injEq] at hrun
    obtain ⟨-, rfl⟩ := hrun
    refine ⟨Or.inl rfl, fun _ v => v, ?_, ?_⟩
    · simp [dataFields, hdata, mapFields]
    · simp [dataFields, hdata]
  | some data =>
    cases hstage : r.stageFields wire skims seeds targetKeyId data payloadFieldKeys (.default, []) with
    | error e => simp [hdata, hstage] at hrun
    | ok staged =>
      obtain ⟨outcome', staged⟩ := staged
      obtain ⟨hsteps, -, hstaged⟩ := stageFields_ok hstage
      have hdataFields := dataFields_of_get hdata
      let g := r.candidateAt wire skims seeds targetKeyId data
      have hwrite : writeStaged staged data = mapFields (fun k v => (g k).getD v) data := by
        rw [show staged = _ from hstaged, List.nil_append,
          writeStaged_eq g payloadFieldKeys_nodup data]
        rfl
      have hmoved : ∀ key ∈ payloadFieldKeys, ∀ field, data.lookup key = some field →
          Moved r wire skims targetKeyId field ((g key).getD field) := by
        intro key hkey field hfield
        obtain ⟨step, hstep⟩ := hsteps key hkey field hfield
        have hcandidate : g key = step.candidate := by
          simp [g, candidateAt, hfield, hstep]
        rw [hcandidate]
        exact (reencryptFieldUnder_ok hr hb64 hinv hstep).1
      have hresult : value' = value ∧ staged = [] ∨ value' = withData (writeStaged staged data) value := by
        simp only [hdata, hstage] at hrun
        split_ifs at hrun with hempty
        · exact Or.inl ⟨(Prod.mk.inj hrun).2.symm, List.isEmpty_iff.mp hempty⟩
        · exact Or.inr (Prod.mk.inj hrun).2.symm
      rcases hresult with ⟨rfl, rfl⟩ | rfl
      · refine ⟨Or.inl rfl, fun k v => (g k).getD v, ?_, by rwa [hdataFields]⟩
        rw [hdataFields, ← hwrite]
        rfl
      · have hfields := dataFields_of_get (get_withData hdata (writeStaged staged data))
        refine ⟨Or.inr (by rw [hfields]), fun k v => (g k).getD v, ?_, by rwa [hdataFields]⟩
        rw [hfields, hwrite, hdataFields]

/-- What a run that succeeds leaves of an event. -/
structure EventSwept (r : PayloadCodecs C) (wire : Wire) (skims : Bytes → Except String Unit)
    (targetKeyId : String) (value value' : Json) : Prop where
  moved : ∀ key ∈ payloadFieldKeys, ∀ field, (dataFields value).lookup key = some field →
    ∃ field', (dataFields value').lookup key = some field' ∧
      Moved r wire skims targetKeyId field field'
  /-- Outside `data` the value is the same. -/
  frame : value' = value ∨ value' = withData (dataFields value') value
  keys : (dataFields value').map Prod.fst = (dataFields value).map Prod.fst
  others : ∀ key ∉ payloadFieldKeys, (dataFields value').lookup key = (dataFields value).lookup key
  check : hasNonActiveKey value' targetKeyId = false
  census : eventKeyIds value' ⊆ {targetKeyId}
  again : ∀ seeds, ∃ outcome,
    r.reencryptEventPayloadFieldsUnder wire skims seeds targetKeyId value' = (.ok outcome, value') ∧
      outcome.fieldsReencrypted = 0

theorem eventSwept (hr : r.Keyed) (hregistered : targetKeyId ∈ r.keys)
    (hb64 : wire.LosslessBase64) (hinv : ∀ codec : C, Inverts codec) {value value' : Json}
    {outcome : ReencryptOutcome}
    (hrun : r.reencryptEventPayloadFieldsUnder wire skims seeds targetKeyId value =
      (.ok outcome, value')) : EventSwept r wire skims targetKeyId value value' := by
  obtain ⟨hframe, g, hfields, hmoved⟩ := reencryptEvent_ok hr hregistered hb64 hinv hrun
  have hsettled : Settled targetKeyId value' := by
    intro key hkey field' hfield' keyId hkeyId
    rw [hfields, lookup_mapFields g _ hkey] at hfield'
    obtain ⟨field, hfield, rfl⟩ := Option.map_eq_some_iff.mp hfield'
    exact (hmoved key hkey field hfield).keyId keyId hkeyId
  constructor
  case moved =>
    intro key hkey field hfield
    refine ⟨g key field, ?_, hmoved key hkey field hfield⟩
    rw [hfields, lookup_mapFields g _ hkey, hfield]
    rfl
  case frame => exact hframe
  case keys =>
    rw [hfields, mapFields, List.map_map]
    rfl
  case others =>
    intro key hkey
    rw [hfields, lookup_mapFields_other g _ hkey]
  case check => exact hsettled.checks.1
  case census => exact hsettled.checks.2
  case again => exact hsettled.again

end Event

/-! ## A cell -/

section Cell

variable {r : PayloadCodecs C} {wire : Wire} {skims : Bytes → Except String Unit}
  {targetKeyId : String}

/-- The stored values of a cell that the sweep looks at. -/
def cellValues (shape : CellShape) (value : Json) : List Json :=
  match shape with
  | .cell => [value]
  | .elements =>
    match value with
    | .arr items => items
    | _ => []
  | .field key => (value.get key).toList

/-- What the column holds after the call. -/
def cellAfter (result : Except HarvestError (Option Json)) (value : Json) : Json :=
  match result with
  | .ok (some converted) => converted
  | _ => value

/-- The cell is the same outside the values that the sweep looks at. -/
def SameFrame (shape : CellShape) (value value' : Json) : Prop :=
  match shape with
  | .cell => True
  | .elements => (∃ items items', value = .arr items ∧ value' = .arr items') ∨ value' = value
  | .field key => value' = value ∨
      ∃ fields field', value = .obj fields ∧ value' = .obj (setField key field' fields)

theorem convertElements_ok (hr : r.Keyed) (hb64 : wire.LosslessBase64)
    (hinv : ∀ codec : C, Inverts codec) {seeds : Nat → Nat} {n : Nat} {items converted : List Json}
    {changed : Bool}
    (h : r.convertElements wire skims seeds targetKeyId n items = .ok (converted, changed)) :
    List.Forall₂ (Moved r wire skims targetKeyId) items converted ∧
      (changed = false → converted = items) := by
  induction items generalizing n converted changed with
  | nil =>
    cases h
    exact ⟨.nil, fun _ => rfl⟩
  | cons item rest ih =>
    cases hstep : r.reencryptFieldUnder wire skims (seeds n) targetKeyId item with
    | error e => simp [convertElements, hstep, bind, Except.bind] at h
    | ok step =>
      cases hrest : r.convertElements wire skims seeds targetKeyId (n + 1) rest with
      | error e => simp [convertElements, hstep, hrest, bind, Except.bind] at h
      | ok tail =>
        simp only [convertElements, hstep, hrest, bind, Except.bind, Except.ok.injEq,
          Prod.mk.injEq] at h
        obtain ⟨rfl, rfl⟩ := h
        obtain ⟨hmoved, hsame⟩ := ih hrest
        refine ⟨.cons (reencryptFieldUnder_ok hr hb64 hinv hstep).1 hmoved, ?_⟩
        intro hunchanged
        obtain ⟨hnone, htail⟩ := Bool.or_eq_false_iff.mp hunchanged
        rw [hsame htail, Option.isSome_eq_false_iff.mp hnone |> Option.isNone_iff_eq_none.mp]
        rfl

theorem convertElements_settled {seeds : Nat → Nat} {items : List Json} (n : Nat)
    (h : ∀ item ∈ items, ∀ keyId, codecEnvelopeKeyId item = some keyId → keyId = targetKeyId) :
    r.convertElements wire skims seeds targetKeyId n items = .ok (items, false) := by
  induction items generalizing n with
  | nil => rfl
  | cons item rest ih =>
    obtain ⟨step, hstep, hnone⟩ : ∃ step,
        r.reencryptFieldUnder wire skims (seeds n) targetKeyId item = .ok step ∧
          step.candidate = none :=
      reencryptFieldUnder_settled (seeds n) (h item List.mem_cons_self)
    have hrest := ih (n + 1) fun item hitem => h item (List.mem_cons_of_mem _ hitem)
    simp [convertElements, hstep, hrest, hnone, bind, Except.bind]

/-- A settled cell has nothing to write. -/
theorem cell_settled {shape : CellShape} {value : Json} (seeds : Nat → Nat)
    (h : ∀ field ∈ cellValues shape value,
      ∀ keyId, codecEnvelopeKeyId field = some keyId → keyId = targetKeyId) :
    r.reencryptColumnCellUnder wire skims seeds targetKeyId shape value = .ok none := by
  have hfield (field : Json) (hmem : field ∈ cellValues shape value) : ∃ step,
      r.reencryptFieldUnder wire skims (seeds 0) targetKeyId field = .ok step ∧
        step.candidate = none :=
    reencryptFieldUnder_settled (seeds 0) (h field hmem)
  cases hany : r.anyKeys with
  | false =>
    cases shape <;> simp [reencryptColumnCellUnder, reencryptColumnValueUnder, hany]
  | true =>
    cases shape with
    | cell =>
      obtain ⟨step, hstep, hnone⟩ := hfield value (by simp [cellValues])
      simp [reencryptColumnCellUnder, reencryptColumnValueUnder, hany, hstep, hnone, bind,
        Except.bind]
    | elements =>
      cases value with
      | arr items =>
        have hsettled : r.convertElements wire skims seeds targetKeyId 0 items = .ok (items, false) :=
          convertElements_settled 0 h
        simp [reencryptColumnCellUnder, hany, hsettled, bind, Except.bind]
      | _ => simp [reencryptColumnCellUnder, hany]
    | field key =>
      cases value with
      | obj fields =>
        cases hlookup : fields.lookup key with
        | none => simp [reencryptColumnCellUnder, hany, hlookup]
        | some field =>
          obtain ⟨step, hstep, hnone⟩ := hfield field (by simp [cellValues, Json.get, hlookup])
          simp [reencryptColumnCellUnder, hany, hlookup, hstep, hnone, bind, Except.bind]
      | _ => simp [reencryptColumnCellUnder, hany]

/-- What a call that succeeds leaves of a cell. -/
structure CellSwept (r : PayloadCodecs C) (wire : Wire) (skims : Bytes → Except String Unit)
    (targetKeyId : String) (shape : CellShape) (value value' : Json) : Prop where
  moved : List.Forall₂ (Moved r wire skims targetKeyId) (cellValues shape value)
    (cellValues shape value')
  frame : SameFrame shape value value'
  census : ∀ field ∈ cellValues shape value',
    ∀ keyId, codecEnvelopeKeyId field = some keyId → keyId = targetKeyId
  again : ∀ seeds, r.reencryptColumnCellUnder wire skims seeds targetKeyId shape value' = .ok none

/-- Once each value moved, nothing is left to do. -/
theorem CellSwept.of_moved {shape : CellShape} {value value' : Json}
    (hmoved : List.Forall₂ (Moved r wire skims targetKeyId) (cellValues shape value)
      (cellValues shape value')) (hframe : SameFrame shape value value') :
    CellSwept r wire skims targetKeyId shape value value' := by
  have hcensus : ∀ field' ∈ cellValues shape value',
      ∀ keyId, codecEnvelopeKeyId field' = some keyId → keyId = targetKeyId := by
    generalize cellValues shape value = old at hmoved
    generalize cellValues shape value' = new at hmoved ⊢
    induction hmoved with
    | nil => simp
    | cons hhead _ ih => exact List.forall_mem_cons.mpr ⟨hhead.keyId, ih⟩
  exact ⟨hmoved, hframe, hcensus, fun seeds => cell_settled seeds hcensus⟩

theorem cellSwept (hr : r.Keyed) (hregistered : targetKeyId ∈ r.keys)
    (hb64 : wire.LosslessBase64) (hinv : ∀ codec : C, Inverts codec) {seeds : Nat → Nat}
    {shape : CellShape} {value : Json} {written : Option Json}
    (hrun : r.reencryptColumnCellUnder wire skims seeds targetKeyId shape value = .ok written) :
    CellSwept r wire skims targetKeyId shape value (written.getD value) := by
  have hany := hr.anyKeys _ hregistered
  cases shape with
  | cell =>
    simp only [reencryptColumnCellUnder, reencryptColumnValueUnder, hany, Bool.not_true,
      Bool.false_eq_true, if_false, bind, Except.bind] at hrun
    cases hstep : r.reencryptFieldUnder wire skims (seeds 0) targetKeyId value with
    | error e => simp [hstep] at hrun
    | ok step =>
      simp only [hstep, Except.ok.injEq] at hrun
      subst hrun
      refine .of_moved (.cons (reencryptFieldUnder_ok hr hb64 hinv hstep).1 .nil) trivial
  | elements =>
    cases value with
    | arr items =>
      cases hconv : r.convertElements wire skims seeds targetKeyId 0 items with
      | error e => simp [reencryptColumnCellUnder, hany, hconv, bind, Except.bind] at hrun
      | ok pair =>
        obtain ⟨converted, changed⟩ := pair
        simp only [reencryptColumnCellUnder, hany, hconv, Bool.not_true, Bool.false_eq_true,
          if_false, bind, Except.bind, Except.ok.injEq] at hrun
        obtain ⟨hmoved, hsame⟩ := convertElements_ok hr hb64 hinv hconv
        have hwritten : written.getD (.arr items) = .arr converted := by
          rw [← hrun]
          cases changed with
          | false => simp [hsame rfl]
          | true => simp
        rw [hwritten]
        exact .of_moved hmoved (Or.inl ⟨items, converted, rfl, rfl⟩)
    | _ =>
      simp only [reencryptColumnCellUnder, hany, Bool.not_true, Bool.false_eq_true,
        if_false, Except.ok.injEq] at hrun
      subst hrun
      exact .of_moved .nil (Or.inr rfl)
  | field key =>
    have hnone (value : Json) (hget : value.get key = none) :
        CellSwept r wire skims targetKeyId (.field key) value value := by
      refine .of_moved ?_ (Or.inl rfl)
      simp [cellValues, hget]
    cases value with
    | obj fields =>
      cases hlookup : fields.lookup key with
      | none =>
        simp only [reencryptColumnCellUnder, hany, hlookup, Bool.not_true, Bool.false_eq_true,
          if_false, Except.ok.injEq] at hrun
        subst hrun
        exact hnone (.obj fields) hlookup
      | some field =>
        cases hstep : r.reencryptFieldUnder wire skims (seeds 0) targetKeyId field with
        | error e => simp [reencryptColumnCellUnder, hany, hlookup, hstep, bind, Except.bind] at hrun
        | ok step =>
          simp only [reencryptColumnCellUnder, hany, hlookup, hstep, Bool.not_true,
            Bool.false_eq_true, if_false, bind, Except.bind, Except.ok.injEq] at hrun
          subst hrun
          have hmoved := (reencryptFieldUnder_ok hr hb64 hinv hstep).1
          have hold : cellValues (.field key) (.obj fields) = [field] := by
            simp [cellValues, Json.get, hlookup]
          cases hcandidate : step.candidate with
          | none =>
            rw [hcandidate] at hmoved
            refine .of_moved ?_ (Or.inl rfl)
            rw [Option.map_none, Option.getD_none, hold]
            exact .cons hmoved .nil
          | some candidate =>
            rw [hcandidate] at hmoved
            have hnew : cellValues (.field key) (.obj (setField key candidate fields)) =
                [candidate] := by
              simp [cellValues, Json.get, lookup_setField, hlookup]
            refine .of_moved ?_ (Or.inr ⟨fields, candidate, rfl, rfl⟩)
            rw [Option.map_some, Option.getD_some, hold, hnew]
            exact .cons hmoved .nil
    | _ =>
      simp only [reencryptColumnCellUnder, hany, Bool.not_true, Bool.false_eq_true,
        if_false, Except.ok.injEq] at hrun
      subst hrun
      exact hnone _ rfl

end Cell

/-- **The sweep changes ciphertext only.** In any registry where the target key is registered:
a run over an event that fails leaves the value as it was; one that succeeds leaves each payload
envelope under the target key with the same plaintext and everything else as it was, the
pre-check and the census find nothing left to do, and a second run does nothing. The same holds
for a cell in each of its shapes. -/
theorem reencrypt_changes_ciphertext_only (wire : Wire) (hb64 : wire.LosslessBase64)
    (hinv : ∀ codec : C, Inverts codec) (skims : Bytes → Except String Unit) (ops : List (Op C))
    (targetKeyId : String) (hregistered : targetKeyId ∈ (after ops : PayloadCodecs C).keys) :
    (∀ seeds value result value',
      (after ops).reencryptEventPayloadFieldsUnder wire skims seeds targetKeyId value =
        (result, value') →
      (∀ e, result = .error e → value' = value) ∧
      ∀ outcome, result = .ok outcome →
        EventSwept (after ops) wire skims targetKeyId value value') ∧
    ∀ seeds shape value result,
      (after ops).reencryptColumnCellUnder wire skims seeds targetKeyId shape value = result →
      (∀ e, result = .error e → cellAfter result value = value) ∧
      ∀ written, result = .ok written →
        CellSwept (after ops) wire skims targetKeyId shape value (cellAfter result value) := by
  have hr := keyed_after ops
  constructor
  · intro seeds value result value' hrun
    constructor
    · rintro e rfl
      exact reencryptEvent_error hrun
    · rintro outcome rfl
      exact eventSwept hr hregistered hb64 hinv hrun
  · intro seeds shape value result hrun
    constructor
    · rintro e rfl
      rfl
    · rintro written rfl
      have hafter : cellAfter (.ok written) value = written.getD value := by
        cases written <;> rfl
      rw [hafter]
      exact cellSwept hr hregistered hb64 hinv hrun

/-- Agrees with `base64` on the text under the second key too. -/
def rotatedWire : Wire where
  toVec := nullWire.toVec
  fromSlice := nullWire.fromSlice
  b64Encode bytes :=
    if bytes = [108, 119, 110, 110] then "bHdubg==" else nullWire.b64Encode bytes
  b64Decode text :=
    if text = "bHdubg==" then .ok [108, 119, 110, 110] else nullWire.b64Decode text

theorem losslessBase64_rotatedWire : rotatedWire.LosslessBase64 := by
  intro bytes
  simp only [rotatedWire]
  by_cases hbytes : bytes = [108, 119, 110, 110]
  · simp [hbytes]
  · rw [if_neg hbytes, if_neg]
    · exact losslessBase64_nullWire bytes
    · simp only [nullWire]
      split_ifs
      · decide
      · intro htext
        have hhead := congrArg (fun text => text.toList.head?) htext
        simp at hhead

/-- An event written under `k1` moves to `k2`. -/
theorem reencrypt_changes_ciphertext_only_rotated :
    let ops : List (Op MaskCodec) :=
      [.registerKey "k1" (.custom ⟨1⟩), .registerKey "k2" (.custom ⟨2⟩)]
    let old := envelope rotatedWire "mask" "k1" [111, 116, 109, 109] false
    let new := envelope rotatedWire "mask" "k2" [108, 119, 110, 110] false
    let value (input : Json) := Json.obj [("data", .obj [("input", input)]), ("type", .str "E")]
    (after ops).reencryptEventPayloadFieldsUnder rotatedWire (fun _ => .ok ()) (fun _ => 0) "k2"
        (value old) = (.ok ⟨1, 0, 0, 0⟩, value new) ∧
      EventSwept (after ops) rotatedWire (fun _ => .ok ()) "k2" (value old) (value new) := by
  intro ops old new value
  obtain ⟨hevent, -⟩ := reencrypt_changes_ciphertext_only rotatedWire losslessBase64_rotatedWire
    inverts_maskCodec (fun _ => .ok ()) ops "k2" (by decide)
  have hrun : (after ops).reencryptEventPayloadFieldsUnder rotatedWire (fun _ => .ok ()) (fun _ => 0)
      "k2" (value old) = (.ok ⟨1, 0, 0, 0⟩, value new) := by
    decide +kernel
  exact ⟨hrun, (hevent _ _ _ _ hrun).2 _ rfl⟩

end PayloadCodecs
end Harvest.Codec
