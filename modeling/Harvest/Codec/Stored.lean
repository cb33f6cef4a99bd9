import Harvest.Codec.EventWire
import Harvest.Codec.Rotation

/-!
# The stored form of an event

Model of the write path `encode_event` then `offload_event_value` and of the read
path `inflate_event_value` then `decode_event`. Three layers each recognise their own
output inside arbitrary JSON: the payload slots, the codec envelope and the offload
reference.

Proved here:
* `eachField_ok`: what a loop over the payload fields leaves, from what it does to
  one field.
* `inflateField_offloadField`: the store gives back the field it was given, also one
  that looks like a reference.
* `stored_event_reads_back`: the stored form of an event reads back as the event.
-/

namespace Harvest.Codec

open Json WorkflowEvent PayloadCodec

/-- The fields under `data`, when that is an object. -/
def dataFields (value : Json) : List (String × Json) := ((value.get "data").bind asObject).getD []

/-- The value with other fields under `data`, when that is an object. -/
def withData (data : List (String × Json)) (value : Json) : Json :=
  match value, (value.get "data").bind asObject with
  | .obj fields, some _ => .obj (setField "data" (.obj data) fields)
  | _, _ => value

/-- The loop `for key in PAYLOAD_FIELD_KEYS` over the fields that are there. -/
def eachField {σ ε : Type} (f : String → σ → Json → Except ε (σ × Json)) (keys : List String)
    (s : σ) (data : List (String × Json)) : Except ε (σ × List (String × Json)) :=
  keys.foldlM (fun (s, data) key =>
    match data.lookup key with
    | none => .ok (s, data)
    | some field => do
      let (s, value) ← f key s field
      .ok (s, setField key value data)) (s, data)

/-! ## Codec layer -/

/-- What `serde` reads an event from: a value, or its `type` and `data` in order. -/
structure EventSerde where
  fromValue : Json → Except String WorkflowEvent
  fromPairs : List (String × Json) → Except String WorkflowEvent

def eventFromWire (serde : EventSerde) (value : Json) : Except HarvestError WorkflowEvent :=
  match value with
  | .obj map =>
    let tagged := ((map.lookup "type").bind asStr).isSome &&
      map.all fun (key, _) => key = "type" || key = "data"
    if ! tagged then (serde.fromValue (.obj map)).mapError .serialization
    else
      let tag := (map.lookup "type").getD .null
      let data := ((map.lookup "data").map fun data => ("data", data)).toList
      (serde.fromPairs (("type", tag) :: data)).mapError .serialization
  | value => (serde.fromValue value).mapError .serialization

variable {C : Type} [PayloadCodec C]

namespace PayloadCodecs

/-- Encodes every payload field that `data` has, or the payload lifted from it. The
seeds are what the codec draws for each field. -/
def encodeFields (r : PayloadCodecs C) (wire : Wire) (seeds : String → Nat)
    (lifted : List (String × Option Json)) (data : List (String × Json)) :
    Except HarvestError (List (String × Json)) := do
  let (_, data) ← eachField (fun key _ field => do
    let stored ← r.encodePayload wire (seeds key) (((lifted.lookup key).join).getD field)
    .ok ((), stored)) payloadFieldKeys () data
  .ok data

/-- Whether a lifted payload has no `data` key to go to. -/
def hasUnplacedPayload (lifted : List (String × Option Json)) (data : List (String × Json)) :
    Bool :=
  lifted.any fun (key, payload) => payload.isSome && (data.lookup key).isNone

/-- `encode_event_moving_payloads`; the second component tells the slow path. -/
def encodeEventMovingPayloads (r : PayloadCodecs C) (wire : Wire) (plain : PlainSerde)
    (seeds : String → Nat) (event : WorkflowEvent) : Except HarvestError (Json × Bool) :=
  let (lifted, event) := event.liftPayloads
  let value := event.toValue plain
  let data := dataFields value
  if hasUnplacedPayload lifted data then do
    -- Put all payloads back and encode the whole event.
    let value := (event.restorePayloads lifted).toValue plain
    let data ← r.encodeFields wire seeds [] (dataFields value)
    .ok (withData data value, true)
  else do
    let data ← r.encodeFields wire seeds lifted data
    .ok (withData data value, false)

def encodeEvent (r : PayloadCodecs C) (wire : Wire) (plain : PlainSerde) (seeds : String → Nat)
    (event : WorkflowEvent) : Except HarvestError Json :=
  (r.encodeEventMovingPayloads wire plain seeds event).map Prod.fst

/-- Moves each decoded payload out of `data` and leaves `null` in its place. -/
def liftFields (r : PayloadCodecs C) (wire : Wire) (keys : List String)
    (lifted : List (String × Option Json)) (data : List (String × Json)) :
    Except HarvestError (List (String × Option Json) × List (String × Json)) :=
  keys.foldlM (fun (lifted, data) key =>
    match data.lookup key with
    | none => .ok (lifted ++ [(key, none)], data)
    | some payload => do
      let decoded ← r.decodePayload wire payload
      .ok (lifted ++ [(key, (some decoded).filter nonNull)], setField key .null data)) (lifted, data)

/-- Whether a lifted payload finds no slot in the event. -/
def unplaced (event : WorkflowEvent) (lifted : String × Option Json) : Bool :=
  lifted.2.isSome && (event.payloadSlot lifted.1).isNone

/-- `decode_event_moving_payloads`; the second component tells the slow path. -/
def decodeEventMovingPayloads (r : PayloadCodecs C) (wire : Wire) (plain : PlainSerde)
    (serde : EventSerde) (value : Json) : Except HarvestError (WorkflowEvent × Bool) := do
  let (lifted, data) ← r.liftFields wire payloadFieldKeys [] (dataFields value)
  let event ← eventFromWire serde (withData data value)
  let filled := event.restorePayloads lifted
  if ! lifted.any (unplaced event) then .ok (filled, false)
  else
    -- A payload without a slot goes back into the wire form, which is decoded again.
    let wireForm := filled.toValue plain
    let data := (lifted.filter (unplaced event)).foldl
      (fun data (key, payload) => insertField key (payload.getD .null) data) (dataFields wireForm)
    let event ← (serde.fromValue (withData data wireForm)).mapError .serialization
    .ok (event, true)

def decodeEvent (r : PayloadCodecs C) (wire : Wire) (plain : PlainSerde) (serde : EventSerde)
    (value : Json) : Except HarvestError WorkflowEvent :=
  (r.decodeEventMovingPayloads wire plain serde value).map Prod.fst

end PayloadCodecs

/-! ## Claim-check layer -/

def offloadEnvelopeKey : String := "_harvest_offload_envelope"

/-- A blob store as a state machine. -/
class PayloadStore (σ : Type) where
  put : σ → Bytes → Except String (String × σ)
  get : σ → String → Except String Bytes

structure OffloadedRef where
  blobKey : String
  storeId : String
  byteLen : UInt64
deriving DecidableEq, Repr

structure OffloadEnvelope where
  storeId : String
  key : String
  len : UInt64
  checksum : String
deriving DecidableEq, Repr

def isOffloadEnvelope (field : Json) : Bool :=
  (field.asObject.bind fun obj => (obj.lookup offloadEnvelopeKey).bind asI64) = some 1

def parseOffloadEnvelope (field : Json) : Option OffloadEnvelope := do
  let obj ← field.asObject
  if (obj.lookup offloadEnvelopeKey).bind asI64 ≠ some 1 then none
  else
    let storeId ← (obj.lookup "store_id").bind asStr
    let key ← (obj.lookup "key").bind asStr
    let len ← (obj.lookup "len").bind asU64
    let checksum ← (obj.lookup "checksum").bind asStr
    some ⟨storeId, key, len, checksum⟩

def buildOffloadEnvelope (storeId key : String) (len : UInt64) (checksum : String) : Json :=
  .obj (ofPairs [(offloadEnvelopeKey, Json.ofNat 1), ("store_id", .str storeId),
    ("key", .str key), ("len", .num (.posInt len)), ("checksum", .str checksum)])

/-- The configured store's id, the inline threshold and the digest of a blob. -/
structure PayloadOffloader where
  threshold : UInt64
  storeId : String
  hexSha256 : Bytes → String

namespace PayloadOffloader

variable {σ : Type} [PayloadStore σ]

/-- One field of `offload_event_value`. Its input is a fresh value, so a field that
carries the discriminator is business data and is offloaded whatever its size. -/
def offloadField (off : PayloadOffloader) (wire : Wire) (_ : String)
    (s : σ × List OffloadedRef) (field : Json) :
    Except HarvestError ((σ × List OffloadedRef) × Json) := do
  if field.isNull then .ok (s, field)
  else
    let bytes ← (wire.toVec field).mapError .serialization
    let byteLen := UInt64.ofNat bytes.length
    if ! isOffloadEnvelope field && byteLen ≤ off.threshold then .ok (s, field)
    else
      let checksum := off.hexSha256 bytes
      let (blobKey, store) ← (PayloadStore.put s.1 bytes).mapError .payloadOffload
      .ok ((store, s.2 ++ [⟨blobKey, off.storeId, byteLen⟩]),
        buildOffloadEnvelope off.storeId blobKey byteLen checksum)

def offloadEventValue (off : PayloadOffloader) (wire : Wire) (store : σ) (value : Json) :
    Except HarvestError (σ × List OffloadedRef × Json) := do
  let ((store, refs), data) ←
    eachField (off.offloadField wire) payloadFieldKeys (store, []) (dataFields value)
  .ok (store, refs, withData data value)

/-- One field of `inflate_event_value`. -/
def inflateField (off : PayloadOffloader) (wire : Wire) (store : σ) (field : Json) :
    Except HarvestError Json :=
  match parseOffloadEnvelope field with
  | none => .ok field
  | some env =>
    if env.storeId ≠ off.storeId then
      .error (.payloadOffload ("offloaded payload references unknown store '" ++ env.storeId ++
        "' (configured store is '" ++ off.storeId ++ "')"))
    else do
      let bytes ← (PayloadStore.get store env.key).mapError .payloadOffload
      let actual := off.hexSha256 bytes
      if actual ≠ env.checksum then
        .error (.payloadOffload ("checksum mismatch for offloaded key '" ++ env.key ++
          "' (expected " ++ env.checksum ++ ", got " ++ actual ++ ")"))
      else if UInt64.ofNat bytes.length ≠ env.len then
        .error (.payloadOffload ("length mismatch for offloaded key '" ++ env.key ++
          "' (expected " ++ toString env.len ++ " bytes, got " ++ toString bytes.length ++ ")"))
      else (wire.fromSlice bytes).mapError .serialization

def inflateEventValue (off : PayloadOffloader) (wire : Wire) (store : σ) (value : Json) :
    Except HarvestError Json := do
  let (_, data) ← eachField (fun _ _ field => do
    let value ← off.inflateField wire store field
    .ok ((), value)) payloadFieldKeys () (dataFields value)
  .ok (withData data value)

/-! ### The store gives back what it was given -/

/-- A `put` succeeds, its key resolves to the bytes, and older keys still resolve. -/
def Durable (σ : Type) [PayloadStore σ] : Prop :=
  ∀ (s : σ) (bytes : Bytes), ∃ key s', PayloadStore.put s bytes = .ok (key, s') ∧
    PayloadStore.get s' key = .ok bytes ∧
    ∀ k b, PayloadStore.get s k = .ok b → PayloadStore.get s' k = .ok b

theorem parse_build (storeId key : String) (len : UInt64) (checksum : String) :
    parseOffloadEnvelope (buildOffloadEnvelope storeId key len checksum) =
      some ⟨storeId, key, len, checksum⟩ := rfl

theorem parse_eq_none {field : Json} (h : isOffloadEnvelope field = false) :
    parseOffloadEnvelope field = none := by
  cases field with
  | obj fields =>
    have hmarker : (fields.lookup offloadEnvelopeKey).bind asI64 ≠ some 1 := of_decide_eq_false h
    simp [parseOffloadEnvelope, asObject, hmarker]
  | _ => rfl

/-- More blobs do not change what a field inflates to. -/
theorem inflateField_mono {off : PayloadOffloader} {wire : Wire} {s s' : σ} {field value : Json}
    (hle : ∀ k b, PayloadStore.get s k = .ok b → PayloadStore.get s' k = .ok b)
    (h : off.inflateField wire s field = .ok value) :
    off.inflateField wire s' field = .ok value := by
  unfold inflateField at h ⊢
  cases henv : parseOffloadEnvelope field with
  | none => simpa [henv] using h
  | some env =>
    simp only [henv] at h ⊢
    split_ifs at h ⊢ with hid
    cases hget : PayloadStore.get s env.key with
    | error e => simp [hget, Except.mapError, bind, Except.bind] at h
    | ok bytes =>
      rw [hle _ _ hget]
      simpa [hget, Except.mapError, bind, Except.bind] using h

/-- **A field comes back from the store as it went in**, also one that looks like a
reference. -/
theorem inflateField_offloadField (off : PayloadOffloader) {wire : Wire} (hstore : Durable σ)
    (key : String) (s : σ × List OffloadedRef) {field : Json} (hjson : wire.RoundTrips field) :
    ∃ s' stored, off.offloadField wire key s field = .ok (s', stored) ∧
      (∀ k b, PayloadStore.get s.1 k = .ok b → PayloadStore.get s'.1 k = .ok b) ∧
      off.inflateField wire s'.1 stored = .ok field := by
  obtain ⟨raw, hraw, hparse⟩ := hjson
  have hkept (hoff : isOffloadEnvelope field = false) :
      off.inflateField wire s.1 field = .ok field := by
    simp [inflateField, parse_eq_none hoff]
  by_cases hnull : field.isNull = true
  · refine ⟨s, field, by simp [offloadField, hnull], fun _ _ h => h, hkept ?_⟩
    cases field <;> first | rfl | cases hnull
  · by_cases hinline :
        (! isOffloadEnvelope field && UInt64.ofNat raw.length ≤ off.threshold) = true
    · refine ⟨s, field, ?_, fun _ _ h => h, hkept ?_⟩
      · simp [offloadField, hnull, hraw, Except.mapError, bind, Except.bind, hinline]
      · simpa using (Bool.and_eq_true_iff.mp hinline).1
    · obtain ⟨blobKey, store, hput, hget, hle⟩ := hstore s.1 raw
      refine ⟨(store, s.2 ++ [⟨blobKey, off.storeId, UInt64.ofNat raw.length⟩]),
        buildOffloadEnvelope off.storeId blobKey (UInt64.ofNat raw.length) (off.hexSha256 raw),
        ?_, hle, ?_⟩
      · simp only [offloadField, hnull, hraw, Except.mapError, bind, Except.bind, hinline, hput]
        rfl
      · simp [inflateField, parse_build, hget, Except.mapError, bind, Except.bind, hparse]

end PayloadOffloader

/-! ## Loops over the payload fields -/

/-- What a loop leaves, from what it does to one field. `G` relates a field to what
stands in its place, and only grows with the state. -/
theorem eachField_ok {σ ε : Type} {f : String → σ → Json → Except ε (σ × Json)}
    {R : σ → σ → Prop} {G : σ → String → Json → Json → Prop} (hrefl : ∀ s, R s s)
    (htrans : ∀ s₁ s₂ s₃, R s₁ s₂ → R s₂ s₃ → R s₁ s₃)
    (hmono : ∀ s s' key v v', R s s' → G s key v v' → G s' key v v')
    {keys : List String} (hnodup : keys.Nodup) (s : σ) (data : List (String × Json))
    (hfield : ∀ s, ∀ key ∈ keys, ∀ v, data.lookup key = some v →
      ∃ s' v', f key s v = .ok (s', v') ∧ R s s' ∧ G s' key v v') :
    ∃ (s' : σ) (h : String → Json), eachField f keys s data =
        .ok (s', data.map fun (k, v) => (k, if k ∈ keys then h k else v)) ∧
      R s s' ∧ ∀ key ∈ keys, ∀ v, data.lookup key = some v → G s' key v (h key) := by
  induction keys generalizing s data with
  | nil =>
    refine ⟨s, fun _ => .null, ?_, hrefl s, by simp⟩
    simp [eachField, pure, Except.pure]
  | cons key keys ih =>
    obtain ⟨hnew, hnodup⟩ := List.nodup_cons.mp hnodup
    cases hlookup : data.lookup key with
    | none =>
      obtain ⟨s', h, hrun, hle, hgood⟩ := ih hnodup s data
        fun s k hk v hv => hfield s k (List.mem_cons_of_mem _ hk) v hv
      refine ⟨s', h, ?_, hle, ?_⟩
      · have hstep : eachField f (key :: keys) s data = eachField f keys s data := by
          simp [eachField, List.foldlM_cons, hlookup, bind, Except.bind]
        rw [hstep, hrun]
        congr 2
        apply List.map_congr_left
        rintro ⟨k, v⟩ hmem
        have hk : k ≠ key := by
          rintro rfl
          have := List.lookup_eq_none_iff.mp hlookup (k, v) hmem
          simp at this
        simp [hk]
      · intro k hk v hv
        rcases List.mem_cons.mp hk with rfl | hk
        · rw [hlookup] at hv
          cases hv
        · exact hgood k hk v hv
    | some v =>
      obtain ⟨s₁, v', hf, hle₁, hgood₁⟩ := hfield s key (by simp) v hlookup
      have hother : ∀ k ∈ keys, (setField key v' data).lookup k = data.lookup k := by
        intro k hk
        rw [lookup_setField, if_neg]
        rintro rfl
        exact hnew hk
      obtain ⟨s', h, hrun, hle, hgood⟩ := ih hnodup s₁ (setField key v' data)
        fun s k hk w hw => hfield s k (List.mem_cons_of_mem _ hk) w (by rw [← hother k hk]; exact hw)
      refine ⟨s', fun k => if k = key then v' else h k, ?_, htrans _ _ _ hle₁ hle, ?_⟩
      · have hstep : eachField f (key :: keys) s data =
            eachField f keys s₁ (setField key v' data) := by
          simp [eachField, List.foldlM_cons, hlookup, bind, Except.bind, hf]
        rw [hstep, hrun]
        simp only [setField, List.map_map]
        congr 2
        apply List.map_congr_left
        rintro ⟨k, w⟩ _
        by_cases hk : k = key
        · simp [hk, hnew]
        · simp [hk]
      · intro k hk w hw
        by_cases heq : k = key
        · subst heq
          rw [hlookup] at hw
          cases hw
          simpa using hmono _ _ _ _ _ hle hgood₁
        · have hk : k ∈ keys := (List.mem_cons.mp hk).resolve_left heq
          simpa [heq] using hgood k hk w (by rw [hother k hk]; exact hw)

/-- The stored value: the event's type with other fields under `data`. -/
def taggedValue (event : WorkflowEvent) (data : List (String × Json)) : Json :=
  .obj [("data", .obj data), ("type", .str event.typeName)]

theorem dataFields_tagged (event : WorkflowEvent) (data : List (String × Json)) :
    dataFields (taggedValue event data) = data := rfl

theorem withData_tagged (event : WorkflowEvent) (data data' : List (String × Json)) :
    withData data' (taggedValue event data) = taggedValue event data' := rfl

namespace PayloadCodecs

/-- The codec encodes everything and decodes it again. -/
def Lossless (codec : DynCodec C) : Prop :=
  ∀ seed raw, ∃ encoded, encode codec seed raw = .ok encoded ∧ decode codec encoded = .ok raw

theorem Lossless.inverts {codec : DynCodec C} (h : Lossless codec) : Inverts codec := by
  intro seed raw encoded hencode
  obtain ⟨encoded', hencode', hdecode⟩ := h seed raw
  cases hencode.symm.trans hencode'
  exact hdecode

theorem encodePayload_total {r : PayloadCodecs C} {wire : Wire} (hcodec : Lossless r.activeCodec.2)
    {payload : Json} (hjson : wire.RoundTrips payload) (seed : Nat) :
    ∃ stored, r.encodePayload wire seed payload = .ok stored := by
  obtain ⟨raw, hraw, -⟩ := hjson
  obtain ⟨encoded, hencode, -⟩ := hcodec seed raw
  unfold encodePayload
  dsimp only
  split_ifs
  · exact ⟨_, rfl⟩
  · simp only [hraw, hencode, Except.mapError, bind, Except.bind]
    exact ⟨_, rfl⟩

theorem liftFields_ok {r : PayloadCodecs C} {wire : Wire} {keys : List String}
    (hnodup : keys.Nodup) (decoded : String → Json) (lifted : List (String × Option Json))
    (data : List (String × Json))
    (hdecode : ∀ key ∈ keys, ∀ v, data.lookup key = some v →
      r.decodePayload wire v = .ok (decoded key)) :
    r.liftFields wire keys lifted data =
      .ok (lifted ++ keys.map fun key =>
          (key, ((data.lookup key).map fun _ => decoded key).filter nonNull),
        data.map fun (k, v) => (k, if k ∈ keys then .null else v)) := by
  induction keys generalizing lifted data with
  | nil => simp [liftFields, pure, Except.pure]
  | cons key keys ih =>
    obtain ⟨hnew, hnodup⟩ := List.nodup_cons.mp hnodup
    cases hlookup : data.lookup key with
    | none =>
      have hstep : r.liftFields wire (key :: keys) lifted data =
          r.liftFields wire keys (lifted ++ [(key, none)]) data := by
        simp [liftFields, List.foldlM_cons, hlookup, bind, Except.bind]
      rw [hstep, ih hnodup _ _ fun k hk => hdecode k (List.mem_cons_of_mem _ hk)]
      congr 2
      · simp [hlookup]
      · apply List.map_congr_left
        rintro ⟨k, v⟩ hmem
        have hk : k ≠ key := by
          rintro rfl
          have := List.lookup_eq_none_iff.mp hlookup (k, v) hmem
          simp at this
        simp [hk]
    | some v =>
      have hother : ∀ k ∈ keys, (setField key .null data).lookup k = data.lookup k := by
        intro k hk
        rw [lookup_setField, if_neg]
        rintro rfl
        exact hnew hk
      have hstep : r.liftFields wire (key :: keys) lifted data =
          r.liftFields wire keys (lifted ++ [(key, (some (decoded key)).filter nonNull)])
            (setField key .null data) := by
        simp [liftFields, List.foldlM_cons, hlookup, bind, Except.bind,
          hdecode key (by simp) v hlookup]
      rw [hstep, ih hnodup _ _ fun k hk w hw =>
        hdecode k (List.mem_cons_of_mem _ hk) w (by rw [← hother k hk]; exact hw)]
      congr 2
      · have hmap : (keys.map fun k => (k, (((setField key .null data).lookup k).map
            fun _ => decoded k).filter nonNull)) =
            keys.map fun k => (k, ((data.lookup k).map fun _ => decoded k).filter nonNull) := by
          apply List.map_congr_left
          intro k hk
          rw [hother k hk]
        rw [hmap]
        simp [hlookup]
      · simp only [setField, List.map_map]
        apply List.map_congr_left
        rintro ⟨k, w⟩ _
        by_cases hk : k = key
        · simp [hk, hnew]
        · simp [hk]

/-! ## The event and its stored form -/

/-- The `data` object of an event. -/
def eventData (plain : PlainSerde) (event : WorkflowEvent) : List (String × Json) :=
  ofPairs (event.fields plain)

theorem dataFields_toValue (plain : PlainSerde) (event : WorkflowEvent) :
    dataFields (event.toValue plain) = eventData plain event := rfl

theorem lookup_eventData (plain : PlainSerde) (event : WorkflowEvent) {key : String}
    (hkey : key ∈ payloadFieldKeys) : (eventData plain event).lookup key = event.payload key := by
  rw [eventData, lookup_ofPairs, lookup_fields plain event hkey]

theorem eventData_nulled (plain : PlainSerde) (event : WorkflowEvent) :
    eventData plain event.nulled = mapFields (fun _ _ => .null) (eventData plain event) := by
  rw [eventData, eventData, mapFields_ofPairs, ← fields_mapPayloads]
  rfl

/-- `data` with other payloads in place of those that are there. -/
def storedData (plain : PlainSerde) (event : WorkflowEvent) (h : String → Json) :
    List (String × Json) :=
  mapFields (fun k _ => h k) (eventData plain event)

theorem lookup_storedData (plain : PlainSerde) (event : WorkflowEvent) (h : String → Json)
    {key : String} (hkey : key ∈ payloadFieldKeys) :
    (storedData plain event h).lookup key = (event.payload key).map fun _ => h key := by
  rw [storedData, lookup_mapFields _ _ hkey, lookup_eventData plain event hkey]

/-- A loop over stored fields replaces all of them. -/
theorem mapFields_storedData (plain : PlainSerde) (event : WorkflowEvent) (h h' : String → Json) :
    mapFields (fun k _ => h' k) (storedData plain event h) = storedData plain event h' := by
  rw [storedData, mapFields_mapFields]
  rfl

theorem storedData_congr {plain : PlainSerde} {event : WorkflowEvent} {h h' : String → Json}
    (hsame : ∀ key ∈ payloadFieldKeys, ∀ v, event.payload key = some v → h key = h' key) :
    storedData plain event h = storedData plain event h' := by
  apply mapFields_congr
  intro key hkey hthere
  rw [lookup_eventData plain event hkey] at hthere
  obtain ⟨v, hv⟩ := Option.isSome_iff_exists.mp hthere
  exact hsame key hkey v hv

theorem lookup_map_pair {β : Type} (f : String → β) {keys : List String} {key : String}
    (hkey : key ∈ keys) : (keys.map fun k => (k, f k)).lookup key = some (f key) := by
  induction keys with
  | nil => simp at hkey
  | cons k keys ih =>
    rw [List.map_cons, List.lookup_cons]
    by_cases h : key = k
    · simp [h]
    · have hne : (key == k) = false := by simp [h]
      rw [hne]
      exact ih ((List.mem_cons.mp hkey).resolve_left h)

theorem getD_filter_nonNull (v : Json) : (Option.filter nonNull (some v)).getD .null = v := by
  cases v <;> rfl

/-- JSON is lossless on what the write path serializes: the payloads of the event and
their encoded forms. -/
def LosslessJson (r : PayloadCodecs C) (wire : Wire) (seeds : String → Nat)
    (event : WorkflowEvent) : Prop :=
  ∀ key v, event.payload key = some v → wire.RoundTrips v ∧
    ∀ stored, r.encodePayload wire (seeds key) v = .ok stored → wire.RoundTrips stored

/-- Every lifted payload has its key in `data`, so the slow path of the encoder does not
run. -/
theorem hasUnplacedPayload_lifted (plain : PlainSerde) (event : WorkflowEvent) :
    hasUnplacedPayload (payloadFieldKeys.map fun key => (key, event.liftedPayload key))
      (eventData plain event.nulled) = false := by
  rw [hasUnplacedPayload, List.any_map, List.any_eq_false]
  intro key hkey
  simp only [Function.comp_apply]
  rw [eventData_nulled, lookup_mapFields _ _ hkey, lookup_eventData plain event hkey, liftedPayload]
  cases event.payload key <;> simp

/-- The encoded event is the event with encoded payloads. -/
theorem encodeEvent_ok {r : PayloadCodecs C} {wire : Wire} (plain : PlainSerde)
    {seeds : String → Nat} {event : WorkflowEvent} (hcodec : Lossless r.activeCodec.2)
    (hjson : LosslessJson r wire seeds event) :
    ∃ h : String → Json, r.encodeEvent wire plain seeds event =
        .ok (taggedValue event.nulled (storedData plain event h)) ∧
      ∀ key ∈ payloadFieldKeys, ∀ v, event.payload key = some v →
        r.encodePayload wire (seeds key) v = .ok (h key) := by
  let lifted := payloadFieldKeys.map fun key => (key, event.liftedPayload key)
  have hthere : ∀ key ∈ payloadFieldKeys, ∀ v, (eventData plain event.nulled).lookup key = some v →
      v = .null ∧ ∃ p, event.payload key = some p := by
    intro key hkey v hv
    rw [eventData_nulled, lookup_mapFields _ _ hkey, lookup_eventData plain event hkey] at hv
    obtain ⟨p, hp, hnull⟩ := Option.map_eq_some_iff.mp hv
    exact ⟨hnull.symm, p, hp⟩
  obtain ⟨s', h, hloop, -, hgood⟩ := eachField_ok
    (f := fun key (_ : Unit) field => do
      let stored ← r.encodePayload wire (seeds key) (((lifted.lookup key).join).getD field)
      .ok ((), stored))
    (R := fun _ _ => True)
    (G := fun _ key _ v' => ∀ p, event.payload key = some p →
      r.encodePayload wire (seeds key) p = .ok v')
    (by simp) (by simp) (by intro _ _ _ _ _ _ hg; exact hg) payloadFieldKeys_nodup ()
    (eventData plain event.nulled) (by
      intro _ key hkey v hv
      obtain ⟨rfl, p, hp⟩ := hthere key hkey v hv
      obtain ⟨stored, hstored⟩ := encodePayload_total hcodec (hjson key p hp).1 (seeds key)
      have hpayload : ((lifted.lookup key).join).getD .null = p := by
        simp only [lifted]
        rw [lookup_map_pair _ hkey, Option.join_some, liftedPayload, hp, getD_filter_nonNull]
      refine ⟨(), stored, ?_, trivial, ?_⟩
      · simp [hpayload, hstored, bind, Except.bind]
      · intro q hq
        cases hp.symm.trans hq
        exact hstored)
  have hdata : r.encodeFields wire seeds lifted (eventData plain event.nulled) =
      .ok (storedData plain event h) := by
    simp only [encodeFields]
    rw [hloop]
    show Except.ok (mapFields (fun k _ => h k) (eventData plain event.nulled)) = _
    rw [eventData_nulled]
    exact congrArg Except.ok (mapFields_storedData plain event (fun _ => .null) h)
  refine ⟨h, ?_, ?_⟩
  · unfold encodeEvent encodeEventMovingPayloads
    rw [liftPayloads_eq]
    dsimp only
    rw [dataFields_toValue, hasUnplacedPayload_lifted, if_neg Bool.false_ne_true, hdata]
    rfl
  · intro key hkey v hv
    have hlookup : (eventData plain event.nulled).lookup key = some .null := by
      rw [eventData_nulled, lookup_mapFields _ _ hkey, lookup_eventData plain event hkey, hv]
      rfl
    exact hgood key hkey .null hlookup v hv

/-- Every lifted payload finds its slot again, so the slow path of the decoder does not
run. -/
theorem unplaced_lifted (event : WorkflowEvent) :
    (payloadFieldKeys.map fun key => (key, event.liftedPayload key)).any
      (unplaced event.nulled.dropNulls) = false := by
  rw [List.any_map, List.any_eq_false]
  intro key _
  have hslot : (event.nulled.dropNulls.payloadSlot key).isNone =
      (event.payloadSlot key).isNone := by
    rw [dropNulls, payloadSlot_mapPayloads, nulled, payloadSlot_mapPayloads]
    simp
  simp only [Function.comp_apply, unplaced, hslot, liftedPayload, payload]
  cases event.payloadSlot key <;> simp

/-- `serde` reads back the small event that the decoder feeds it, `type` first. -/
def ReadsBack (serde : EventSerde) (plain : PlainSerde) (event : WorkflowEvent) : Prop :=
  serde.fromPairs [("type", .str event.typeName), ("data", .obj (eventData plain event))] =
    .ok event.dropNulls

theorem decodeEvent_ok {r : PayloadCodecs C} {wire : Wire} {plain : PlainSerde}
    {serde : EventSerde} {event : WorkflowEvent} (hserde : ReadsBack serde plain event.nulled)
    {h : String → Json}
    (hdecode : ∀ key ∈ payloadFieldKeys, ∀ v, event.payload key = some v →
      r.decodePayload wire (h key) = .ok v) :
    r.decodeEvent wire plain serde (taggedValue event.nulled (storedData plain event h)) =
      .ok event.dropNulls := by
  have hlifted : r.liftFields wire payloadFieldKeys [] (storedData plain event h) =
      .ok (payloadFieldKeys.map fun key => (key, event.liftedPayload key),
        eventData plain event.nulled) := by
    rw [liftFields_ok payloadFieldKeys_nodup (fun key => (event.payload key).getD .null)]
    · congr 2
      · rw [List.nil_append]
        apply List.map_congr_left
        intro key hkey
        rw [lookup_storedData plain event h hkey, liftedPayload]
        cases event.payload key <;> rfl
      · show mapFields (fun _ _ => .null) (storedData plain event h) = _
        rw [mapFields_storedData plain event h fun _ => .null, eventData_nulled]
        rfl
    · intro key hkey v hv
      rw [lookup_storedData plain event h hkey] at hv
      obtain ⟨p, hp, rfl⟩ := Option.map_eq_some_iff.mp hv
      rw [hdecode key hkey p hp, hp]
      rfl
  have hevent : eventFromWire serde (taggedValue event.nulled (eventData plain event.nulled)) =
      .ok event.nulled.dropNulls := by
    show (serde.fromPairs [("type", .str event.nulled.typeName),
      ("data", .obj (eventData plain event.nulled))]).mapError HarvestError.serialization = _
    rw [hserde]
    rfl
  unfold decodeEvent decodeEventMovingPayloads
  rw [dataFields_tagged, hlifted]
  simp only [bind, Except.bind, withData_tagged, hevent, unplaced_lifted]
  simp only [Bool.not_false, if_true, restorePayloads_lifted]
  rfl

/-- **The stored form of an event reads back as the event.** Only an optional payload
that is `null` reads back as absent. -/
theorem stored_event_reads_back {σ : Type} [PayloadStore σ] (hstore : PayloadOffloader.Durable σ)
    (wire : Wire) (hb64 : wire.LosslessBase64) (plain : PlainSerde) (serde : EventSerde)
    (ops : List (Op C)) (hrun : Lib.Legal step Allowed new ops)
    (hcodec : Lossless (after ops).activeCodec.2) (seeds : String → Nat) (event : WorkflowEvent)
    (hjson : LosslessJson (after ops) wire seeds event)
    (hserde : ReadsBack serde plain event.nulled) (off : PayloadOffloader) (store : σ) :
    ∃ value store' refs stored back,
      (after ops).encodeEvent wire plain seeds event = .ok value ∧
      off.offloadEventValue wire store value = .ok (store', refs, stored) ∧
      off.inflateEventValue wire store' stored = .ok back ∧
      (after ops).decodeEvent wire plain serde back = .ok event.dropNulls := by
  have hconsistent := consistent_run hrun
  obtain ⟨h, hencode, hfields⟩ := encodeEvent_ok plain hcodec hjson
  have hstored : ∀ key ∈ payloadFieldKeys, ∀ v, (storedData plain event h).lookup key = some v →
      v = h key ∧ wire.RoundTrips v := by
    intro key hkey v hv
    rw [lookup_storedData plain event h hkey] at hv
    obtain ⟨p, hp, rfl⟩ := Option.map_eq_some_iff.mp hv
    exact ⟨rfl, (hjson key p hp).2 _ (hfields key hkey p hp)⟩
  -- The references that the store keeps, and what they inflate to.
  obtain ⟨s', h', hoffload, -, hinflates⟩ := eachField_ok (f := off.offloadField wire)
    (R := fun s s' => ∀ k b, PayloadStore.get s.1 k = .ok b → PayloadStore.get s'.1 k = .ok b)
    (G := fun s _ v v' => off.inflateField wire s.1 v' = .ok v)
    (fun _ _ _ h => h) (fun _ _ _ h₁ h₂ k b hk => h₂ k b (h₁ k b hk))
    (fun _ _ _ _ _ hle => PayloadOffloader.inflateField_mono hle) payloadFieldKeys_nodup
    (store, []) (storedData plain event h)
    (fun s key hkey v hv =>
      PayloadOffloader.inflateField_offloadField off hstore key s (hstored key hkey v hv).2)
  have hoffloaded : (storedData plain event h).map
      (fun (k, v) => (k, if k ∈ payloadFieldKeys then h' k else v)) = storedData plain event h' :=
    mapFields_storedData plain event h h'
  rw [hoffloaded] at hoffload
  obtain ⟨_, h'', hinflate, -, hsame⟩ := eachField_ok
    (f := fun _ (_ : Unit) field => do
      let value ← off.inflateField wire s'.1 field
      .ok ((), value))
    (R := fun _ _ => True) (G := fun _ key _ v' => v' = h key)
    (by simp) (by simp) (by intro _ _ _ _ _ _ hg; exact hg) payloadFieldKeys_nodup ()
    (storedData plain event h') (by
      intro _ key hkey v hv
      rw [lookup_storedData plain event h' hkey] at hv
      obtain ⟨p, hp, rfl⟩ := Option.map_eq_some_iff.mp hv
      have hback := hinflates key hkey (h key) (by rw [lookup_storedData plain event h hkey, hp]; rfl)
      exact ⟨(), h key, by simp [hback, bind, Except.bind], trivial, rfl⟩)
  have hinflated : (storedData plain event h').map
      (fun (k, v) => (k, if k ∈ payloadFieldKeys then h'' k else v)) = storedData plain event h := by
    refine (mapFields_storedData plain event h' h'').trans (storedData_congr ?_)
    intro key hkey v hv
    exact hsame key hkey (h' key) (by rw [lookup_storedData plain event h' hkey, hv]; rfl)
  rw [hinflated] at hinflate
  refine ⟨taggedValue event.nulled (storedData plain event h), s'.1, s'.2,
    taggedValue event.nulled (storedData plain event h'),
    taggedValue event.nulled (storedData plain event h), hencode, ?_, ?_, ?_⟩
  · unfold PayloadOffloader.offloadEventValue
    rw [dataFields_tagged, hoffload]
    rfl
  · unfold PayloadOffloader.inflateEventValue
    rw [dataFields_tagged, hinflate]
    rfl
  · refine decodeEvent_ok hserde ?_
    intro key hkey v hv
    exact decodePayload_of_decodes hcodec.inverts hb64 (hjson key v hv).1 hconsistent
      (hfields key hkey v hv) hconsistent (decodes_active hconsistent).1

/-- A store that keeps every blob; a key is as long as its blob's index. -/
instance : PayloadStore (List Bytes) where
  put blobs bytes := .ok (String.ofList (List.replicate blobs.length 'k'), blobs ++ [bytes])
  get blobs key :=
    match blobs[key.toList.length]? with
    | some bytes => .ok bytes
    | none => .error "no such blob"

theorem durable_blobs : PayloadOffloader.Durable (List Bytes) := by
  intro blobs bytes
  refine ⟨_, _, rfl, ?_, ?_⟩
  · simp [PayloadStore.get]
  · intro key b hget
    simp only [PayloadStore.get] at hget ⊢
    cases hold : blobs[key.toList.length]? with
    | none => simp [hold] at hget
    | some old =>
      have hlt : key.toList.length < blobs.length := (List.getElem?_eq_some_iff.mp hold).1
      rw [List.getElem?_append_left hlt, hold]
      simpa [hold] using hget

/-- Business data that looks like a reference to a blob. -/
def lookAlike : Json := .obj [("_harvest_offload_envelope", Json.ofNat 1)]

/-- The text of `lookAlike`. -/
def lookAlikeText : Bytes :=
  [123, 34, 95, 104, 97, 114, 118, 101, 115, 116, 95, 111, 102, 102, 108, 111,
    97, 100, 95, 101, 110, 118, 101, 108, 111, 112, 101, 34, 58, 49, 125]

/-- Agrees with `serde_json` on `lookAlike`. -/
def lookAlikeWire : Wire where
  toVec _ := .ok lookAlikeText
  fromSlice _ := .ok lookAlike
  b64Encode := nullWire.b64Encode
  b64Decode := nullWire.b64Decode

/-- A signal whose payload looks like a reference is stored as a blob and read back. -/
theorem stored_event_reads_back_look_alike :
    let event := WorkflowEvent.signalReceived "go" lookAlike
    let plain : PlainSerde := ⟨fun _ => .null, fun _ => .null, fun _ => .null⟩
    let serde : EventSerde := ⟨fun _ => .error "", fun _ => .ok (.signalReceived "go" .null)⟩
    let off : PayloadOffloader := ⟨262144, "default", fun _ =>
      "308abef85ab22c48f20ea546bdf1ea2d1912cfefdff5a9f506ac95e0ec3d5556"⟩
    ∃ value store refs stored back,
      (after ([] : List (Op MaskCodec))).encodeEvent lookAlikeWire plain (fun _ => 0) event =
        .ok value ∧
      off.offloadEventValue lookAlikeWire ([] : List Bytes) value = .ok (store, refs, stored) ∧
      off.inflateEventValue lookAlikeWire store stored = .ok back ∧
      (after ([] : List (Op MaskCodec))).decodeEvent lookAlikeWire plain serde back = .ok event := by
  intro event plain serde off
  have hidentity : (after ([] : List (Op MaskCodec))).activeCodec.2 = .identity := rfl
  refine stored_event_reads_back durable_blobs lookAlikeWire losslessBase64_nullWire plain serde []
    trivial ?_ (fun _ => 0) event ?_ rfl off []
  · intro seed raw
    rw [hidentity]
    exact ⟨raw, rfl, rfl⟩
  · intro key v hv
    have hpayload : v = lookAlike := by
      simp only [event, payload, payloadSlot, named] at hv
      split_ifs at hv
      · exact (Option.some.inj hv).symm
    subst hpayload
    refine ⟨⟨lookAlikeText, rfl, rfl⟩, ?_⟩
    intro stored hstored
    have hsame : stored = lookAlike := by
      have hplain : (after ([] : List (Op MaskCodec))).encodePayload lookAlikeWire 0 lookAlike =
          .ok lookAlike := by decide
      exact Except.ok.inj (hstored.symm.trans hplain)
    rw [hsame]
    exact ⟨lookAlikeText, rfl, rfl⟩

end PayloadCodecs

end Harvest.Codec
