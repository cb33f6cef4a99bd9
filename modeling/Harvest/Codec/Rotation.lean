import Harvest.Codec.Registry
import Harvest.Lib.Run

/-!
# Key rotation over whole runs

Runs of the registry's methods in any order. A refused call leaves the registry as
it was. `livePins` counts the sweep guards from the calls alone, without looking at
the registry.

Proved here:
* `consistent_run`: every run keeps the registry consistent.
* `decodes_run`: a run that does not retire a key id keeps the codec of every
  payload that was written under it.
* `rotation_never_loses_a_payload`: the contract of key rotation.
-/

namespace Harvest.Codec.PayloadCodecs

open Lib PayloadCodec
open Std (TreeMap)

inductive Op (C : Type)
  | registerKey (keyId : String) (codec : DynCodec C)
  | setActiveKey (keyId : String)
  | pin (keyId : String)
  | unpin (keyId : String)
  | retireKeyLocal (keyId : String)
  | setDefault (codec : DynCodec C)
  | register (codec : DynCodec C)
deriving DecidableEq, Repr

variable {C : Type} [PayloadCodec C]

def apply (r : PayloadCodecs C) : Op C → Except HarvestError (PayloadCodecs C)
  | .registerKey keyId codec => r.registerKey keyId codec
  | .setActiveKey keyId => r.setActiveKey keyId
  | .pin keyId => .ok (r.pinKeyForSweep keyId)
  | .unpin keyId => .ok (r.unpinKeyForSweep keyId)
  | .retireKeyLocal keyId => r.retireKeyLocal keyId
  | .setDefault codec => .ok (r.setDefault codec)
  | .register codec => .ok (r.register codec)

def step (r : PayloadCodecs C) (op : Op C) : PayloadCodecs C :=
  match r.apply op with
  | .ok r' => r'
  | .error _ => r

/-- Plain codecs come with a codec id of their own, and the legacy key entry agrees
with them. -/
def Allowed (r : PayloadCodecs C) : Op C → Prop
  | .registerKey keyId codec => r.LegacyFresh keyId codec
  | .setDefault codec => r.Fresh codec
  | .register codec => r.Fresh codec
  | _ => True

instance [DecidableEq C] (r : PayloadCodecs C) (op : Op C) : Decidable (r.Allowed op) := by
  cases op <;> unfold Allowed <;> unfold Fresh LegacyFresh <;> infer_instance

/-- The registry after a list of calls on a new one. -/
def after (ops : List (Op C)) : PayloadCodecs C := exec step new ops

theorem after_append (xs ys : List (Op C)) : after (xs ++ ys) = exec step (after xs) ys :=
  exec_append step new xs ys

/-! ## One call -/

theorem step_cases {P : PayloadCodecs C → Prop} {r : PayloadCodecs C} (op : Op C)
    (hok : ∀ r', r.apply op = .ok r' → P r') (herr : P r) : P (r.step op) := by
  unfold step
  split
  case h_1 r' h => exact hok r' h
  case h_2 => exact herr

theorem consistent_step (r : PayloadCodecs C) (op : Op C) (hr : r.Consistent)
    (hallowed : r.Allowed op) : (r.step op).Consistent := by
  refine step_cases op ?_ hr
  intro r' h
  cases op with
  | registerKey keyId codec => exact consistent_registerKey hr hallowed h
  | setActiveKey keyId => exact consistent_setActiveKey hr h
  | pin keyId =>
    cases h
    exact consistent_pinKeyForSweep hr keyId
  | unpin keyId =>
    cases h
    exact consistent_unpinKeyForSweep hr keyId
  | retireKeyLocal keyId => exact consistent_retireKeyLocal hr h
  | setDefault codec =>
    cases h
    exact consistent_setDefault hr hallowed
  | register codec =>
    cases h
    exact consistent_register hr hallowed

/-- A plain registration never changes: a codec id names one codec. -/
theorem codecs_step {r : PayloadCodecs C} {op : Op C} (hallowed : r.Allowed op) {id : String}
    {codec : DynCodec C} (hcodec : r.codecs[id]? = some codec) :
    (r.step op).codecs[id]? = some codec := by
  have hinsert (new : DynCodec C) (hfresh : r.Fresh new) :
      (r.codecs.insert (codecId new) new)[id]? = some codec := by
    simp only [TreeMap.getElem?_insert, compare_eq_iff_eq]
    split_ifs with hid
    · rw [hfresh.1 codec (by rw [hid]; exact hcodec)]
    · exact hcodec
  refine step_cases (P := fun r' => r'.codecs[id]? = some codec) op ?_ hcodec
  intro r' h
  cases op with
  | registerKey keyId new =>
    obtain ⟨-, -, rfl⟩ := registerKey_ok h
    exact hcodec
  | setActiveKey keyId =>
    obtain ⟨-, rfl⟩ := setActiveKey_ok h
    exact hcodec
  | pin keyId =>
    cases h
    exact hcodec
  | unpin keyId =>
    cases h
    rw [unpinKeyForSweep_eq]
    exact hcodec
  | retireKeyLocal keyId =>
    obtain ⟨-, -, rfl⟩ := retireKeyLocal_ok h
    exact hcodec
  | setDefault new =>
    cases h
    exact hinsert new hallowed
  | register new =>
    cases h
    exact hinsert new hallowed

/-- A call keeps a key with its codec, or it is the retirement of that key, which
then is neither pinned nor active. -/
theorem keys_step {r : PayloadCodecs C} (op : Op C) {keyId : String} {codec : DynCodec C}
    (hkey : r.keys[keyId]? = some codec) :
    (r.step op).keys[keyId]? = some codec ∨
      keyId ∉ (r.step op).keys ∧ keyId ∉ r.sweepPins ∧ r.active ≠ keyId := by
  refine step_cases (P := fun r' => r'.keys[keyId]? = some codec ∨
    keyId ∉ r'.keys ∧ keyId ∉ r.sweepPins ∧ r.active ≠ keyId) op ?_ (Or.inl hkey)
  intro r' h
  have hmem : keyId ∈ r.keys := TreeMap.mem_iff_isSome_getElem?.mpr (by simp [hkey])
  cases op with
  | registerKey k new =>
    obtain ⟨-, hnew, rfl⟩ := registerKey_ok h
    have hne : k ≠ keyId := by
      rintro rfl
      exact hnew hmem
    left
    simp only [TreeMap.getElem?_insert, compare_eq_iff_eq, if_neg hne]
    exact hkey
  | setActiveKey k =>
    obtain ⟨-, rfl⟩ := setActiveKey_ok h
    exact Or.inl hkey
  | pin k =>
    cases h
    exact Or.inl hkey
  | unpin k =>
    cases h
    rw [unpinKeyForSweep_eq]
    exact Or.inl hkey
  | retireKeyLocal k =>
    obtain ⟨hpin, hactive, rfl⟩ := retireKeyLocal_ok h
    by_cases hk : k = keyId
    · subst hk
      exact Or.inr ⟨by simp, hpin, hactive⟩
    · left
      simp only [TreeMap.getElem?_erase, compare_eq_iff_eq, if_neg hk]
      exact hkey
  | setDefault new =>
    cases h
    exact Or.inl hkey
  | register new =>
    cases h
    exact Or.inl hkey

omit [PayloadCodec C] in
theorem mem_keys_iff {r : PayloadCodecs C} {keyId : String} :
    keyId ∈ r.keys ↔ ∃ codec, r.keys[keyId]? = some codec := by
  rw [TreeMap.mem_iff_isSome_getElem?, Option.isSome_iff_exists]

theorem mem_keys_step {r : PayloadCodecs C} (op : Op C) {keyId : String} (hmem : keyId ∈ r.keys)
    (hheld : keyId = r.active ∨ keyId ∈ r.sweepPins) : keyId ∈ (r.step op).keys := by
  obtain ⟨codec, hcodec⟩ := mem_keys_iff.mp hmem
  rcases keys_step op hcodec with h | ⟨-, hpin, hactive⟩
  · exact mem_keys_iff.mpr ⟨codec, h⟩
  · rcases hheld with h | h
    · exact absurd h.symm hactive
    · exact absurd h hpin

/-- The active key is never retired, so the key map never becomes empty again. -/
theorem keys_nonempty_step {r : PayloadCodecs C} (op : Op C) (hr : r.Consistent)
    (hne : r.keys.isEmpty = false) : (r.step op).keys.isEmpty = false :=
  TreeMap.isEmpty_eq_false_iff_exists_mem.mpr
    ⟨r.active, mem_keys_step op (hr.active_mem hne) (Or.inl rfl)⟩

/-- The call does not take the key id away. -/
def Keeps (keyId : String) (r : PayloadCodecs C) (op : Op C) : Prop :=
  keyId ∈ r.keys → keyId ∈ (r.step op).keys

instance (keyId : String) (r : PayloadCodecs C) (op : Op C) : Decidable (Keeps keyId r op) := by
  unfold Keeps
  infer_instance

theorem decodes_step {r : PayloadCodecs C} {op : Op C} {keyId : String} {codec : DynCodec C}
    (hallowed : r.Allowed op) (hkeeps : Keeps keyId r op) (h : r.Decodes keyId codec) :
    (r.step op).Decodes keyId codec := by
  rcases h with hkey | ⟨hlegacy, hplain⟩
  · rcases keys_step op hkey with h | ⟨hgone, -⟩
    · exact Or.inl h
    · exact absurd (hkeeps (mem_keys_iff.mpr ⟨codec, hkey⟩)) hgone
  · exact Or.inr ⟨hlegacy, codecs_step hallowed hplain⟩

/-! ## Pins -/

/-- The guards on a key id that are alive after one more call. -/
def countPin (keyId : String) (live : Nat) : Op C → Nat
  | .pin k => if k = keyId then live + 1 else live
  | .unpin k => if k = keyId then live - 1 else live
  | _ => live

/-- The guards on a key id that a list of calls leaves alive. -/
def livePins (keyId : String) (ops : List (Op C)) : Nat := ops.foldl (countPin keyId) 0

/-- The entry that a number of live guards leaves in the map. -/
def pinEntry (live : Nat) : Option Nat := if live = 0 then none else some live

theorem sweepPins_step {r : PayloadCodecs C} (op : Op C) {keyId : String} {live : Nat}
    (hpins : r.sweepPins[keyId]? = pinEntry live) :
    (r.step op).sweepPins[keyId]? = pinEntry (countPin keyId live op) := by
  cases op with
  | pin k =>
    simp only [step, apply, pinKeyForSweep, countPin, TreeMap.getElem?_insert, compare_eq_iff_eq]
    by_cases hk : k = keyId
    · subst hk
      by_cases hlive : live = 0 <;> simp [hpins, pinEntry, hlive]
    · simp [hk, hpins]
  | unpin k =>
    simp only [step, apply, unpinKeyForSweep, countPin]
    by_cases hk : k = keyId
    · subst hk
      by_cases hlive : live = 0
      · simp [hpins, pinEntry, hlive]
      · by_cases hlast : live - 1 = 0 <;> simp [hpins, pinEntry, hlive, hlast]
    · simp only [if_neg hk]
      cases hcount : r.sweepPins[k]? with
      | none => exact hpins
      | some count =>
        dsimp only
        split_ifs
        · simp only [TreeMap.getElem?_erase, compare_eq_iff_eq, if_neg hk, hpins]
        · simp only [TreeMap.getElem?_insert, compare_eq_iff_eq, if_neg hk, hpins]
  | registerKey k codec =>
    refine step_cases (P := fun r' => r'.sweepPins[keyId]? = pinEntry live) _ ?_ hpins
    intro r' h
    obtain ⟨-, -, rfl⟩ := registerKey_ok h
    exact hpins
  | setActiveKey k =>
    refine step_cases (P := fun r' => r'.sweepPins[keyId]? = pinEntry live) _ ?_ hpins
    intro r' h
    obtain ⟨-, rfl⟩ := setActiveKey_ok h
    exact hpins
  | retireKeyLocal k =>
    refine step_cases (P := fun r' => r'.sweepPins[keyId]? = pinEntry live) _ ?_ hpins
    intro r' h
    obtain ⟨-, -, rfl⟩ := retireKeyLocal_ok h
    exact hpins
  | setDefault codec => exact hpins
  | register codec => exact hpins

theorem sweepPins_after (keyId : String) (ops : List (Op C)) :
    (after ops).sweepPins[keyId]? = pinEntry (livePins keyId ops) := by
  have hrun (r : PayloadCodecs C) (live : Nat) (hpins : r.sweepPins[keyId]? = pinEntry live) :
      (exec step r ops).sweepPins[keyId]? = pinEntry (ops.foldl (countPin keyId) live) := by
    induction ops generalizing r live with
    | nil => exact hpins
    | cons op ops ih => exact ih _ _ (sweepPins_step op hpins)
  exact hrun new 0 (by simp [new, pinEntry])

theorem mem_sweepPins_iff (keyId : String) (ops : List (Op C)) :
    keyId ∈ (after ops).sweepPins ↔ 0 < livePins keyId ops := by
  rw [TreeMap.mem_iff_isSome_getElem?, sweepPins_after, pinEntry]
  split_ifs with h <;> simp [h, Nat.pos_iff_ne_zero]

/-! ## Runs -/

theorem consistent_run {ops : List (Op C)} (hrun : Legal step Allowed new ops) :
    (after ops).Consistent :=
  invariant consistent_step consistent_new hrun

theorem keys_nonempty_run {r : PayloadCodecs C} {ops : List (Op C)} (hr : r.Consistent)
    (hne : r.keys.isEmpty = false) (hrun : Legal step Allowed r ops) :
    (exec step r ops).keys.isEmpty = false := by
  induction ops generalizing r with
  | nil => exact hne
  | cons op ops ih =>
    exact ih (consistent_step r op hr hrun.1) (keys_nonempty_step op hr hne) hrun.2

/-- A run that does not retire a key id keeps the codec of what was written under it. -/
theorem decodes_run {r : PayloadCodecs C} {ops : List (Op C)} {keyId : String}
    {codec : DynCodec C} (hrun : Legal step Allowed r ops)
    (hkeeps : Legal step (Keeps keyId) r ops) (h : r.Decodes keyId codec) :
    (exec step r ops).Decodes keyId codec := by
  induction ops generalizing r with
  | nil => exact h
  | cons op ops ih => exact ih hrun.2 hkeeps.2 (decodes_step hrun.1 hkeeps.1 h)

/-- **Key rotation never loses a payload.** -/
theorem rotation_never_loses_a_payload (wire : Wire) (hb64 : wire.LosslessBase64)
    (hinv : ∀ codec : C, Inverts codec) (ops : List (Op C))
    (hrun : Legal step Allowed new ops) :
    (∀ early late, ops = early ++ late → ∀ seed payload stored, wire.RoundTrips payload →
      (after early).encodePayload wire seed payload = .ok stored →
      Legal step (Keeps (after early).writeKeyId) (after early) late →
      (after ops).decodePayload wire stored = .ok payload) ∧
    (∀ early late, ops = early ++ late → (after early).keys.isEmpty = false →
      (after ops).active ∈ (after ops).keys) ∧
    (∀ early op late, ops = early ++ op :: late → ∀ keyId ∈ (after early).keys,
      keyId = (after early).active ∨ 0 < livePins keyId early →
      keyId ∈ (after (early ++ [op])).keys) ∧
    (after ops).anyKeys = ! (after ops).keys.isEmpty := by
  have hconsistent := consistent_run hrun
  refine ⟨?_, ?_, ?_, hconsistent.anyKeys_eq⟩
  · rintro early late rfl seed payload stored hjson hstored hkept
    obtain ⟨hearly, hlate⟩ := (legal_append step Allowed new early late).mp hrun
    have hthen := consistent_run hearly
    have hheld : (after (early ++ late)).Decodes (after early).writeKeyId
        (after early).activeCodec.2 := by
      rw [after_append]
      exact decodes_run hlate hkept (decodes_active hthen).1
    exact decodePayload_of_decodes (inverts_dyn hinv _) hb64 hjson hthen hstored hconsistent hheld
  · rintro early late rfl hne
    obtain ⟨hearly, hlate⟩ := (legal_append step Allowed new early late).mp hrun
    apply hconsistent.active_mem
    rw [after_append]
    exact keys_nonempty_run (consistent_run hearly) hne hlate
  · rintro early op late rfl keyId hmem hheld
    rw [after_append]
    refine mem_keys_step op hmem ?_
    rcases hheld with h | h
    · exact Or.inl h
    · exact Or.inr ((mem_sweepPins_iff keyId early).mpr h)

/-- A codec that masks every byte with its key. -/
structure MaskCodec where
  mask : UInt8
deriving DecidableEq, Repr

instance : PayloadCodec MaskCodec where
  codecId _ := "mask"
  encode codec _ raw := .ok (raw.map (· ^^^ codec.mask))
  decode codec encoded := .ok (encoded.map (· ^^^ codec.mask))
  boundKeyId _ := none

theorem inverts_maskCodec (codec : MaskCodec) : Inverts codec := by
  intro seed raw encoded hencode
  cases hencode
  show Except.ok ((raw.map (· ^^^ codec.mask)).map (· ^^^ codec.mask)) = Except.ok raw
  congr 1
  induction raw with
  | nil => rfl
  | cons b raw ih => simp [ih]

/-- Agrees with `serde_json` on `null` and with `base64` on the one text that the
run below stores. -/
def nullWire : Wire where
  toVec _ := .ok [110, 117, 108, 108]
  fromSlice _ := .ok .null
  b64Encode bytes :=
    if bytes = [111, 116, 109, 109] then "b3RtbQ=="
    else String.ofList ('!' :: bytes.map fun b => Char.ofNat b.toNat)
  b64Decode text :=
    if text = "b3RtbQ==" then .ok [111, 116, 109, 109]
    else .ok (text.toList.tail.map fun c => UInt8.ofNat c.toNat)

theorem losslessBase64_nullWire : nullWire.LosslessBase64 := by
  have hchar (b : UInt8) : UInt8.ofNat (Char.ofNat b.toNat).toNat = b := by
    have hvalid : b.toNat.isValidChar := Or.inl (by have := b.toNat_lt; omega)
    simp [Char.ofNat, hvalid, Char.toNat, Char.ofNatAux]
  intro bytes
  simp only [nullWire]
  by_cases hbytes : bytes = [111, 116, 109, 109]
  · simp [hbytes]
  · rw [if_neg hbytes, if_neg]
    · simp [Function.comp_def, hchar]
    · intro htext
      have hhead := congrArg (fun text => text.toList.head?) htext
      simp at hhead

/-- A payload written under `k1` is still read after a rotation to `k2`, while a
sweep pins `k1` against its retirement. -/
theorem rotation_never_loses_a_payload_pinned :
    let ops : List (Op MaskCodec) := [.registerKey "k1" (.custom ⟨1⟩),
      .registerKey "k2" (.custom ⟨2⟩), .setActiveKey "k2", .pin "k1", .retireKeyLocal "k1"]
    let stored := envelope nullWire "mask" "k1" [111, 116, 109, 109] false
    (after (ops.take 1)).encodePayload nullWire 0 .null = .ok stored ∧
      (after ops).decodePayload nullWire stored = .ok .null := by
  intro ops stored
  obtain ⟨hdecode, -⟩ := rotation_never_loses_a_payload nullWire losslessBase64_nullWire
    inverts_maskCodec ops (by decide)
  have hstored : (after (ops.take 1)).encodePayload nullWire 0 .null = .ok stored := by
    decide
  refine ⟨hstored, hdecode (ops.take 1) (ops.drop 1) rfl 0 .null stored ⟨_, rfl, rfl⟩ hstored ?_⟩
  decide

end Harvest.Codec.PayloadCodecs
