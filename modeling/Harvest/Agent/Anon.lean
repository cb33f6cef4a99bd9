import Harvest.Archive.Segments
import Harvest.Lib.Rank
import Harvest.Wasm.Journal
import Mathlib.Data.String.Basic
import Mathlib.Order.Bounds.Basic

/-!
# Anonymous ids

Model of `assign` in `eval/anon.rs` and of `pool_slots` in `eval/anonymise.rs`. A candidate is named
by the first digits of a digest of its key. All ids of one call have the same number of digits, the
fewest from 12 on that keep the ids apart. The rank of a candidate in a pool is the place of its id.

SHA-256 is a parameter. A digest is written in hex, so its bytes are its characters.

Proved here:
* `idWidth_le_iff`: the width is the least above every shared count.
* `widthOf_le_iff`: it is the least from 12 on at which all cuts of the digests are different.
* `poolSlots_eq`: a slot is the number of smaller ids, and the id.
* `anonymous_ids_do_not_depend_on_the_order`: both are the same for every order of the inputs.
-/

namespace Harvest.Agent.Anon

open Harvest.Archive (hex)
open Harvest.Lib (ranks sortedIndices)

/-! ## Ids -/

def anonPrefix : String := "c-"

def minAnonHex : ℕ := 12

def domain : List UInt8 := "autumn-harvest/eval-anon/v1".toByteArray.data.toList

structure AnonId where
  asStr : String
deriving DecidableEq, Repr

structure CandidateKey where
  digest : String
  occurrence : UInt32
deriving DecidableEq, Repr

/-- `to_le_bytes` of a number of so many bytes. -/
def toLeBytes (width n : ℕ) : List UInt8 := (List.range width).map fun i => UInt8.ofNat (n / 256 ^ i)

/-- A field behind its length. -/
def fieldBytes (field : String) : List UInt8 :=
  toLeBytes 8 field.utf8ByteSize ++ field.toByteArray.data.toList

/-- The number of leading digits that `a` and `b` share. -/
def sharedDigits : List Char → List Char → ℕ
  | a :: as, b :: bs => if a = b then sharedDigits as bs + 1 else 0
  | _, _ => 0

/-- The counts of all pairs, in the order of the two loops of `assign`. -/
def sharedCounts : List String → List ℕ
  | [] => []
  | a :: rest => rest.map (fun b => sharedDigits a.toList b.toList) ++ sharedCounts rest

def idWidth (shared : List ℕ) (floor cap : ℕ) : ℕ :=
  shared.foldl (fun width count => if width ≤ count ∧ count < cap then count + 1 else width) floor

/-- The id that shows the first `width` digits of a digest. -/
def idOf (width : ℕ) (hex : String) : AnonId :=
  ⟨ anonPrefix ++ String.ofList (hex.toList.take (min width hex.utf8ByteSize))⟩

section Assign

variable (sha256 : ByteArray → Vector UInt8 32) (seed : UInt64) (source : String)

/-- The bytes of one key that are hashed. -/
def keyBytes (key : CandidateKey) : List UInt8 :=
  domain ++ toLeBytes 8 seed.toNat ++ [source, key.digest].flatMap fieldBytes ++
    toLeBytes 4 key.occurrence.toNat

def digest (key : CandidateKey) : String :=
  hex (sha256 ⟨(keyBytes seed source key).toArray⟩).toList

/-- The width of the ids of these digests. -/
def widthOf (full : List String) : ℕ :=
  let cap := full.head?.elim minAnonHex String.utf8ByteSize
  idWidth (sharedCounts full) minAnonHex (max cap minAnonHex)

def assign (keys : List CandidateKey) : List AnonId :=
  let full := keys.map (digest sha256 seed source)
  full.map (idOf (widthOf full))

/-! ## Slots -/

inductive EvalError
  | duplicateCandidate (first second : ℕ)
deriving DecidableEq, Repr

/-- The first pair of equal digests, in input order. -/
def findDuplicate (digests : List String) : Option (ℕ × ℕ) :=
  (List.range digests.length).findSome? fun first =>
    ((List.range' (first + 1) (digests.length - (first + 1))).find? fun second =>
      digests[second]? = digests[first]?).map fun second => (first, second)

/-- The key of a candidate of a pool. -/
def poolKey (digest : String) : CandidateKey := ⟨digest, 0⟩

/-- The pool rank and the id of each candidate digest, by input index. -/
def poolSlots (digests : List String) : Except EvalError (List (ℕ × AnonId)) :=
  match findDuplicate digests with
  | some (first, second) => .error (.duplicateCandidate first second)
  | none =>
    let ids := assign sha256 seed source (digests.map poolKey)
    let order := sortedIndices (ids.map AnonId.asStr) ""
    .ok ((ranks order (List.replicate ids.length 0)).zip ids)

end Assign

/-! ## Shared digits -/

/-- Two cuts of different texts of one length are equal up to the digits they share. -/
theorem take_eq_take_iff {a b : List Char} (hlength : a.length = b.length) (hne : a ≠ b) (width : ℕ) :
    a.take width = b.take width ↔ width ≤ sharedDigits a b := by
  induction a generalizing b width with
  | nil => exact absurd (List.eq_nil_of_length_eq_zero hlength.symm).symm hne
  | cons x a ih =>
    cases b with
    | nil => exact absurd hlength (Nat.succ_ne_zero _)
    | cons y b =>
      cases width with
      | zero => simp
      | succ width =>
        rw [List.take_succ_cons, List.take_succ_cons, List.cons.injEq, sharedDigits]
        by_cases hhead : x = y
        · subst hhead
          have htail : a ≠ b := fun h => hne (h ▸ rfl)
          rw [if_pos rfl, ih (Nat.succ.inj hlength) htail, Nat.succ_le_succ_iff]
          simp
        · rw [if_neg hhead]
          simp [hhead]

theorem sharedDigits_lt {a b : List Char} (hlength : a.length = b.length) (hne : a ≠ b) :
    sharedDigits a b < a.length := by
  by_contra hle
  have hwhole := (take_eq_take_iff hlength hne a.length).mpr (Nat.le_of_not_lt hle)
  rw [List.take_length, hlength, List.take_length] at hwhole
  exact hne hwhole

theorem forall_mem_sharedCounts {P : ℕ → Prop} (full : List String) :
    (∀ count ∈ sharedCounts full, P count) ↔
      full.Pairwise fun a b => P (sharedDigits a.toList b.toList) := by
  induction full with
  | nil => simp [sharedCounts]
  | cons a rest ih =>
    rw [sharedCounts, List.forall_mem_append, List.forall_mem_map, ih, List.pairwise_cons]

/-! ## The width -/

/-- The width is the least from `floor` on that is above each count below `cap`. -/
theorem idWidth_le_iff (shared : List ℕ) (floor cap width : ℕ) :
    idWidth shared floor cap ≤ width ↔
      floor ≤ width ∧ ∀ count ∈ shared, count < cap → count < width := by
  induction shared generalizing floor with
  | nil => simp [idWidth]
  | cons count shared ih =>
    rw [idWidth, List.foldl_cons, ← idWidth, ih, List.forall_mem_cons, ← and_assoc]
    refine and_congr_left fun _ => ?_
    split_ifs with htaken
    · omega
    · omega

/-- A digest has 64 digits. -/
def IsDigest (text : String) : Prop := text.toList.length = 64 ∧ text.utf8ByteSize = 64

theorem isDigest_digest (sha256 : ByteArray → Vector UInt8 32) (seed : UInt64) (source : String)
    (key : CandidateKey) : IsDigest (digest sha256 seed source key) := by
  have hlength : (digest sha256 seed source key).toList.length = 64 := by
    rw [digest, Archive.length_hex, Vector.length_toList]
  have hsize : ∀ c ∈ (digest sha256 seed source key).toList, c.utf8Size = 1 := fun c hc =>
    Archive.utf8Size_hex hc
  have hbytes := Wasm.utf8ByteSize_of_ascii hsize
  rw [String.ofList_toList, hlength] at hbytes
  exact ⟨hlength, hbytes⟩

section Width

variable {full : List String}

/-- The width of digests is the least from 12 on at which all cuts are different. -/
theorem widthOf_le_iff (hdigests : ∀ text ∈ full, IsDigest text) (hnodup : full.Nodup) (width : ℕ) :
    widthOf full ≤ width ↔
      minAnonHex ≤ width ∧ (full.map fun text => text.toList.take width).Nodup := by
  have hcap : full = [] ∨ max (full.head?.elim minAnonHex String.utf8ByteSize) minAnonHex = 64 := by
    cases full with
    | nil => exact .inl rfl
    | cons first rest =>
      refine .inr ?_
      show max first.utf8ByteSize minAnonHex = 64
      rw [(hdigests first List.mem_cons_self).2]
      rfl
  have hpair : ∀ {a b}, a ∈ full → b ∈ full → a ≠ b →
      ((sharedDigits a.toList b.toList < 64 → sharedDigits a.toList b.toList < width) ↔
        a.toList.take width ≠ b.toList.take width) := by
    intro a b ha hb hne
    have hlength : a.toList.length = b.toList.length := by rw [(hdigests a ha).1, (hdigests b hb).1]
    have hlists : a.toList ≠ b.toList := fun h => hne (String.toList_inj.mp h)
    have hlt := sharedDigits_lt hlength hlists
    rw [(hdigests a ha).1] at hlt
    rw [Ne, take_eq_take_iff hlength hlists, Nat.not_le]
    exact ⟨fun h => h hlt, fun h _ => h⟩
  rw [widthOf, idWidth_le_iff]
  refine and_congr_right fun _ => ?_
  rcases hcap with rfl | hcap
  · simp [sharedCounts]
  · rw [hcap, forall_mem_sharedCounts (P := fun count => count < 64 → count < width), List.Nodup,
      List.pairwise_map]
    constructor
    · intro hshared
      exact (hnodup.and hshared).imp_of_mem fun ha hb h => (hpair ha hb h.1).mp h.2
    · intro hcuts
      exact (hnodup.and hcuts).imp_of_mem fun ha hb h => (hpair ha hb h.1).mpr h.2

/-- A width beyond the digests is never needed. -/
theorem widthOf_le (hdigests : ∀ text ∈ full, IsDigest text) (hnodup : full.Nodup) :
    widthOf full ≤ 64 := by
  refine (widthOf_le_iff hdigests hnodup 64).mpr ⟨by decide, ?_⟩
  have hwhole : (full.map fun text => text.toList.take 64) = full.map String.toList :=
    List.map_congr_left fun text htext => List.take_of_length_le (hdigests text htext).1.le
  rw [hwhole]
  exact hnodup.map fun _ _ h => String.toList_injective h

theorem widthOf_perm {other : List String} (hdigests : ∀ text ∈ full, IsDigest text)
    (hnodup : full.Nodup) (hperm : other.Perm full) : widthOf other = widthOf full := by
  refine eq_of_forall_ge_iff fun width => ?_
  rw [widthOf_le_iff hdigests hnodup, widthOf_le_iff (fun text htext =>
    hdigests text (hperm.mem_iff.mp htext)) (hperm.nodup_iff.mpr hnodup),
    (hperm.map _).nodup_iff]

/-- At their width the ids are the digests, cut. -/
theorem asStr_idOf {text : String} (hdigest : IsDigest text) {width : ℕ} (hwidth : width ≤ 64) :
    (idOf width text).asStr.toList = 'c' :: '-' :: text.toList.take width := by
  rw [idOf, hdigest.2, min_eq_left hwidth, String.toList_append, String.toList_ofList]
  rfl

/-- The ids of different digests are different. -/
theorem nodup_map_idOf (hdigests : ∀ text ∈ full, IsDigest text) (hnodup : full.Nodup) :
    (full.map (idOf (widthOf full))).Nodup := by
  have hcuts := ((widthOf_le_iff hdigests hnodup _).mp le_rfl).2
  rw [List.Nodup, List.pairwise_map] at hcuts ⊢
  refine hcuts.imp_of_mem fun {a b} ha hb hne hsame => hne ?_
  have htexts := congrArg (fun id => id.asStr.toList) hsame
  simp only [asStr_idOf (hdigests a ha) (widthOf_le hdigests hnodup),
    asStr_idOf (hdigests b hb) (widthOf_le hdigests hnodup), List.cons.injEq, true_and] at htexts
  exact htexts

end Width

/-! ## Slots -/

/-- A pool is refused exactly when a digest is repeated. -/
theorem findDuplicate_eq_none_iff (digests : List String) :
    findDuplicate digests = none ↔ digests.Nodup := by
  rw [findDuplicate, List.findSome?_eq_none_iff, List.nodup_iff_pairwise_ne,
    List.pairwise_iff_getElem]
  constructor
  · intro h i j hi hj hij hsame
    have hnone := h i (List.mem_range.mpr hi)
    rw [Option.map_eq_none_iff, List.find?_eq_none] at hnone
    have hrange : j ∈ List.range' (i + 1) (digests.length - (i + 1)) :=
      List.mem_range'_1.mpr ⟨hij, by omega⟩
    refine hnone j hrange (decide_eq_true ?_)
    rw [List.getElem?_eq_getElem hi, List.getElem?_eq_getElem hj, hsame]
  · intro h first hfirst
    rw [Option.map_eq_none_iff, List.find?_eq_none]
    intro second hsecond hsame
    have hi := List.mem_range.mp hfirst
    obtain ⟨hij, hj⟩ := List.mem_range'_1.mp hsecond
    have hlt : second < digests.length := by omega
    have hsame := of_decide_eq_true hsame
    rw [List.getElem?_eq_getElem hlt, List.getElem?_eq_getElem hi, Option.some.injEq] at hsame
    exact h first second hi hlt hij hsame.symm

/-- The slot of a digest among others: the number of smaller ids, and the id. -/
def slotOf (width : ℕ) (full : List String) (text : String) : ℕ × AnonId :=
  (full.countP fun other => (idOf width other).asStr < (idOf width text).asStr, idOf width text)

/-- The loops of `pool_slots` count the smaller ids. -/
theorem ranks_ids {full : List String} (hdigests : ∀ text ∈ full, IsDigest text)
    (hnodup : full.Nodup) :
    let ids := full.map (idOf (widthOf full))
    ranks (sortedIndices (ids.map AnonId.asStr) "") (List.replicate ids.length 0) =
      full.map fun text => (slotOf (widthOf full) full text).1 := by
  intro ids
  have htexts : (ids.map AnonId.asStr).Nodup :=
    (nodup_map_idOf hdigests hnodup).map fun a b h => congrArg AnonId.mk h
  have hranks := Lib.ranks_sortedIndices _ "" htexts
  rw [List.length_map] at hranks
  rw [hranks, List.map_map, List.map_map]
  refine List.map_congr_left fun text _ => ?_
  show ((full.map _).map _).countP _ = full.countP _
  rw [List.map_map, List.countP_map]
  rfl

section Pool

variable (sha256 : ByteArray → Vector UInt8 32) (seed : UInt64) (source : String)

/-- The full digests of a pool. -/
def poolDigests (digests : List String) : List String :=
  digests.map fun candidate => digest sha256 seed source (poolKey candidate)

theorem map_poolDigests {β : Type} (f : String → β) (digests : List String) :
    (poolDigests sha256 seed source digests).map f =
      digests.map fun candidate => f (digest sha256 seed source (poolKey candidate)) :=
  List.map_map

theorem isDigest_poolDigests (digests : List String) :
    ∀ text ∈ poolDigests sha256 seed source digests, IsDigest text := by
  intro text htext
  obtain ⟨candidate, -, rfl⟩ := List.mem_map.mp htext
  exact isDigest_digest sha256 seed source _

theorem assign_poolKey (digests : List String) :
    assign sha256 seed source (digests.map poolKey) =
      (poolDigests sha256 seed source digests).map
        (idOf (widthOf (poolDigests sha256 seed source digests))) := by
  have hfull : (digests.map poolKey).map (digest sha256 seed source) =
      poolDigests sha256 seed source digests := List.map_map
  rw [assign, hfull]

/-- A pool whose full digests are distinct is not refused, and each candidate gets its slot. -/
theorem poolSlots_eq {digests : List String}
    (hnodup : (poolDigests sha256 seed source digests).Nodup) :
    poolSlots sha256 seed source digests =
      .ok ((poolDigests sha256 seed source digests).map
        (slotOf (widthOf (poolDigests sha256 seed source digests))
          (poolDigests sha256 seed source digests))) := by
  have hnone : findDuplicate digests = none :=
    (findDuplicate_eq_none_iff digests).mpr hnodup.of_map
  rw [poolSlots, hnone, assign_poolKey]
  simp only [ranks_ids (isDigest_poolDigests sha256 seed source digests) hnodup, List.zip_map']
  rfl

/-- The ranks of a pool are a permutation of its places. -/
theorem ranks_poolDigests_perm {digests : List String}
    (hnodup : (poolDigests sha256 seed source digests).Nodup) :
    ((poolDigests sha256 seed source digests).map fun text =>
      (slotOf (widthOf (poolDigests sha256 seed source digests))
        (poolDigests sha256 seed source digests) text).1).Perm (List.range digests.length) := by
  rw [← ranks_ids (isDigest_poolDigests sha256 seed source digests) hnodup]
  have hperm := Lib.ranks_perm (Lib.sortedIndices_perm
    (((poolDigests sha256 seed source digests).map
      (idOf (widthOf (poolDigests sha256 seed source digests)))).map AnonId.asStr) "")
  simpa [poolDigests] using hperm

end Pool

/-! ## The order of the inputs -/

section Order

variable (sha256 : ByteArray → Vector UInt8 32) (seed : UInt64) (source : String)

/-- The ids of keys: pairwise distinct, cut at the least width from 12 on at which no two digests
agree, and the same for each key in every order of the keys. -/
structure NamesApart (keys : List CandidateKey) : Prop where
  distinct : (assign sha256 seed source keys).Nodup
  cut : ∃ width, IsLeast {width | 12 ≤ width ∧
      (keys.map fun key => (digest sha256 seed source key).toList.take width).Nodup} width ∧
    (∀ id ∈ assign sha256 seed source keys, id.asStr.length = 2 + width) ∧
    ∀ other, other.Perm keys → assign sha256 seed source other = other.map fun key =>
      ⟨"c-" ++ String.ofList ((digest sha256 seed source key).toList.take width)⟩

/-- The slots of a pool: the ids, and ranks in the order of the ids that use every place once, the
same for each candidate in every order of the candidates. -/
structure RanksApart (digests : List String) : Prop where
  slots : ∃ slot : String → ℕ × AnonId,
    (∀ other, other.Perm digests → poolSlots sha256 seed source other = .ok (other.map slot)) ∧
    (digests.map fun candidate => (slot candidate).2) =
      assign sha256 seed source (digests.map poolKey) ∧
    (digests.map fun candidate => (slot candidate).1).Perm (List.range digests.length) ∧
    ∀ a ∈ digests, ∀ b, (slot a).1 < (slot b).1 ↔ (slot a).2.asStr < (slot b).2.asStr

theorem namesApart {keys : List CandidateKey}
    (hnodup : (keys.map (digest sha256 seed source)).Nodup) :
    NamesApart sha256 seed source keys := by
  have hdigests : ∀ text ∈ keys.map (digest sha256 seed source), IsDigest text := by
    intro text htext
    obtain ⟨key, -, rfl⟩ := List.mem_map.mp htext
    exact isDigest_digest sha256 seed source key
  have hwidth := widthOf_le hdigests hnodup
  refine ⟨nodup_map_idOf hdigests hnodup, widthOf (keys.map (digest sha256 seed source)),
    ⟨?_, ?_⟩, ?_, ?_⟩
  · have hself := (widthOf_le_iff hdigests hnodup _).mp le_rfl
    rw [List.map_map] at hself
    exact hself
  · rintro width ⟨hfloor, hcuts⟩
    refine (widthOf_le_iff hdigests hnodup width).mpr ⟨hfloor, ?_⟩
    rw [List.map_map]
    exact hcuts
  · intro id hid
    obtain ⟨text, htext, rfl⟩ := List.mem_map.mp hid
    rw [← String.length_toList, asStr_idOf (hdigests text htext) hwidth, List.length_cons,
      List.length_cons, List.length_take, (hdigests text htext).1, min_eq_left hwidth]
    omega
  · intro other hperm
    rw [assign, widthOf_perm hdigests hnodup (hperm.map _), List.map_map]
    refine List.map_congr_left fun key _ => ?_
    refine congrArg AnonId.mk ?_
    rw [(isDigest_digest sha256 seed source key).2, min_eq_left hwidth]
    rfl

theorem ranksApart {digests : List String}
    (hnodup : (digests.map fun candidate => digest sha256 seed source (poolKey candidate)).Nodup) :
    RanksApart sha256 seed source digests := by
  have hdigests := isDigest_poolDigests sha256 seed source digests
  have hslots : ∀ other, other.Perm digests →
      poolSlots sha256 seed source other = .ok (other.map fun candidate =>
        slotOf (widthOf (poolDigests sha256 seed source digests))
          (poolDigests sha256 seed source digests)
          (digest sha256 seed source (poolKey candidate))) := by
    intro other hperm
    have hfull : (poolDigests sha256 seed source other).Perm
        (poolDigests sha256 seed source digests) := hperm.map _
    have hslot : slotOf (widthOf (poolDigests sha256 seed source other))
        (poolDigests sha256 seed source other) =
          slotOf (widthOf (poolDigests sha256 seed source digests))
            (poolDigests sha256 seed source digests) := by
      funext text
      rw [slotOf, slotOf, widthOf_perm hdigests hnodup hfull, hfull.countP_eq]
    rw [poolSlots_eq sha256 seed source (hfull.nodup_iff.mpr hnodup), hslot, map_poolDigests]
  refine ⟨⟨_, hslots, ?_, ?_, ?_⟩⟩
  · rw [assign_poolKey, map_poolDigests]
    rfl
  · have hranks := ranks_poolDigests_perm sha256 seed source hnodup
    rw [map_poolDigests] at hranks
    exact hranks
  · intro a ha b
    have hmem : digest sha256 seed source (poolKey a) ∈ poolDigests sha256 seed source digests :=
      List.mem_map_of_mem ha
    rw [slotOf, slotOf]
    exact Lib.countP_lt_iff hmem _

/-- Ids and slots belong to the candidates, not to their places in the input. -/
theorem anonymous_ids_do_not_depend_on_the_order :
    (∀ keys, (keys.map (digest sha256 seed source)).Nodup → NamesApart sha256 seed source keys) ∧
    ∀ digests : List String,
      (digests.map fun candidate => digest sha256 seed source (poolKey candidate)).Nodup →
      RanksApart sha256 seed source digests :=
  ⟨fun _ hnodup => namesApart sha256 seed source hnodup,
    fun _ hnodup => ranksApart sha256 seed source hnodup⟩

end Order

/-- SHA-256 on the key bytes of the candidates `a` and `b` of `run-1` under the seed 1, which differ
in their byte 56. -/
def sha256OfTwo (bytes : ByteArray) : Vector UInt8 32 :=
  if bytes.data[56]? = some 97 then #v[186, 253, 232, 23, 249, 135, 178, 37, 240, 206, 115, 191,
      135, 41, 65, 62, 52, 87, 42, 154, 49, 25, 58, 13, 10, 77, 116, 106, 219, 137, 53, 23]
  else #v[96, 34, 22, 123, 137, 84, 33, 82, 12, 113, 176, 162, 248, 111, 118, 176, 46, 136, 103,
      189, 181, 155, 112, 206, 35, 220, 171, 39, 37, 155, 10, 79]

theorem two_candidates_are_named_apart :
    NamesApart sha256OfTwo 1 "run-1" [⟨"a", 0⟩, ⟨"b", 0⟩] ∧
      RanksApart sha256OfTwo 1 "run-1" ["a", "b"] :=
  ⟨(anonymous_ids_do_not_depend_on_the_order sha256OfTwo 1 "run-1").1 _ (by decide +kernel),
    (anonymous_ids_do_not_depend_on_the_order sha256OfTwo 1 "run-1").2 _ (by decide +kernel)⟩

end Harvest.Agent.Anon
