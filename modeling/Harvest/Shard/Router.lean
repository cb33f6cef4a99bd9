import Harvest.Lib.Select
import Mathlib.Data.List.Sort
import Mathlib.Data.List.Dedup

/-!
# The shard router

Model of the placement half of `ShardRouter` in `shard.rs`. A constructor that panics is `none`, and
so is a pick over no shards. The hash is a parameter.

Proved here:
* `pickWritable_eq`: the pick as one choice: the first stage if it is accepted, else the re-hash
  over the candidates.
* `pick_of_fewer`, `pick_of_more`: what a pick becomes when candidates go, or one comes.
* `placement_moves_few_keys`: unpinned placement moves as few keys as possible.
-/

namespace Harvest.Shard

open Harvest.Lib

abbrev ShardId := Int32

structure ShardRouter where
  readableShards : List ShardId
  writableShards : List ShardId
  defaultShard : ShardId
  reservedShards : List ShardId
deriving DecidableEq, Repr

namespace ShardRouter

/-- `ShardRouter::new` -/
def new (readableShards writableShards : List ShardId) (defaultShard : ShardId) :
    Option ShardRouter :=
  if ! readableShards.isEmpty && writableShards.all (readableShards.contains ·) then
    some ⟨readableShards, writableShards, defaultShard, []⟩
  else none

/-- `with_reserved_shards`: the reserved shards are sorted and free of duplicates. -/
def withReservedShards (router : ShardRouter) (shards : List ShardId) : Option ShardRouter :=
  let reserved := (shards.insertionSort (· ≤ ·)).dedup
  if reserved.all (fun shard => router.readableShards.contains shard &&
        shard != router.defaultShard) &&
      (router.writableShards.any (! reserved.contains ·) || router.writableShards.isEmpty) &&
      router.readableShards.any (! reserved.contains ·) then
    some { router with reservedShards := reserved }
  else none

/-- Every router that the constructors accept. Without a reservation the last step is the
identity. -/
def build (readableShards writableShards : List ShardId) (defaultShard : ShardId)
    (reserved : List ShardId) : Option ShardRouter :=
  (new readableShards writableShards defaultShard).bind fun router =>
    router.withReservedShards reserved

def isWritable (router : ShardRouter) (shard : ShardId) : Bool := shard ∈ router.writableShards

/-- `binary_search` of the sorted list finds what is in it. -/
def isReserved (router : ShardRouter) (shard : ShardId) : Bool := shard ∈ router.reservedShards

def acceptsUnpinned (router : ShardRouter) (shard : ShardId) : Bool :=
  router.isWritable shard && ! router.isReserved shard

def withoutReserved (router : ShardRouter) (shards : List ShardId) : List ShardId :=
  shards.filter fun shard => ! router.isReserved shard

section Pick

variable (hash : ShardId → String → String → UInt64)

/-- The first shard of the greatest hash: a later one wins only with a greater hash. -/
def rendezvousPick (shards : List ShardId) (first second : String) : Option ShardId :=
  minBy (fun best shard => ! decide (hash shard first second > hash best first second)) shards

def pickWritable (router : ShardRouter) (first second : String) : Option ShardId := do
  let initial ← rendezvousPick hash router.readableShards first second
  if router.acceptsUnpinned initial then some initial
  else if router.writableShards.isEmpty then some router.defaultShard
  else if router.reservedShards.isEmpty then
    rendezvousPick hash router.writableShards first second
  else rendezvousPick hash (router.withoutReserved router.writableShards) first second

def pickForNewWorkflow (router : ShardRouter) (workflowName workflowId : String) :
    Option ShardId :=
  router.pickWritable hash workflowName workflowId

end Pick

/-! ## Routers that the constructors accept -/

structure WellFormed (router : ShardRouter) : Prop where
  readable : router.readableShards ≠ []
  writable : ∀ shard ∈ router.writableShards, shard ∈ router.readableShards
  reserved : ∀ shard ∈ router.reservedShards, shard ∈ router.readableShards
  shared : (∃ shard ∈ router.writableShards, shard ∉ router.reservedShards) ∨
    router.writableShards = []

section Build

variable {readable writable reserved : List ShardId} {default : ShardId} {router : ShardRouter}

theorem build_eq_some (h : build readable writable default reserved = some router) :
    router.WellFormed ∧ router.readableShards = readable ∧ router.writableShards = writable ∧
      router.defaultShard = default ∧ ∀ shard, shard ∈ router.reservedShards ↔ shard ∈ reserved := by
  obtain ⟨base, hnew, hreserve⟩ := Option.bind_eq_some_iff.mp h
  unfold new at hnew
  rw [Option.ite_none_right_eq_some, Bool.and_eq_true] at hnew
  obtain ⟨⟨hne, hwritable⟩, ⟨rfl⟩⟩ := hnew
  unfold withReservedShards at hreserve
  dsimp only at hreserve
  rw [Option.ite_none_right_eq_some, Bool.and_eq_true, Bool.and_eq_true] at hreserve
  obtain ⟨⟨⟨hreadable, hshared⟩, -⟩, ⟨rfl⟩⟩ := hreserve
  refine ⟨⟨by simpa using hne, by simpa using hwritable, ?_, by simpa using hshared⟩,
    rfl, rfl, rfl, ?_⟩
  · intro shard hmem
    have hin := List.all_eq_true.mp hreadable shard hmem
    simpa using (Bool.and_eq_true_iff.mp hin).1
  · intro shard
    rw [List.mem_dedup, List.mem_insertionSort]

theorem acceptsUnpinned_iff {shard : ShardId} : router.acceptsUnpinned shard = true ↔
    shard ∈ router.writableShards ∧ shard ∉ router.reservedShards := by
  simp [acceptsUnpinned, isWritable, isReserved]

/-- What the re-hash chooses from. -/
theorem mem_candidates {shard : ShardId} : shard ∈ router.withoutReserved router.writableShards ↔
    router.acceptsUnpinned shard = true := by
  rw [acceptsUnpinned_iff]
  simp [withoutReserved, isReserved]

/-- A well-formed router has a candidate unless nothing is writable. -/
theorem WellFormed.candidates_eq_nil (h : router.WellFormed) :
    router.withoutReserved router.writableShards = [] ↔ router.writableShards = [] := by
  constructor
  · intro hnil
    refine h.shared.resolve_left ?_
    rintro ⟨shard, hwritable, hfree⟩
    have hmem := mem_candidates.mpr (acceptsUnpinned_iff.mpr ⟨hwritable, hfree⟩)
    rw [hnil] at hmem
    cases hmem
  · intro hnil
    rw [hnil]
    rfl

end Build

/-! ## The pick -/

section Placement

variable {hash : ShardId → String → String → UInt64} {router router' : ShardRouter}
  {first second : String}

/-- What the re-hash chooses from. -/
def candidates (router : ShardRouter) : List ShardId :=
  router.withoutReserved router.writableShards

theorem pick_isSome {shards : List ShardId} (h : shards ≠ []) :
    ∃ shard, rendezvousPick hash shards first second = some shard := minBy_isSome h

theorem pick_mem {shards : List ShardId} {shard : ShardId}
    (h : rendezvousPick hash shards first second = some shard) : shard ∈ shards := minBy_mem h

/-- **The pick as one choice.** -/
theorem pickWritable_eq (h : router.WellFormed) {initial : ShardId}
    (hinitial : rendezvousPick hash router.readableShards first second = some initial) :
    router.pickWritable hash first second =
      some (if initial ∈ router.candidates then initial
        else (rendezvousPick hash router.candidates first second).getD router.defaultShard) := by
  have haccepts : router.acceptsUnpinned initial = true ↔ initial ∈ router.candidates :=
    mem_candidates.symm
  unfold pickWritable
  rw [hinitial, Option.bind_eq_bind, Option.bind_some]
  by_cases hmem : initial ∈ router.candidates
  · rw [if_pos (haccepts.mpr hmem), if_pos hmem]
  · rw [if_neg fun hacc => hmem (haccepts.mp hacc), if_neg hmem]
    by_cases hnil : router.writableShards = []
    · have hcandidates : router.candidates = [] := h.candidates_eq_nil.mpr hnil
      rw [if_pos (List.isEmpty_iff.mpr hnil), hcandidates]
      rfl
    · rw [if_neg fun hempty => hnil (List.isEmpty_iff.mp hempty)]
      have hne : router.candidates ≠ [] := fun hempty => hnil (h.candidates_eq_nil.mp hempty)
      obtain ⟨shard, hshard⟩ := @pick_isSome hash first second _ hne
      have hsame : (if router.reservedShards.isEmpty then
          rendezvousPick hash router.writableShards first second
        else rendezvousPick hash (router.withoutReserved router.writableShards) first second) =
          rendezvousPick hash router.candidates first second := by
        split_ifs with hreserved
        · rw [candidates, withoutReserved, List.filter_eq_self.mpr]
          intro shard _
          rw [isReserved, List.isEmpty_iff.mp hreserved]
          rfl
        · rfl
      rw [hsame, hshard]
      rfl

/-- Dropping others keeps the pick. -/
theorem rendezvousPick_filter {shards : List ShardId} {shard : ShardId} {p : ShardId → Bool}
    (h : rendezvousPick hash shards first second = some shard) (hp : p shard = true) :
    rendezvousPick hash (shards.filter p) first second = some shard := by
  refine minBy_filter ?_ ?_ ?_ h hp
  · intro a
    simp
  · intro a b hab
    simp only [Bool.not_eq_false', Bool.not_eq_true', decide_eq_true_eq, decide_eq_false_iff_not,
      gt_iff_lt] at hab ⊢
    exact UInt64.lt_asymm hab
  · intro a b c hab hbc
    simp only [Bool.not_eq_true', decide_eq_false_iff_not, gt_iff_lt, UInt64.not_lt] at *
    exact UInt64.le_trans hbc hab

/-- One more shard keeps the pick or is picked. -/
theorem rendezvousPick_concat {shards : List ShardId} {shard : ShardId} (fresh : ShardId)
    (h : rendezvousPick hash shards first second = some shard) :
    rendezvousPick hash (shards ++ [fresh]) first second = some shard ∨
      rendezvousPick hash (shards ++ [fresh]) first second = some fresh := by
  unfold rendezvousPick at *
  rw [minBy_concat, h]
  dsimp only
  split_ifs
  · exact Or.inl rfl
  · exact Or.inr rfl

/-- **When a candidate goes, only its keys move.** -/
theorem pick_of_fewer (h : router.WellFormed) (h' : router'.WellFormed) {gone : ShardId}
    (hreadable : router'.readableShards = router.readableShards)
    (hdefault : router'.defaultShard = router.defaultShard)
    (hcandidates : router'.candidates = router.candidates.filter fun shard => shard ≠ gone)
    (hkept : router.pickWritable hash first second ≠ some gone) :
    router'.pickWritable hash first second = router.pickWritable hash first second := by
  obtain ⟨initial, hinitial⟩ := @pick_isSome hash first second _ h.readable
  have hinitial' : rendezvousPick hash router'.readableShards first second = some initial := by
    rw [hreadable, hinitial]
  rw [pickWritable_eq h hinitial] at hkept ⊢
  rw [pickWritable_eq h' hinitial', hcandidates, hdefault]
  by_cases hmem : initial ∈ router.candidates
  · rw [if_pos hmem] at hkept ⊢
    have hne : initial ≠ gone := fun heq => hkept (congrArg some heq)
    rw [if_pos (List.mem_filter.mpr ⟨hmem, decide_eq_true hne⟩)]
  · rw [if_neg hmem] at hkept ⊢
    rw [if_neg fun hin => hmem (List.mem_filter.mp hin).1]
    cases hpick : rendezvousPick hash router.candidates first second with
    | none =>
      have hnil : router.candidates = [] := by
        by_contra hne
        obtain ⟨shard, hshard⟩ := @pick_isSome hash first second _ hne
        rw [hshard] at hpick
        cases hpick
      rw [hnil, List.filter_nil]
      rfl
    | some shard =>
      rw [hpick] at hkept
      have hne : shard ≠ gone := fun heq => hkept (congrArg some heq)
      rw [rendezvousPick_filter hpick (decide_eq_true hne)]

/-- **When a shard comes, a key stays or moves to it.** -/
theorem pick_of_more (h : router.WellFormed) (h' : router'.WellFormed) {fresh : ShardId}
    (hnew : fresh ∉ router.readableShards)
    (hreadable : router'.readableShards = router.readableShards ++ [fresh])
    (hdefault : router'.defaultShard = router.defaultShard)
    (hcandidates : router'.candidates = router.candidates ++ [fresh]) :
    router'.pickWritable hash first second = router.pickWritable hash first second ∨
      router'.pickWritable hash first second = some fresh := by
  obtain ⟨initial, hinitial⟩ := @pick_isSome hash first second _ h.readable
  have hfresh : fresh ∈ router'.candidates := by
    rw [hcandidates]
    exact List.mem_append_right _ List.mem_cons_self
  rw [pickWritable_eq h hinitial]
  rcases rendezvousPick_concat fresh hinitial with hstays | hmoves
  · rw [← hreadable] at hstays
    rw [pickWritable_eq h' hstays]
    by_cases hmem : initial ∈ router.candidates
    · left
      rw [if_pos hmem, if_pos (by rw [hcandidates]; exact List.mem_append_left _ hmem)]
    · have hne : initial ≠ fresh := by
        rintro rfl
        exact hnew (pick_mem hinitial)
      have hmem' : initial ∉ router'.candidates := by
        rw [hcandidates, List.mem_append, List.mem_singleton]
        exact fun hin => hin.elim hmem hne
      rw [if_neg hmem, if_neg hmem', hcandidates, hdefault]
      cases hpick : rendezvousPick hash router.candidates first second with
      | none =>
        right
        have hnil : router.candidates = [] := by
          by_contra hne
          obtain ⟨shard, hshard⟩ := @pick_isSome hash first second _ hne
          rw [hshard] at hpick
          cases hpick
        rw [hnil]
        rfl
      | some shard =>
        rcases rendezvousPick_concat fresh hpick with heq | heq
        · left
          rw [heq]
        · right
          rw [heq]
          rfl
  · right
    rw [← hreadable] at hmoves
    rw [pickWritable_eq h' hmoves, if_pos hfresh]

end Placement

/-! ## Placement under a change of the sets -/

section Change

variable {readable writable reserved : List ShardId} {default : ShardId} {router router' : ShardRouter}

theorem candidates_congr {shards : List ShardId}
    (hwritable : router.writableShards = shards)
    (hreserved : ∀ shard, shard ∈ router.reservedShards ↔ shard ∈ reserved) :
    router.candidates = shards.filter fun shard => shard ∉ reserved := by
  rw [candidates, withoutReserved, hwritable]
  refine List.filter_congr fun shard _ => ?_
  rw [isReserved, decide_eq_decide.mpr (hreserved shard), decide_not]

/-- A shard that leaves the writable list leaves the candidates. -/
theorem candidates_of_erase (h : build readable writable default reserved = some router)
    {gone : ShardId} (hnodup : writable.Nodup)
    (h' : build readable (writable.erase gone) default reserved = some router') :
    router'.candidates = router.candidates.filter fun shard => shard ≠ gone := by
  obtain ⟨-, -, hwritable, -, hreserved⟩ := build_eq_some h
  obtain ⟨-, -, hwritable', -, hreserved'⟩ := build_eq_some h'
  rw [candidates_congr hwritable hreserved, candidates_congr hwritable' hreserved',
    hnodup.erase_eq_filter, List.filter_filter, List.filter_filter]
  refine List.filter_congr fun shard _ => ?_
  by_cases hgone : shard = gone <;> simp [hgone]

/-- A shard that is reserved leaves the candidates. -/
theorem candidates_of_reserve (h : build readable writable default reserved = some router)
    {cell : ShardId} (h' : build readable writable default (cell :: reserved) = some router') :
    router'.candidates = router.candidates.filter fun shard => shard ≠ cell := by
  obtain ⟨-, -, hwritable, -, hreserved⟩ := build_eq_some h
  obtain ⟨-, -, hwritable', -, hreserved'⟩ := build_eq_some h'
  rw [candidates_congr hwritable hreserved, candidates_congr hwritable' hreserved',
    List.filter_filter]
  refine List.filter_congr fun shard _ => ?_
  by_cases hcell : shard = cell <;> simp [hcell]

/-- A new shard is the last candidate: what is reserved was readable before. -/
theorem candidates_of_append (h : build readable writable default reserved = some router)
    {fresh : ShardId} (hfresh : fresh ∉ readable)
    (h' : build (readable ++ [fresh]) (writable ++ [fresh]) default reserved = some router') :
    router'.candidates = router.candidates ++ [fresh] := by
  obtain ⟨hwell, hreadable, hwritable, -, hreserved⟩ := build_eq_some h
  obtain ⟨-, -, hwritable', -, hreserved'⟩ := build_eq_some h'
  have hfree : fresh ∉ reserved := by
    intro hmem
    have hin := hwell.reserved fresh ((hreserved fresh).mpr hmem)
    rw [hreadable] at hin
    exact hfresh hin
  rw [candidates_congr hwritable hreserved, candidates_congr hwritable' hreserved',
    List.filter_append, List.filter_singleton, decide_eq_true hfree, cond_true]

/-- A key goes to a shard that takes unpinned work as long as something is writable. -/
theorem pick_acceptsUnpinned {hash : ShardId → String → String → UInt64} {first second : String}
    (h : router.WellFormed) (hwritable : router.writableShards ≠ []) :
    ∃ shard, router.pickWritable hash first second = some shard ∧
      router.acceptsUnpinned shard = true := by
  obtain ⟨initial, hinitial⟩ := @pick_isSome hash first second _ h.readable
  rw [pickWritable_eq h hinitial]
  by_cases hmem : initial ∈ router.candidates
  · rw [if_pos hmem]
    exact ⟨initial, rfl, mem_candidates.mp hmem⟩
  · have hne : router.candidates ≠ [] := fun hnil => hwritable (h.candidates_eq_nil.mp hnil)
    obtain ⟨shard, hshard⟩ := @pick_isSome hash first second _ hne
    rw [if_neg hmem, hshard]
    exact ⟨shard, rfl, mem_candidates.mp (pick_mem hshard)⟩

end Change

/-- **Unpinned placement moves as few keys as possible.** Of the two routers of a change, each is
one that the constructors accept. -/
theorem placement_moves_few_keys (hash : ShardId → String → String → UInt64)
    (readable writable reserved : List ShardId) (default : ShardId) (router : ShardRouter)
    (hbuild : build readable writable default reserved = some router)
    (hnodup : readable.Nodup ∧ writable.Nodup ∧ reserved.Nodup)
    (workflowName workflowId : String) :
    (writable ≠ [] → ∃ shard,
      router.pickForNewWorkflow hash workflowName workflowId = some shard ∧
        shard ∈ writable ∧ shard ∉ reserved) ∧
    (∀ gone router', build readable (writable.erase gone) default reserved = some router' →
      router.pickForNewWorkflow hash workflowName workflowId ≠ some gone →
      router'.pickForNewWorkflow hash workflowName workflowId =
        router.pickForNewWorkflow hash workflowName workflowId) ∧
    (∀ cell router', build readable writable default (cell :: reserved) = some router' →
      router.pickForNewWorkflow hash workflowName workflowId ≠ some cell →
      router'.pickForNewWorkflow hash workflowName workflowId =
        router.pickForNewWorkflow hash workflowName workflowId) ∧
    (∀ fresh router', fresh ∉ readable →
      build (readable ++ [fresh]) (writable ++ [fresh]) default reserved = some router' →
      router'.pickForNewWorkflow hash workflowName workflowId =
          router.pickForNewWorkflow hash workflowName workflowId ∨
        router'.pickForNewWorkflow hash workflowName workflowId = some fresh) := by
  obtain ⟨hwell, hreadable, hwritable, hdefault, hreserved⟩ := build_eq_some hbuild
  unfold pickForNewWorkflow
  refine ⟨?_, ?_, ?_, ?_⟩
  · intro hne
    rw [← hwritable] at hne
    obtain ⟨shard, hpick, haccepts⟩ :=
      @pick_acceptsUnpinned router hash workflowName workflowId hwell hne
    obtain ⟨hin, hfree⟩ := acceptsUnpinned_iff.mp haccepts
    rw [hwritable] at hin
    exact ⟨shard, hpick, hin, fun hmem => hfree ((hreserved shard).mpr hmem)⟩
  · intro gone router' hbuild' hkept
    obtain ⟨hwell', hreadable', -, hdefault', -⟩ := build_eq_some hbuild'
    exact pick_of_fewer hwell hwell' (hreadable'.trans hreadable.symm)
      (hdefault'.trans hdefault.symm) (candidates_of_erase hbuild hnodup.2.1 hbuild') hkept
  · intro cell router' hbuild' hkept
    obtain ⟨hwell', hreadable', -, hdefault', -⟩ := build_eq_some hbuild'
    exact pick_of_fewer hwell hwell' (hreadable'.trans hreadable.symm)
      (hdefault'.trans hdefault.symm) (candidates_of_reserve hbuild hbuild') hkept
  · intro fresh router' hfresh hbuild'
    obtain ⟨hwell', hreadable', -, hdefault', -⟩ := build_eq_some hbuild'
    refine pick_of_more hwell hwell' ?_ ?_ (hdefault'.trans hdefault.symm)
      (candidates_of_append hbuild hfresh hbuild')
    · rw [hreadable]
      exact hfresh
    · rw [hreadable', hreadable]

/-- Three shards, the hash is the shard's number: the greatest is reserved, so the key goes to the
next one. -/
theorem placement_beside_a_reserved_shard :
    build [0, 1, 2] [0, 1, 2] 0 [2] = some ⟨[0, 1, 2], [0, 1, 2], 0, [2]⟩ ∧
    (⟨[0, 1, 2], [0, 1, 2], 0, [2]⟩ : ShardRouter).pickForNewWorkflow
      (fun shard _ _ => shard.toInt64.toUInt64) "order" "7" = some 1 ∧
    ∃ shard, (⟨[0, 1, 2], [0, 1, 2], 0, [2]⟩ : ShardRouter).pickForNewWorkflow
      (fun shard _ _ => shard.toInt64.toUInt64) "order" "7" = some shard ∧
        shard ∈ ([0, 1, 2] : List ShardId) ∧ shard ∉ ([2] : List ShardId) := by
  have hbuild : build [0, 1, 2] [0, 1, 2] 0 [2] = some ⟨[0, 1, 2], [0, 1, 2], 0, [2]⟩ := by
    decide +kernel
  refine ⟨hbuild, by decide +kernel, ?_⟩
  exact (placement_moves_few_keys (fun shard _ _ => shard.toInt64.toUInt64) [0, 1, 2] [0, 1, 2] [2]
    0 _ hbuild (by decide +kernel) "order" "7").1 (by decide +kernel)

end ShardRouter

end Harvest.Shard
