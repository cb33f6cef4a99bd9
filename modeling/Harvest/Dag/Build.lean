import Harvest.Lib.Heights
import Harvest.Dag.Task
import Mathlib.Data.List.Sort
import Mathlib.Data.List.Count
import Mathlib.Data.List.Flatten
import Mathlib.Logic.Function.Iterate
import Mathlib.Algebra.BigOperators.Group.List.Basic

/-!
# The level schedule of a DAG

Model of `DagBuilder::build` in `dag.rs`: the checks, the level-wise sort, and the pass that gives
each gate a level of its own. An index out of range panics, which is `none`.

Proved here:
* `foldl_release`: what one level's edges do to the counters and the next level.
* `kahn_live`: after `m` rounds the levels are the tasks of height below `m`.
* `build_eq_some_ok`: when the tasks are accepted, and with which levels.
* `build_computes_level_schedule`: the schedule is correct.
-/

namespace Harvest.Dag

open Harvest.Lib

structure DagDefinition where
  tasks : List DagTask
  executionLevels : List (List Nat)

def upstreamsOf (tasks : List DagTask) (t : Nat) : List Nat :=
  (tasks[t]?.map (·.upstreams)).getD []

def isGateAt (tasks : List DagTask) (t : Nat) : Bool := (tasks[t]?.map (·.isGate)).getD false

/-- The downstream tasks of a task, one entry for each edge, as the loop over all tasks pushes
them. -/
def outgoing (tasks : List DagTask) (u : Nat) : List Nat :=
  (List.range tasks.length).flatMap fun t =>
    ((upstreamsOf tasks t).filter (· = u)).map fun _ => t

/-- One edge: its task waits for one upstream less, and is ready next when it waits for none. -/
def release (acc : (Nat → Nat) × List Nat) (downstream : Nat) : (Nat → Nat) × List Nat :=
  let left := acc.1 downstream - 1
  (Function.update acc.1 downstream left, if left = 0 then acc.2 ++ [downstream] else acc.2)

/-- The variables of the level loop. -/
structure Kahn where
  indegree : Nat → Nat
  ready : List Nat
  executionLevels : List (List Nat)
  visited : Nat

def Kahn.init (tasks : List DagTask) : Kahn where
  indegree t := (upstreamsOf tasks t).length
  ready := (List.range tasks.length).filter fun t => (upstreamsOf tasks t).length = 0
  executionLevels := []
  visited := 0

/-- One round of the loop, which has ended when nothing is ready. -/
def Kahn.step (tasks : List DagTask) (k : Kahn) : Kahn :=
  if k.ready.isEmpty then k
  else
    let currentLevel := k.ready.insertionSort (· ≤ ·)
    let next := (currentLevel.flatMap (outgoing tasks)).foldl release (k.indegree, [])
    { indegree := next.1
      ready := next.2
      executionLevels := k.executionLevels ++ [currentLevel]
      visited := k.visited + currentLevel.length }

/-- The loop. It ends in as many rounds as there are tasks (`kahn_ready`). -/
def kahn (tasks : List DagTask) : Kahn := (Kahn.step tasks)^[tasks.length] (Kahn.init tasks)

/-- The tasks of a level that are no gates, then each gate alone. -/
def splitGates (tasks : List DagTask) (level : List Nat) : List (List Nat) :=
  let gates := level.filter (isGateAt tasks)
  let nonGates := level.filter (! isGateAt tasks ·)
  (if nonGates.isEmpty then [] else [nonGates]) ++ gates.map fun gate => [gate]

def isolateGates (tasks : List DagTask) (levels : List (List Nat)) : List (List Nat) :=
  if tasks.any (·.isGate) then levels.flatMap (splitGates tasks) else levels

def build (tasks : List DagTask) : Option (Except DagBuildError DagDefinition) :=
  match validate tasks with
  | .error error => some (.error error)
  | .ok () =>
    if tasks.all fun task => task.upstreams.all (· < tasks.length) then
      let sorted := kahn tasks
      if sorted.visited ≠ tasks.length then some (.error .cycleDetected)
      else some (.ok ⟨tasks, isolateGates tasks sorted.executionLevels⟩)
    else none

/-! ## The edges of one level -/

theorem release_self (acc : (Nat → Nat) × List Nat) (d : Nat) :
    (release acc d).1 d = acc.1 d - 1 := Function.update_self d _ acc.1

theorem release_of_ne (acc : (Nat → Nat) × List Nat) {d x : Nat} (h : d ≠ x) :
    (release acc x).1 d = acc.1 d := Function.update_of_ne h _ acc.1

theorem count_release (acc : (Nat → Nat) × List Nat) (d x : Nat) : (release acc x).2.count d =
    acc.2.count d + if x = d ∧ acc.1 x - 1 = 0 then 1 else 0 := by
  unfold release
  dsimp only
  by_cases hleft : acc.1 x - 1 = 0
  · rw [if_pos hleft, List.count_append, List.count_singleton]
    simp [hleft]
  · rw [if_neg hleft, if_neg fun h => hleft h.2, Nat.add_zero]

/-- **One level's edges.** Each edge counts down once; a task that comes down to zero, and not
below, is ready once. -/
theorem foldl_release (edges : List Nat) : ∀ acc : (Nat → Nat) × List Nat,
    (∀ d, (edges.foldl release acc).1 d = acc.1 d - edges.count d) ∧
    ∀ d, edges.count d ≤ acc.1 d → (edges.foldl release acc).2.count d =
      acc.2.count d + if 0 < edges.count d ∧ edges.count d = acc.1 d then 1 else 0 := by
  induction edges with
  | nil =>
    intro acc
    refine ⟨fun d => rfl, fun d _ => ?_⟩
    simp
  | cons x edges ih =>
    intro acc
    obtain ⟨hdegree, hready⟩ := ih (release acc x)
    rw [List.foldl_cons]
    constructor
    · intro d
      rw [hdegree d]
      by_cases hd : d = x
      · subst hd
        rw [List.count_cons_self, release_self]
        omega
      · rw [List.count_cons_of_ne (Ne.symm hd), release_of_ne acc hd]
    · intro d hle
      by_cases hd : d = x
      · subst hd
        rw [List.count_cons_self] at hle ⊢
        rw [hready d (by rw [release_self]; omega), release_self, count_release]
        split_ifs <;> omega
      · rw [List.count_cons_of_ne (Ne.symm hd)] at hle ⊢
        rw [hready d (by rw [release_of_ne acc hd]; exact hle), release_of_ne acc hd,
          count_release, if_neg fun h => hd h.1.symm, Nat.add_zero]

theorem count_outgoing (tasks : List DagTask) (u d : Nat) :
    (outgoing tasks u).count d = if d < tasks.length then (upstreamsOf tasks d).count u else 0 := by
  have hone : ∀ t, (((upstreamsOf tasks t).filter (· = u)).map fun _ => t).count d =
      if t = d then (upstreamsOf tasks d).count u else 0 := by
    intro t
    rw [List.map_const', List.count_replicate]
    by_cases ht : t = d
    · subst ht
      simp [List.count, List.countP_eq_length_filter, beq_eq_decide]
    · simp [ht]
  rw [outgoing, List.count_flatMap]
  induction tasks.length with
  | zero => simp
  | succ n ih =>
    rw [List.range_succ, List.map_append, List.sum_append, ih]
    simp only [List.map_cons, List.map_nil, List.sum_singleton, Function.comp_apply, hone]
    split_ifs <;> omega

/-- The edges that leave a set of tasks, counted at their other end. -/
theorem count_edges (tasks : List DagTask) {level : List Nat} (hnodup : level.Nodup) {d : Nat}
    (hd : d < tasks.length) : (level.flatMap (outgoing tasks)).count d =
      (upstreamsOf tasks d).countP (· ∈ level) := by
  induction level with
  | nil => simp
  | cons u level ih =>
    rw [List.nodup_cons] at hnodup
    rw [List.flatMap_cons, List.count_append, ih hnodup.2, count_outgoing, if_pos hd]
    induction upstreamsOf tasks d with
    | nil => rfl
    | cons v upstreams ihups =>
      rw [List.count_cons, List.countP_cons, List.countP_cons, ← ihups]
      by_cases hv : v = u
      · subst hv
        simp [hnodup.1]
        omega
      · simp [hv]
        omega

theorem count_edges_of_not_lt (tasks : List DagTask) (level : List Nat) {d : Nat}
    (hd : ¬ d < tasks.length) : (level.flatMap (outgoing tasks)).count d = 0 := by
  induction level with
  | nil => rfl
  | cons u level ih => rw [List.flatMap_cons, List.count_append, ih, count_outgoing, if_neg hd]

/-! ## The rounds -/

def InRange (tasks : List DagTask) : Prop :=
  ∀ task ∈ tasks, ∀ u ∈ task.upstreams, u < tasks.length

theorem InRange.lt {tasks : List DagTask} (h : InRange tasks) {t u : Nat}
    (hu : u ∈ upstreamsOf tasks t) : u < tasks.length := by
  unfold upstreamsOf at hu
  cases htask : tasks[t]? with
  | none =>
    rw [htask] at hu
    cases hu
  | some task =>
    rw [htask] at hu
    exact h task (List.mem_of_getElem? htask) u hu

/-- The tasks of one height, in the order of their indices. -/
def heightLevel (tasks : List DagTask) (k : Nat) : List Nat :=
  (List.range tasks.length).filter (heightIs (upstreamsOf tasks) k)

theorem mem_heightLevel {tasks : List DagTask} {k t : Nat} : t ∈ heightLevel tasks k ↔
    t < tasks.length ∧ heightIs (upstreamsOf tasks) k t = true := by
  rw [heightLevel, List.mem_filter, List.mem_range]

theorem heightLevel_nodup (tasks : List DagTask) (k : Nat) : (heightLevel tasks k).Nodup :=
  List.nodup_range.filter _

theorem heightLevel_pairwise (tasks : List DagTask) (k : Nat) :
    (heightLevel tasks k).Pairwise (· < ·) := List.pairwise_lt_range.filter _

theorem insertionSort_heightLevel {tasks : List DagTask} {k : Nat} {ready : List Nat}
    (h : ready.Perm (heightLevel tasks k)) :
    ready.insertionSort (· ≤ ·) = heightLevel tasks k := by
  have hsorted := List.pairwise_insertionSort (· ≤ ·) ready
  have hlevel := (heightLevel_pairwise tasks k).imp fun hlt => Nat.le_of_lt hlt
  exact ((List.perm_insertionSort _ ready).trans h).eq_of_pairwise' hsorted hlevel

/-- The loop in full run, `m` rounds in. -/
structure Live (tasks : List DagTask) (m : Nat) (k : Kahn) : Prop where
  indegree : ∀ d < tasks.length,
    k.indegree d = (upstreamsOf tasks d).countP (hasChain (upstreamsOf tasks) m)
  ready : k.ready.Perm (heightLevel tasks m)
  levels : k.executionLevels = (List.range m).map (heightLevel tasks)
  visited : k.visited = k.executionLevels.flatten.length

theorem live_init (tasks : List DagTask) : Live tasks 0 (Kahn.init tasks) where
  indegree d _ := (List.countP_eq_length.mpr fun _ _ => rfl).symm
  ready := by
    refine List.Perm.of_eq (List.filter_congr fun t _ => ?_)
    cases hups : upstreamsOf tasks t with
    | nil => simp [heightIs, hasChain, hups]
    | cons u upstreams => simp [heightIs, hasChain, hups]
  levels := rfl
  visited := rfl

/-- The upstreams that were counted are those of this height and those that still count. -/
theorem countP_hasChain (preds : Nat → List Nat) (m : Nat) (upstreams : List Nat) :
    upstreams.countP (hasChain preds m) =
      upstreams.countP (heightIs preds m) + upstreams.countP (hasChain preds (m + 1)) := by
  induction upstreams with
  | nil => rfl
  | cons u upstreams ih =>
    rw [List.countP_cons, List.countP_cons, List.countP_cons, ih]
    have hcases : (if hasChain preds m u = true then 1 else 0) =
        (if heightIs preds m u = true then 1 else 0) +
          if hasChain preds (m + 1) u = true then 1 else 0 := by
      cases hnext : hasChain preds (m + 1) u with
      | true => simp [heightIs, hnext, hasChain_of_succ hnext]
      | false => simp [heightIs, hnext]
    omega

/-- A task has the next height exactly if all upstreams that it waits for have this height, and it
waits for some. -/
theorem heightIs_succ_iff {tasks : List DagTask} {m d : Nat} :
    heightIs (upstreamsOf tasks) (m + 1) d = true ↔
      0 < (upstreamsOf tasks d).countP (heightIs (upstreamsOf tasks) m) ∧
        (upstreamsOf tasks d).countP (heightIs (upstreamsOf tasks) m) =
          (upstreamsOf tasks d).countP (hasChain (upstreamsOf tasks) m) := by
  have hsome : hasChain (upstreamsOf tasks) (m + 1) d = true ↔
      0 < (upstreamsOf tasks d).countP (hasChain (upstreamsOf tasks) m) := by
    rw [List.countP_pos_iff]
    exact hasChain_succ_iff
  have hnone : hasChain (upstreamsOf tasks) (m + 1 + 1) d = false ↔
      (upstreamsOf tasks d).countP (hasChain (upstreamsOf tasks) (m + 1)) = 0 := by
    rw [List.countP_eq_zero, hasChain_succ_eq_false]
    exact forall₂_congr fun u _ => Bool.not_eq_true _ ▸ Iff.rfl
  have hsplit := countP_hasChain (upstreamsOf tasks) m (upstreamsOf tasks d)
  rw [heightIs_iff, hsome, hnone]
  omega

/-- **One round.** -/
theorem live_step {tasks : List DagTask} (hrange : InRange tasks) {m : Nat} {k : Kahn}
    (h : Live tasks m k) (hready : k.ready ≠ []) : Live tasks (m + 1) (k.step tasks) := by
  have hlevel := insertionSort_heightLevel h.ready
  have hcount : ∀ d < tasks.length, ((heightLevel tasks m).flatMap (outgoing tasks)).count d =
      (upstreamsOf tasks d).countP (heightIs (upstreamsOf tasks) m) := by
    intro d hd
    rw [count_edges tasks (heightLevel_nodup tasks m) hd]
    refine List.countP_congr fun u hu => ?_
    simp [mem_heightLevel, hrange.lt hu]
  obtain ⟨hdegree, hnext⟩ :=
    foldl_release ((heightLevel tasks m).flatMap (outgoing tasks)) (k.indegree, [])
  dsimp only at hdegree hnext
  rw [Kahn.step, if_neg (by simpa using hready), hlevel]
  constructor
  · intro d hd
    dsimp only
    rw [hdegree, hcount d hd, h.indegree d hd, countP_hasChain]
    omega
  · rw [List.perm_iff_count]
    intro d
    dsimp only
    rw [List.Nodup.count (heightLevel_nodup tasks (m + 1))]
    by_cases hd : d < tasks.length
    · have hsplit := countP_hasChain (upstreamsOf tasks) m (upstreamsOf tasks d)
      rw [hnext d (by rw [hcount d hd, h.indegree d hd]; omega), List.count_nil, Nat.zero_add]
      refine if_congr ?_ rfl rfl
      rw [mem_heightLevel, heightIs_succ_iff, and_iff_right hd, hcount d hd, h.indegree d hd]
    · have hzero := count_edges_of_not_lt tasks (heightLevel tasks m) hd
      rw [hnext d (by rw [hzero]; exact Nat.zero_le _), List.count_nil,
        if_neg fun hpos => absurd hzero (Nat.ne_of_gt hpos.1),
        if_neg fun hmem => hd (mem_heightLevel.mp hmem).1]
  · dsimp only
    rw [h.levels, List.range_succ, List.map_append, List.map_singleton]
  · dsimp only
    rw [h.visited, List.flatten_append, List.length_append, List.flatten_singleton]

/-- The loop after any number of rounds: in full run, or ended. -/
theorem exists_live {tasks : List DagTask} (hrange : InRange tasks) (rounds : Nat) :
    ∃ m ≤ rounds, Live tasks m ((Kahn.step tasks)^[rounds] (Kahn.init tasks)) ∧
      (m < rounds → ((Kahn.step tasks)^[rounds] (Kahn.init tasks)).ready = []) := by
  induction rounds with
  | zero => exact ⟨0, Nat.le_refl 0, live_init tasks, fun h => absurd h (Nat.lt_irrefl 0)⟩
  | succ rounds ih =>
    obtain ⟨m, hm, hlive, hended⟩ := ih
    rw [Function.iterate_succ_apply']
    by_cases hready : ((Kahn.step tasks)^[rounds] (Kahn.init tasks)).ready = []
    · refine ⟨m, Nat.le_succ_of_le hm, ?_⟩
      rw [Kahn.step, if_pos (List.isEmpty_iff.mpr hready)]
      exact ⟨hlive, fun _ => hready⟩
    · have heq : m = rounds := by
        by_contra hne
        exact hready (hended (Nat.lt_of_le_of_ne hm hne))
      subst heq
      exact ⟨m + 1, Nat.le_refl _, live_step hrange hlive hready,
        fun h => absurd h (Nat.lt_irrefl _)⟩

/-- **The loop ends**, and its levels are the tasks by their heights. -/
theorem kahn_live {tasks : List DagTask} (hrange : InRange tasks) :
    (kahn tasks).ready = [] ∧ ∃ m, Live tasks m (kahn tasks) := by
  obtain ⟨m, hm, hlive, hended⟩ := exists_live hrange tasks.length
  refine ⟨?_, m, hlive⟩
  rcases Nat.lt_or_eq_of_le hm with hlt | heq
  · exact hended hlt
  · have hempty : heightLevel tasks m = [] := by
      rw [List.eq_nil_iff_forall_not_mem]
      intro t hmem
      obtain ⟨ht, hheight⟩ := mem_heightLevel.mp hmem
      have hlt := @height_lt _ (upstreamsOf tasks) (List.range tasks.length)
        (fun t _ u hu => List.mem_range.mpr (hrange.lt hu)) m t (List.mem_range.mpr ht) hheight
      rw [List.length_range] at hlt
      omega
    have hperm := hlive.ready
    rw [hempty] at hperm
    exact hperm.eq_nil

/-! ## The levels of an accepted DAG -/

section Levels

variable {tasks : List DagTask} (hrange : InRange tasks)

include hrange

theorem closed_range : ∀ t ∈ List.range tasks.length, ∀ u ∈ upstreamsOf tasks t,
    u ∈ List.range tasks.length := fun _ _ _ hu => List.mem_range.mpr (hrange.lt hu)

omit hrange in
theorem mem_flatten_levels {m t : Nat} :
    t ∈ ((List.range m).map (heightLevel tasks)).flatten ↔
      t < tasks.length ∧ ∃ k < m, heightIs (upstreamsOf tasks) k t = true := by
  simp only [List.mem_flatten, List.mem_map, List.mem_range, exists_exists_and_eq_and,
    mem_heightLevel]
  exact ⟨fun ⟨k, hk, ht, hheight⟩ => ⟨ht, k, hk, hheight⟩,
    fun ⟨ht, k, hk, hheight⟩ => ⟨k, hk, ht, hheight⟩⟩

omit hrange in
theorem levels_nodup (m : Nat) : ((List.range m).map (heightLevel tasks)).flatten.Nodup := by
  rw [List.nodup_flatten]
  constructor
  · intro level hlevel
    obtain ⟨k, -, rfl⟩ := List.mem_map.mp hlevel
    exact heightLevel_nodup tasks k
  · refine (List.pairwise_lt_range.map _ fun j k hlt => ?_)
    intro t hj hk
    have heq := heightIs_inj (mem_heightLevel.mp hj).2 (mem_heightLevel.mp hk).2
    omega

/-- The levels of the first rounds hold every task exactly if the rest is empty and there is no
cycle. -/
theorem visited_eq_iff {m : Nat} (hlive : Live tasks m (kahn tasks))
    (hended : (kahn tasks).ready = []) : (kahn tasks).visited = tasks.length ↔
      Acyclic (upstreamsOf tasks) (· < tasks.length) := by
  have hempty : heightLevel tasks m = [] := by
    have hperm := hlive.ready
    rw [hended] at hperm
    exact hperm.symm.eq_nil
  have hbelow : ∀ {k t}, t < tasks.length → heightIs (upstreamsOf tasks) k t = true → k < m := by
    intro k t ht hheight
    by_contra hle
    obtain ⟨s, hs, hsame⟩ := exists_height_of_le (closed_range hrange) (Nat.le_of_not_lt hle)
      (List.mem_range.mpr ht) hheight
    have hmem := mem_heightLevel.mpr ⟨List.mem_range.mp hs, hsame⟩
    rw [hempty] at hmem
    cases hmem
  have hacyclic : Acyclic (upstreamsOf tasks) (· < tasks.length) ↔
      ∀ t < tasks.length, hasChain (upstreamsOf tasks) tasks.length t = false := by
    have hiff := acyclic_iff (closed_range hrange)
    simpa only [List.mem_range, List.length_range] using hiff
  have hsubset : (kahn tasks).executionLevels.flatten ⊆ List.range tasks.length := by
    intro t ht
    rw [hlive.levels] at ht
    exact List.mem_range.mpr (mem_flatten_levels.mp ht).1
  have hnodup : (kahn tasks).executionLevels.flatten.Nodup := by
    rw [hlive.levels]
    exact levels_nodup m
  rw [hacyclic, hlive.visited]
  constructor
  · intro hlength t ht
    have hperm : (kahn tasks).executionLevels.flatten.Perm (List.range tasks.length) :=
      (hnodup.subperm hsubset).perm_of_length_le (by rw [hlength, List.length_range])
    have hmem := hperm.symm.subset (List.mem_range.mpr ht)
    rw [hlive.levels] at hmem
    obtain ⟨-, k, -, hheight⟩ := mem_flatten_levels.mp hmem
    have hlt := height_lt (closed_range hrange) (List.mem_range.mpr ht) hheight
    rw [List.length_range] at hlt
    exact hasChain_eq_false_of_le hlt (heightIs_iff.mp hheight).2
  · intro hnone
    have hback : List.range tasks.length ⊆ (kahn tasks).executionLevels.flatten := by
      intro t ht
      obtain ⟨k, -, hheight⟩ := exists_height (hnone t (List.mem_range.mp ht))
      rw [hlive.levels]
      exact mem_flatten_levels.mpr ⟨List.mem_range.mp ht, k,
        hbelow (List.mem_range.mp ht) hheight, hheight⟩
    have hle := (hnodup.subperm hsubset).length_le
    have hge := (List.nodup_range.subperm hback).length_le
    rw [List.length_range] at hle hge
    omega

theorem levels_layered (m : Nat) :
    Layered (upstreamsOf tasks) [] ((List.range m).map (heightLevel tasks)) := by
  induction m with
  | zero => trivial
  | succ m ih =>
    rw [List.range_succ, List.map_append, layered_append, List.nil_append]
    refine ⟨ih, ?_, trivial⟩
    intro t ht u hu
    obtain ⟨j, hj, hheight⟩ := heightIs_pred (mem_heightLevel.mp ht).2 hu
    exact mem_flatten_levels.mpr ⟨hrange.lt hu, j, hj, hheight⟩

end Levels

/-! ## The gates -/

theorem flatten_splitGates (tasks : List DagTask) (level : List Nat) :
    (splitGates tasks level).flatten =
      level.filter (! isGateAt tasks ·) ++ level.filter (isGateAt tasks) := by
  have hgates : ∀ gates : List Nat, (gates.map fun gate => [gate]).flatten = gates := by
    intro gates
    induction gates with
    | nil => rfl
    | cons gate gates ih => rw [List.map_cons, List.flatten_cons, ih, List.singleton_append]
  rw [splitGates, List.flatten_append, hgates]
  split_ifs with hempty
  · rw [List.isEmpty_iff.mp hempty]
    rfl
  · rw [List.flatten_singleton]

theorem splitGates_perm (tasks : List DagTask) (level : List Nat) :
    (splitGates tasks level).flatten.Perm level := by
  rw [flatten_splitGates]
  exact List.perm_append_comm.trans (List.filter_append_perm (isGateAt tasks) level)

theorem isolateGates_perm (tasks : List DagTask) (levels : List (List Nat)) :
    (isolateGates tasks levels).flatten.Perm levels.flatten := by
  unfold isolateGates
  split_ifs
  · induction levels with
    | nil => exact List.Perm.refl _
    | cons level levels ih =>
      rw [List.flatMap_cons, List.flatten_append, List.flatten_cons]
      exact (splitGates_perm tasks level).append ih
  · exact List.Perm.refl _

theorem isolateGates_layered {tasks : List DagTask} {levels : List (List Nat)}
    (h : Layered (upstreamsOf tasks) [] levels) :
    Layered (upstreamsOf tasks) [] (isolateGates tasks levels) := by
  unfold isolateGates
  split_ifs
  · exact h.refine (splitGates_perm tasks)
  · exact h

theorem isGateAt_imp {tasks : List DagTask} {t : Nat} (h : isGateAt tasks t = true) :
    tasks.any (·.isGate) = true := by
  unfold isGateAt at h
  cases htask : tasks[t]? with
  | none =>
    rw [htask] at h
    cases h
  | some task =>
    rw [htask] at h
    exact List.any_eq_true.mpr ⟨task, List.mem_of_getElem? htask, h⟩

theorem gate_alone {tasks : List DagTask} {levels : List (List Nat)} {level : List Nat} {t : Nat}
    (hlevel : level ∈ isolateGates tasks levels) (ht : t ∈ level)
    (hgate : isGateAt tasks t = true) : level = [t] := by
  rw [isolateGates, if_pos (isGateAt_imp hgate), List.mem_flatMap] at hlevel
  obtain ⟨whole, -, hlevel⟩ := hlevel
  rcases List.mem_append.mp hlevel with hlevel | hlevel
  · split_ifs at hlevel
    · cases hlevel
    · rw [List.mem_singleton.mp hlevel, List.mem_filter, hgate] at ht
      cases ht.2
  · obtain ⟨gate, -, rfl⟩ := List.mem_map.mp hlevel
    rw [List.mem_singleton.mp ht]

/-! ## What is accepted -/

/-- A schedule of the tasks: every task stands in one level, once, after its upstreams. -/
structure Schedule (tasks : List DagTask) (levels : List (List Nat)) : Prop where
  perm : levels.flatten.Perm (List.range tasks.length)
  layered : Layered (upstreamsOf tasks) [] levels
  alone : ∀ level ∈ levels, ∀ t ∈ level, isGateAt tasks t = true → level = [t]

theorem Schedule.sequenced {tasks : List DagTask} {levels : List (List Nat)}
    (h : Schedule tasks levels) : Sequenced (upstreamsOf tasks) levels.flatten where
  nodup := h.perm.symm.nodup List.nodup_range
  after_preds before t after heq := by
    have hsub := h.layered.sequenced heq
    rwa [List.nil_append] at hsub

theorem inRange_iff {tasks : List DagTask} :
    (tasks.all fun task => task.upstreams.all (· < tasks.length)) = true ↔ InRange tasks := by
  simp [InRange]

/-- **When the tasks are accepted.** -/
theorem build_eq_ok {tasks : List DagTask} {dag : DagDefinition} :
    build tasks = some (.ok dag) ↔ validate tasks = .ok () ∧ InRange tasks ∧
      (kahn tasks).visited = tasks.length ∧
        dag = ⟨tasks, isolateGates tasks (kahn tasks).executionLevels⟩ := by
  unfold build
  cases hvalid : validate tasks with
  | error error => simp
  | ok _ =>
    rw [← inRange_iff]
    dsimp only
    by_cases hrange : (tasks.all fun task => task.upstreams.all (· < tasks.length)) = true
    · rw [if_pos hrange, and_iff_right hrange, and_iff_right rfl]
      by_cases hvisited : (kahn tasks).visited = tasks.length
      · rw [if_neg (not_not.mpr hvisited), and_iff_right hvisited, Option.some.injEq,
          Except.ok.injEq, eq_comm]
      · rw [if_pos hvisited]
        simp [hvisited]
    · rw [if_neg hrange]
      simp only [reduceCtorEq, false_iff]
      exact fun h => hrange h.2.1

/-- **Every accepted DAG has a schedule.** -/
theorem build_schedule {tasks : List DagTask} {dag : DagDefinition}
    (h : build tasks = some (.ok dag)) :
    dag.tasks = tasks ∧ InRange tasks ∧ Schedule tasks dag.executionLevels := by
  obtain ⟨-, hrange, hvisited, rfl⟩ := build_eq_ok.mp h
  obtain ⟨-, m, hlive⟩ := kahn_live hrange
  refine ⟨rfl, hrange, ?_, ?_, ?_⟩
  · refine (isolateGates_perm tasks _).trans ?_
    have hnodup : (kahn tasks).executionLevels.flatten.Nodup := by
      rw [hlive.levels]
      exact levels_nodup m
    refine (hnodup.subperm fun t ht => ?_).perm_of_length_le ?_
    · rw [hlive.levels] at ht
      exact List.mem_range.mpr (mem_flatten_levels.mp ht).1
    · rw [← hlive.visited, hvisited, List.length_range]
  · refine isolateGates_layered ?_
    rw [hlive.levels]
    exact levels_layered hrange m
  · intro level hlevel t ht hgate
    exact gate_alone hlevel ht hgate

/-- **What passes the checks is accepted exactly if it has no cycle.** -/
theorem exists_build_iff {tasks : List DagTask} (hrange : InRange tasks)
    (hvalid : validate tasks = .ok ()) : (∃ dag, build tasks = some (.ok dag)) ↔
      Acyclic (upstreamsOf tasks) (· < tasks.length) := by
  obtain ⟨hended, m, hlive⟩ := kahn_live hrange
  rw [← visited_eq_iff hrange hlive hended]
  constructor
  · rintro ⟨dag, hbuild⟩
    exact (build_eq_ok.mp hbuild).2.2.1
  · intro hvisited
    exact ⟨_, build_eq_ok.mpr ⟨hvalid, hrange, hvisited, rfl⟩⟩

/-- **`build` computes a correct level schedule.** -/
theorem build_computes_level_schedule (tasks : List DagTask) (hrange : InRange tasks)
    (hvalid : validate tasks = .ok ()) :
    ((∃ dag, build tasks = some (.ok dag)) ↔
      Acyclic (upstreamsOf tasks) (· < tasks.length)) ∧
    ∀ dag, build tasks = some (.ok dag) →
      dag.executionLevels.flatten.Perm (List.range tasks.length) ∧
      (∀ before level after, dag.executionLevels = before ++ level :: after →
        ∀ t ∈ level, ∀ u ∈ upstreamsOf tasks t, u ∈ before.flatten) ∧
      (∀ level ∈ dag.executionLevels, ∀ t ∈ level, isGateAt tasks t = true → level = [t]) ∧
      ((∀ task ∈ tasks, task.isGate = false) →
        ∀ k level, dag.executionLevels[k]? = some level → level.Pairwise (· < ·) ∧
          ∀ t ∈ level, (∃ path, Chained (upstreamsOf tasks) (path ++ [t]) ∧ path.length = k) ∧
            ∀ path, Chained (upstreamsOf tasks) (path ++ [t]) → path.length ≤ k) := by
  refine ⟨exists_build_iff hrange hvalid, ?_⟩
  intro dag hbuild
  obtain ⟨-, -, hschedule⟩ := build_schedule hbuild
  refine ⟨hschedule.perm, ?_, hschedule.alone, ?_⟩
  · intro before level after heq t ht
    have hlayered := hschedule.layered
    rw [heq] at hlayered
    exact hlayered.before ht
  · intro hnogate k level hlevel
    obtain ⟨-, -, -, rfl⟩ := build_eq_ok.mp hbuild
    obtain ⟨-, m, hlive⟩ := kahn_live hrange
    have hnone : tasks.any (·.isGate) = false := by
      rw [List.any_eq_false]
      exact fun task htask => by rw [hnogate task htask]; exact Bool.false_ne_true
    dsimp only at hlevel
    rw [isolateGates, hnone, if_neg Bool.false_ne_true, hlive.levels, List.getElem?_map] at hlevel
    obtain ⟨j, hj, rfl⟩ := Option.map_eq_some_iff.mp hlevel
    obtain ⟨hlt, hjk⟩ := List.getElem?_eq_some_iff.mp hj
    rw [List.getElem_range] at hjk
    subst hjk
    refine ⟨heightLevel_pairwise tasks k, fun t ht => ?_⟩
    exact heightIs_iff_chains.mp (mem_heightLevel.mp ht).2

/-- Two loads that wait for one fetch. -/
theorem schedule_of_two_loads :
    build [.activity "load" [1], .activity "fetch" [], .activity "load" [1]] =
      some (.ok ⟨[.activity "load" [1], .activity "fetch" [], .activity "load" [1]],
        [[1], [0, 2]]⟩) ∧
    Acyclic (upstreamsOf [.activity "load" [1], .activity "fetch" [], .activity "load" [1]])
      (· < 3) := by
  have hbuild : build [.activity "load" [1], .activity "fetch" [], .activity "load" [1]] =
      some (.ok ⟨[.activity "load" [1], .activity "fetch" [], .activity "load" [1]],
        [[1], [0, 2]]⟩) := rfl
  refine ⟨hbuild, ?_⟩
  exact (build_computes_level_schedule _ (inRange_iff.mp rfl) rfl).1.mp ⟨_, hbuild⟩

end Harvest.Dag
