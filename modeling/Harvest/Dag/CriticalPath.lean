import Harvest.Dag.Build
import Mathlib.Algebra.GroupWithZero.Nat

/-!
# The critical path of a DAG

Model of `CriticalPathAnalyzer` in `critical_path.rs`. Nanoseconds are added in a `u128` that
saturates.

Proved here:
* `bestUpstream_spec`: the choice among the upstreams, the first of the greatest distance.
* `visitAll_settled`: after the walk every task has its distance and its predecessor.
* `walkBack_spec`: the way back from a task is a path whose total is its distance.
* `analyze_finds_longest_path`: no path is longer, as long as the sum fits a `u128`.
-/

namespace Harvest.Dag

open Harvest.Lib

/-- `HashMap<String, Duration>`, in the order of its iteration. -/
structure DurationMap where
  entries : List (String × Duration)
  nodup : (entries.map Prod.fst).Nodup

def DurationMap.get (map : DurationMap) (name : String) : Option Duration :=
  (map.entries.find? (·.1 = name)).map Prod.snd

structure CriticalPathAnalyzer where
  dag : DagDefinition
  activityDurations : DurationMap
  defaultDuration : Duration

structure CriticalPathResult where
  totalDuration : Duration
  pathIndices : List Nat
  pathNames : List String
deriving DecidableEq

def linearScanCardinalityLimit : Nat := 5

def minLookupsToAmortizeTableBuild : Nat := 20

def u128Max : Nat := 2 ^ 128 - 1

/-- `u128::saturating_add` -/
def saturatingAdd (a b : Nat) : Nat := min (a + b) u128Max

def nanosToDurationSaturating (nanos : Nat) : Duration :=
  if h : nanos ≥ Duration.maxNanos then Duration.max
  else ⟨nanos / 1000000000, nanos % 1000000000,
    by unfold Duration.maxNanos at h; omega, Nat.mod_lt _ (by decide)⟩

/-- What the walk over the levels fills in. -/
structure Distances where
  distances : Nat → Nat
  predecessors : Nat → Option Nat
  isSink : Nat → Bool

/-- One upstream against the best so far. -/
def takeUpstream (distances : Nat → Nat) (best : Nat × Option Nat) (up : Nat) : Nat × Option Nat :=
  if distances up ≥ best.1 then
    if distances up > best.1 ∨ best.2.isNone then (distances up, some up) else best
  else best

def bestUpstream (distances : Nat → Nat) (upstreams : List Nat) : Nat × Option Nat :=
  upstreams.foldl (takeUpstream distances) (0, none)

/-- One sink against the best so far. -/
def takeSink (st : Distances) (best : Nat × Option Nat) (i : Nat) : Nat × Option Nat :=
  if st.isSink i ∧ (st.distances i > best.1 ∨ best.2.isNone) then (st.distances i, some i) else best

/-- The nodes from one back along the predecessors. The loop ends after at most as many nodes as
there are tasks (`walkBack_spec`). -/
def walkBack (predecessors : Nat → Option Nat) : Nat → Option Nat → List Nat
  | 0, _ => []
  | _ + 1, none => []
  | fuel + 1, some node => node :: walkBack predecessors fuel (predecessors node)

namespace CriticalPathAnalyzer

/-- The table that is scanned when few names are mocked and many tasks look one up. -/
def durationLookup (a : CriticalPathAnalyzer) : Option (List (String × Duration)) :=
  if a.activityDurations.entries.length ≤ linearScanCardinalityLimit ∧
      a.dag.tasks.length ≥ minLookupsToAmortizeTableBuild then
    let lookupsNeeded := a.dag.tasks.countP (·.startToClose.isNone)
    if lookupsNeeded ≥ minLookupsToAmortizeTableBuild then
      some (a.activityDurations.entries.insertionSort fun x y => x.1 ≤ y.1)
    else none
  else none

/-- The duration of a task, by the table or by the map. -/
def durationOf (a : CriticalPathAnalyzer) (lookup : Option (List (String × Duration)))
    (task : DagTask) : Duration :=
  match task.startToClose with
  | some duration => duration
  | none =>
    match lookup with
    | none => (a.activityDurations.get task.activityName).getD a.defaultDuration
    | some table =>
      ((table.find? (·.1 = task.activityName)).map Prod.snd).getD a.defaultDuration

def nanosOf (a : CriticalPathAnalyzer) (lookup : Option (List (String × Duration))) (t : Nat) :
    Nat :=
  (a.dag.tasks[t]?.map fun task => (a.durationOf lookup task).asNanos).getD 0

def visit (a : CriticalPathAnalyzer) (lookup : Option (List (String × Duration)))
    (st : Distances) (t : Nat) : Distances :=
  let upstreams := upstreamsOf a.dag.tasks t
  let best := bestUpstream st.distances upstreams
  { distances := Function.update st.distances t (saturatingAdd best.1 (a.nanosOf lookup t))
    predecessors := Function.update st.predecessors t best.2
    isSink := fun i => if upstreams.contains i then false else st.isSink i }

def visitAll (a : CriticalPathAnalyzer) : Distances :=
  a.dag.executionLevels.flatten.foldl (a.visit a.durationLookup)
    ⟨fun _ => 0, fun _ => none, fun _ => true⟩

def analyze (a : CriticalPathAnalyzer) : CriticalPathResult :=
  if a.dag.tasks.isEmpty then ⟨.zero, [], []⟩
  else
    let st := a.visitAll
    let best := (List.range a.dag.tasks.length).foldl (takeSink st) (0, none)
    let pathIndices := (walkBack st.predecessors a.dag.tasks.length best.2).reverse
    { totalDuration := nanosToDurationSaturating best.1
      pathIndices
      pathNames := pathIndices.map fun i => (a.dag.tasks[i]?.map (·.activityName)).getD "" }

end CriticalPathAnalyzer

/-! ## Choices -/

theorem takeUpstream_none (distances : Nat → Nat) (up : Nat) :
    takeUpstream distances (0, none) up = (distances up, some up) := by
  rw [takeUpstream, if_pos (Nat.zero_le _)]
  exact if_pos (Or.inr rfl)

theorem takeUpstream_some (distances : Nat → Nat) (m p up : Nat) :
    takeUpstream distances (m, some p) up =
      if distances up > m then (distances up, some up) else (m, some p) := by
  unfold takeUpstream
  by_cases hgt : distances up > m
  · rw [if_pos (Nat.le_of_lt hgt), if_pos (Or.inl hgt), if_pos hgt]
  · simp [hgt]

/-- **The choice among the upstreams**: the first of the greatest distance. -/
theorem bestUpstream_spec (distances : Nat → Nat) (upstreams : List Nat) :
    (upstreams = [] ∧ bestUpstream distances upstreams = (0, none)) ∨
      ∃ p before after, bestUpstream distances upstreams = (distances p, some p) ∧
        upstreams = before ++ p :: after ∧ (∀ u ∈ before, distances u < distances p) ∧
        ∀ u ∈ upstreams, distances u ≤ distances p := by
  induction upstreams using List.reverseRecOn with
  | nil => exact Or.inl ⟨rfl, rfl⟩
  | append_singleton upstreams up ih =>
    right
    have hfold : bestUpstream distances (upstreams ++ [up]) =
        takeUpstream distances (bestUpstream distances upstreams) up := by
      rw [bestUpstream, List.foldl_append]
      rfl
    rw [hfold]
    rcases ih with ⟨rfl, hbest⟩ | ⟨p, before, after, hbest, hsplit, hfirst, hmax⟩
    · rw [hbest, takeUpstream_none]
      refine ⟨up, [], [], rfl, rfl, fun u hu => absurd hu List.not_mem_nil, ?_⟩
      intro u hu
      rw [List.nil_append, List.mem_singleton] at hu
      rw [hu]
    · rw [hbest, takeUpstream_some]
      by_cases hgt : distances up > distances p
      · rw [if_pos hgt]
        have hall : ∀ u ∈ upstreams, distances u < distances up := fun u hu =>
          Nat.lt_of_le_of_lt (hmax u hu) hgt
        refine ⟨up, upstreams, [], rfl, rfl, hall, ?_⟩
        intro u hu
        rcases List.mem_append.mp hu with hu | hu
        · exact Nat.le_of_lt (hall u hu)
        · rw [List.mem_singleton.mp hu]
      · rw [if_neg hgt]
        refine ⟨p, before, after ++ [up], rfl, by rw [hsplit]; simp, hfirst, ?_⟩
        intro u hu
        rcases List.mem_append.mp hu with hu | hu
        · exact hmax u hu
        · rw [List.mem_singleton.mp hu]
          exact Nat.le_of_not_lt hgt

/-- **The choice among the sinks.** -/
theorem takeSink_spec (st : Distances) (nodes : List Nat) :
    ((∀ i ∈ nodes, st.isSink i = false) ∧ nodes.foldl (takeSink st) (0, none) = (0, none)) ∨
      ∃ e ∈ nodes, nodes.foldl (takeSink st) (0, none) = (st.distances e, some e) ∧
        st.isSink e = true ∧
        ∀ i ∈ nodes, st.isSink i = true → st.distances i ≤ st.distances e := by
  induction nodes using List.reverseRecOn with
  | nil => exact Or.inl ⟨fun i hi => absurd hi List.not_mem_nil, rfl⟩
  | append_singleton nodes node ih =>
    rw [List.foldl_append, List.foldl_cons, List.foldl_nil]
    cases hsink : st.isSink node with
    | false =>
      have hskip : ∀ best, takeSink st best node = best := by
        intro best
        rw [takeSink, hsink]
        exact if_neg fun h => Bool.false_ne_true h.1
      rw [hskip]
      refine ih.imp ?_ ?_
      · rintro ⟨hnone, hbest⟩
        refine ⟨fun i hi => ?_, hbest⟩
        rcases List.mem_append.mp hi with hi | hi
        · exact hnone i hi
        · rw [List.mem_singleton.mp hi, hsink]
      · rintro ⟨e, he, hbest, hsinkE, hmax⟩
        refine ⟨e, List.mem_append_left _ he, hbest, hsinkE, fun i hi hi' => ?_⟩
        rcases List.mem_append.mp hi with hi | hi
        · exact hmax i hi hi'
        · rw [List.mem_singleton.mp hi, hsink] at hi'
          cases hi'
    | true =>
      right
      have hlast : node ∈ nodes ++ [node] := List.mem_append_right _ List.mem_cons_self
      rcases ih with ⟨hnone, hbest⟩ | ⟨e, he, hbest, hsinkE, hmax⟩
      · refine ⟨node, hlast, ?_, hsink, fun i hi hi' => ?_⟩
        · rw [hbest, takeSink, hsink]
          exact if_pos ⟨rfl, Or.inr rfl⟩
        · rcases List.mem_append.mp hi with hi | hi
          · rw [hnone i hi] at hi'
            cases hi'
          · rw [List.mem_singleton.mp hi]
      · by_cases hgt : st.distances node > st.distances e
        · refine ⟨node, hlast, ?_, hsink, fun i hi hi' => ?_⟩
          · rw [hbest, takeSink, hsink]
            exact if_pos ⟨rfl, Or.inl hgt⟩
          · rcases List.mem_append.mp hi with hi | hi
            · exact (hmax i hi hi').trans (Nat.le_of_lt hgt)
            · rw [List.mem_singleton.mp hi]
        · refine ⟨e, List.mem_append_left _ he, ?_, hsinkE, fun i hi hi' => ?_⟩
          · rw [hbest, takeSink]
            refine if_neg fun h => ?_
            rcases h.2 with h | h
            · exact hgt h
            · cases h
          · rcases List.mem_append.mp hi with hi | hi
            · exact hmax i hi hi'
            · rw [List.mem_singleton.mp hi]
              exact Nat.le_of_not_lt hgt

/-! ## The walk over the levels -/

/-- A task has its distance and its predecessor. -/
def Settled (upstreams : Nat → List Nat) (nanos : Nat → Nat) (st : Distances) (t : Nat) : Prop :=
  (upstreams t = [] ∧ st.predecessors t = none ∧ st.distances t = min (nanos t) u128Max) ∨
    ∃ p before after, upstreams t = before ++ p :: after ∧ st.predecessors t = some p ∧
      st.distances t = saturatingAdd (st.distances p) (nanos t) ∧
      (∀ u ∈ before, st.distances u < st.distances p) ∧
      ∀ u ∈ upstreams t, st.distances u ≤ st.distances p

theorem Settled.congr {upstreams : Nat → List Nat} {nanos : Nat → Nat} {st st' : Distances}
    {t : Nat} (h : Settled upstreams nanos st t) (hpred : st'.predecessors t = st.predecessors t)
    (hself : st'.distances t = st.distances t)
    (hups : ∀ u ∈ upstreams t, st'.distances u = st.distances u) :
    Settled upstreams nanos st' t := by
  rcases h with ⟨hnil, hnone, hdist⟩ | ⟨p, before, after, hsplit, hsome, hdist, hfirst, hmax⟩
  · exact Or.inl ⟨hnil, hpred.trans hnone, hself.trans hdist⟩
  · have hp : p ∈ upstreams t := by
      rw [hsplit]
      exact List.mem_append_right _ List.mem_cons_self
    refine Or.inr ⟨p, before, after, hsplit, hpred.trans hsome, ?_, ?_, ?_⟩
    · rw [hself, hups p hp, hdist]
    · intro u hu
      rw [hups p hp, hups u (by rw [hsplit]; exact List.mem_append_left _ hu)]
      exact hfirst u hu
    · intro u hu
      rw [hups p hp, hups u hu]
      exact hmax u hu

namespace CriticalPathAnalyzer

variable (a : CriticalPathAnalyzer) (lookup : Option (List (String × Duration)))

/-- One visit settles its task. -/
theorem visit_settles (st : Distances) {t : Nat} (ht : t ∉ upstreamsOf a.dag.tasks t) :
    Settled (upstreamsOf a.dag.tasks) (a.nanosOf lookup) (a.visit lookup st t) t := by
  have hkept : ∀ u ∈ upstreamsOf a.dag.tasks t,
      (a.visit lookup st t).distances u = st.distances u := by
    intro u hu
    have hne : u ≠ t := by
      rintro rfl
      exact ht hu
    exact Function.update_of_ne hne _ _
  have hself : (a.visit lookup st t).distances t = saturatingAdd
      (bestUpstream st.distances (upstreamsOf a.dag.tasks t)).1 (a.nanosOf lookup t) :=
    Function.update_self t _ _
  have hpred : (a.visit lookup st t).predecessors t =
      (bestUpstream st.distances (upstreamsOf a.dag.tasks t)).2 := Function.update_self t _ _
  rcases bestUpstream_spec st.distances (upstreamsOf a.dag.tasks t) with
    ⟨hnil, hbest⟩ | ⟨p, before, after, hbest, hsplit, hfirst, hmax⟩
  · left
    refine ⟨hnil, by rw [hpred, hbest], ?_⟩
    rw [hself, hbest, saturatingAdd, Nat.zero_add]
  · right
    have hp : p ∈ upstreamsOf a.dag.tasks t := by
      rw [hsplit]
      exact List.mem_append_right _ List.mem_cons_self
    refine ⟨p, before, after, hsplit, by rw [hpred, hbest], ?_, ?_, ?_⟩
    · rw [hself, hbest, hkept p hp]
    · intro u hu
      rw [hkept p hp, hkept u (by rw [hsplit]; exact List.mem_append_left _ hu)]
      exact hfirst u hu
    · intro u hu
      rw [hkept p hp, hkept u hu]
      exact hmax u hu

/-- **After the walk** every task is settled, and the sinks are the tasks that no visited task
names. -/
theorem foldl_visit_settled (init : Distances) (hinit : ∀ i, init.isSink i = true)
    {order : List Nat} (hseq : Sequenced (upstreamsOf a.dag.tasks) order) :
    (∀ t ∈ order, Settled (upstreamsOf a.dag.tasks) (a.nanosOf lookup)
      (order.foldl (a.visit lookup) init) t) ∧
    ∀ i, (order.foldl (a.visit lookup) init).isSink i = true ↔
      ∀ s ∈ order, i ∉ upstreamsOf a.dag.tasks s := by
  induction order using List.reverseRecOn with
  | nil => exact ⟨fun t ht => absurd ht List.not_mem_nil, fun i => by simp [hinit]⟩
  | append_singleton order x ih =>
    obtain ⟨hfront, hups, hx⟩ := hseq.front
    obtain ⟨hsettled, hsink⟩ := ih hfront
    rw [List.foldl_append, List.foldl_cons, List.foldl_nil]
    constructor
    · intro t ht
      rcases List.mem_append.mp ht with ht | ht
      · have hne : ∀ {u}, u ∈ order → u ≠ x := fun hu heq => hx (heq ▸ hu)
        refine (hsettled t ht).congr ?_ ?_ ?_
        · exact Function.update_of_ne (hne ht) _ _
        · exact Function.update_of_ne (hne ht) _ _
        · intro u hu
          exact Function.update_of_ne (hne (hfront.preds_subset ht hu)) _ _
      · rw [List.mem_singleton.mp ht]
        exact a.visit_settles lookup _ fun hself => hx (hups hself)
    · intro i
      have hmark : (a.visit lookup (order.foldl (a.visit lookup) init) x).isSink i = true ↔
          (order.foldl (a.visit lookup) init).isSink i = true ∧
            i ∉ upstreamsOf a.dag.tasks x := by
        unfold visit
        by_cases hi : i ∈ upstreamsOf a.dag.tasks x <;> simp [hi]
      rw [hmark, hsink, List.forall_mem_append, List.forall_mem_singleton]

end CriticalPathAnalyzer

/-! ## Paths -/

/-- The exact total of a path. -/
def pathNanos (nanos : Nat → Nat) (path : List Nat) : Nat := (path.map nanos).sum

theorem pathNanos_concat (nanos : Nat → Nat) (front : List Nat) (t : Nat) :
    pathNanos nanos (front ++ [t]) = pathNanos nanos front + nanos t := by
  rw [pathNanos, pathNanos, List.map_append, List.sum_append, List.map_singleton,
    List.sum_singleton]

section Paths

variable {upstreams : Nat → List Nat} {nanos : Nat → Nat} {st : Distances} {order : List Nat}

theorem Settled.distance_le {t : Nat} (h : Settled upstreams nanos st t) :
    st.distances t ≤ u128Max := by
  rcases h with ⟨-, -, hdist⟩ | ⟨p, -, -, -, -, hdist, -⟩
  · rw [hdist]
    exact Nat.min_le_right _ _
  · rw [hdist]
    exact Nat.min_le_right _ _

/-- The distance of a task covers its own time, after that of each upstream. -/
theorem Settled.le_distance {t : Nat} (h : Settled upstreams nanos st t) :
    min (nanos t) u128Max ≤ st.distances t ∧
      ∀ u ∈ upstreams t, min (st.distances u + nanos t) u128Max ≤ st.distances t := by
  rcases h with ⟨hnil, -, hdist⟩ | ⟨p, -, -, -, -, hdist, -, hmax⟩
  · refine ⟨Nat.le_of_eq hdist.symm, fun u hu => ?_⟩
    rw [hnil] at hu
    cases hu
  · unfold saturatingAdd at hdist
    constructor
    · omega
    · intro u hu
      have hle := hmax u hu
      omega

/-- **No path is longer than the distance of its end**, up to the saturation. -/
theorem pathNanos_le_distance (hclosed : ∀ t ∈ order, upstreams t ⊆ order)
    (hsettled : ∀ t ∈ order, Settled upstreams nanos st t) {front : List Nat} :
    ∀ {t : Nat}, t ∈ order → Chained upstreams (front ++ [t]) →
      min (pathNanos nanos (front ++ [t])) u128Max ≤ st.distances t := by
  induction front using List.reverseRecOn with
  | nil =>
    intro t ht _
    rw [pathNanos_concat, pathNanos, List.map_nil, List.sum_nil, Nat.zero_add]
    exact (hsettled t ht).le_distance.1
  | append_singleton front u ih =>
    intro t ht hchain
    rw [chained_concat_concat] at hchain
    have hupstream := ih (hclosed t ht hchain.2) hchain.1
    have hdist := (hsettled t ht).le_distance.2 u hchain.2
    rw [pathNanos_concat]
    omega

/-- Behind every task there is a sink that is at least as far. -/
theorem exists_sink (hseq : Sequenced upstreams order)
    (hsettled : ∀ t ∈ order, Settled upstreams nanos st t) :
    ∀ t ∈ order, ∃ s ∈ order, (∀ s' ∈ order, s ∉ upstreams s') ∧
      st.distances t ≤ st.distances s := by
  induction order using List.reverseRecOn with
  | nil =>
    intro t ht
    cases ht
  | append_singleton order x ih =>
    obtain ⟨hfront, hups, hx⟩ := hseq.front
    have hxin : x ∈ order ++ [x] := List.mem_append_right _ List.mem_cons_self
    have hxsink : ∀ s' ∈ order ++ [x], x ∉ upstreams s' := by
      intro s' hs' hmem
      rcases List.mem_append.mp hs' with hs' | hs'
      · exact hx (hfront.preds_subset hs' hmem)
      · rw [List.mem_singleton.mp hs'] at hmem
        exact hx (hups hmem)
    intro t ht
    rcases List.mem_append.mp ht with ht | ht
    · obtain ⟨s, hs, hsink, hle⟩ :=
        ih hfront (fun t ht => hsettled t (List.mem_append_left _ ht)) t ht
      by_cases hnamed : s ∈ upstreams x
      · refine ⟨x, hxin, hxsink, ?_⟩
        have hdist := (hsettled x hxin).le_distance.2 s hnamed
        have hcap := (hsettled s (List.mem_append_left _ hs)).distance_le
        omega
      · refine ⟨s, List.mem_append_left _ hs, fun s' hs' => ?_, hle⟩
        rcases List.mem_append.mp hs' with hs' | hs'
        · exact hsink s' hs'
        · rw [List.mem_singleton.mp hs']
          exact hnamed
    · rw [List.mem_singleton.mp ht]
      exact ⟨x, hxin, hxsink, Nat.le_refl _⟩

/-- **The way back** from a task is a path from a task without upstreams, and its total is the
distance. -/
theorem walkBack_spec (hseq : Sequenced upstreams order)
    (hsettled : ∀ t ∈ order, Settled upstreams nanos st t) :
    ∀ t ∈ order, ∀ fuel, order.length ≤ fuel → ∃ front : List Nat,
      (walkBack st.predecessors fuel (some t)).reverse = front ++ [t] ∧
      Chained upstreams (front ++ [t]) ∧ front ++ [t] ⊆ order ∧
      (∀ first ∈ (front ++ [t]).head?, upstreams first = []) ∧
      min (pathNanos nanos (front ++ [t])) u128Max = st.distances t := by
  induction order using List.reverseRecOn with
  | nil =>
    intro t ht
    cases ht
  | append_singleton order x ih =>
    obtain ⟨hfront, hups, hx⟩ := hseq.front
    have hbefore := ih hfront fun t ht => hsettled t (List.mem_append_left _ ht)
    intro t ht fuel hfuel
    rw [List.length_append, List.length_singleton] at hfuel
    rcases List.mem_append.mp ht with ht | ht
    · obtain ⟨front, hwalk, hchain, hsubset, hrest⟩ := hbefore t ht fuel (by omega)
      exact ⟨front, hwalk, hchain,
        List.Subset.trans hsubset (List.subset_append_left _ _), hrest⟩
    · rw [List.mem_singleton] at ht
      subst ht
      obtain ⟨fuel, rfl⟩ : ∃ less, fuel = less + 1 := ⟨fuel - 1, by omega⟩
      rw [walkBack, List.reverse_cons]
      rcases hsettled t (List.mem_append_right _ List.mem_cons_self) with
        ⟨hnil, hnone, hdist⟩ | ⟨p, before, after, hsplit, hsome, hdist, -⟩
      · refine ⟨[], ?_, List.IsChain.singleton t, ?_, ?_, ?_⟩
        · rw [hnone]
          cases fuel <;> rfl
        · exact List.subset_append_right _ _
        · intro first hfirst
          rw [List.nil_append, List.head?_cons, Option.mem_some] at hfirst
          rw [← hfirst, hnil]
        · rw [pathNanos_concat, hdist, pathNanos, List.map_nil, List.sum_nil, Nat.zero_add]
      · have hp : p ∈ upstreams t := by
          rw [hsplit]
          exact List.mem_append_right _ List.mem_cons_self
        obtain ⟨front, hwalk, hchain, hsubset, hhead, htotal⟩ :=
          hbefore p (hups hp) fuel (by omega)
        refine ⟨front ++ [p], ?_, chained_concat_concat.mpr ⟨hchain, hp⟩, ?_, ?_, ?_⟩
        · rw [hsome, hwalk]
        · exact List.append_subset.mpr ⟨List.Subset.trans hsubset (List.subset_append_left _ _),
            List.subset_append_right _ _⟩
        · intro first hfirst
          refine hhead first ?_
          rw [List.head?_append_of_ne_nil _ (by simp)] at hfirst
          exact hfirst
        · rw [pathNanos_concat, hdist, saturatingAdd, ← htotal]
          omega

end Paths

/-! ## Durations -/

/-- Where the keys are distinct, the order of the entries does not matter. -/
theorem find_key_perm {entries table : List (String × Duration)}
    (hnodup : (entries.map Prod.fst).Nodup) (hperm : table.Perm entries) (name : String) :
    table.find? (·.1 = name) = entries.find? (·.1 = name) := by
  cases hfind : entries.find? (·.1 = name) with
  | none =>
    rw [List.find?_eq_none] at hfind ⊢
    exact fun entry hentry => hfind entry (hperm.subset hentry)
  | some entry =>
    have hentry := List.mem_of_find?_eq_some hfind
    have hname := List.find?_some hfind
    cases hother : table.find? (·.1 = name) with
    | none => exact absurd hname (List.find?_eq_none.mp hother entry (hperm.symm.subset hentry))
    | some other =>
      have hmem := hperm.subset (List.mem_of_find?_eq_some hother)
      have hsame := List.find?_some hother
      simp only [decide_eq_true_eq] at hname hsame
      rw [List.inj_on_of_nodup_map hnodup hmem hentry (hsame.trans hname.symm)]

/-- **The table gives every task the duration of the map.** -/
theorem CriticalPathAnalyzer.durationOf_table (a : CriticalPathAnalyzer)
    {table : List (String × Duration)} (h : a.durationLookup = some table) (task : DagTask) :
    a.durationOf (some table) task = a.durationOf none task := by
  have htable : table = a.activityDurations.entries.insertionSort fun x y => x.1 ≤ y.1 := by
    unfold durationLookup at h
    rw [Option.ite_none_right_eq_some, Option.ite_none_right_eq_some, Option.some.injEq] at h
    exact h.2.2.symm
  unfold durationOf
  cases task.startToClose with
  | some duration => rfl
  | none =>
    dsimp only
    rw [DurationMap.get, find_key_perm a.activityDurations.nodup
      (htable ▸ List.perm_insertionSort _ _)]

theorem CriticalPathAnalyzer.nanosOf_lookup (a : CriticalPathAnalyzer) :
    a.nanosOf a.durationLookup = a.nanosOf none := by
  cases hlookup : a.durationLookup with
  | none => rfl
  | some table =>
    funext t
    simp only [nanosOf, a.durationOf_table hlookup]

theorem asNanos_nanosToDurationSaturating (nanos : Nat) :
    (nanosToDurationSaturating nanos).asNanos = min nanos Duration.maxNanos := by
  unfold nanosToDurationSaturating
  split_ifs with h
  · rw [Nat.min_eq_right h]
    exact Duration.asNanos_max
  · rw [Nat.min_eq_left (Nat.le_of_not_le h), Duration.asNanos]
    dsimp only
    omega

/-! ## The analysis -/

/-- What the analysis of an accepted DAG rests on. -/
theorem CriticalPathAnalyzer.visitAll_settled (a : CriticalPathAnalyzer) {tasks : List DagTask}
    (hbuild : build tasks = some (.ok a.dag)) :
    a.dag.tasks = tasks ∧ Sequenced (upstreamsOf tasks) a.dag.executionLevels.flatten ∧
      (∀ t, t ∈ a.dag.executionLevels.flatten ↔ t < tasks.length) ∧
      (∀ t ∈ a.dag.executionLevels.flatten,
        Settled (upstreamsOf tasks) (a.nanosOf none) a.visitAll t) ∧
      ∀ i, a.visitAll.isSink i = true ↔
        ∀ s ∈ a.dag.executionLevels.flatten, i ∉ upstreamsOf tasks s := by
  obtain ⟨htasks, -, hschedule⟩ := build_schedule hbuild
  have hseq := hschedule.sequenced
  rw [← htasks] at hseq
  obtain ⟨hsettled, hsink⟩ :=
    a.foldl_visit_settled a.durationLookup ⟨fun _ => 0, fun _ => none, fun _ => true⟩
      (fun _ => rfl) hseq
  rw [a.nanosOf_lookup] at hsettled
  subst htasks
  exact ⟨rfl, hseq, fun t => hschedule.perm.mem_iff.trans List.mem_range, hsettled, hsink⟩

/-- The end of the critical path: a sink of the greatest distance, from which the path is walked
back. -/
theorem CriticalPathAnalyzer.analyze_eq (a : CriticalPathAnalyzer) {tasks : List DagTask}
    (hne : tasks ≠ []) (hbuild : build tasks = some (.ok a.dag)) :
    ∃ e < tasks.length, (∀ t, e ∉ upstreamsOf tasks t) ∧
      (∀ t < tasks.length, a.visitAll.distances t ≤ a.visitAll.distances e) ∧
      a.analyze.pathIndices = (walkBack a.visitAll.predecessors tasks.length (some e)).reverse ∧
      a.analyze.totalDuration = nanosToDurationSaturating (a.visitAll.distances e) := by
  obtain ⟨htasks, hseq, hmem, hsettled, hsink⟩ := a.visitAll_settled hbuild
  have hanalyze : a.analyze.pathIndices = (walkBack a.visitAll.predecessors tasks.length
        ((List.range tasks.length).foldl (takeSink a.visitAll) (0, none)).2).reverse ∧
      a.analyze.totalDuration = nanosToDurationSaturating
        ((List.range tasks.length).foldl (takeSink a.visitAll) (0, none)).1 := by
    unfold analyze
    rw [htasks, if_neg (by simpa using hne)]
    exact ⟨rfl, rfl⟩
  have hbehind : ∀ t < tasks.length, ∃ s < tasks.length, a.visitAll.isSink s = true ∧
      a.visitAll.distances t ≤ a.visitAll.distances s := by
    intro t ht
    obtain ⟨s, hs, hlast, hle⟩ := exists_sink hseq hsettled t ((hmem t).mpr ht)
    exact ⟨s, (hmem s).mp hs, (hsink s).mpr hlast, hle⟩
  rcases takeSink_spec a.visitAll (List.range tasks.length) with
    ⟨hnone, -⟩ | ⟨e, he, hbest, hsinkE, hmax⟩
  · obtain ⟨s, hs, hsome, -⟩ := hbehind 0 (List.length_pos_iff.mpr hne)
    rw [hnone s (List.mem_range.mpr hs)] at hsome
    cases hsome
  · refine ⟨e, List.mem_range.mp he, ?_, ?_, ?_, ?_⟩
    · intro t hup
      by_cases ht : t < tasks.length
      · exact (hsink e).mp hsinkE t ((hmem t).mpr ht) hup
      · rw [upstreamsOf, List.getElem?_eq_none (Nat.le_of_not_lt ht)] at hup
        cases hup
    · intro t ht
      obtain ⟨s, hs, hsome, hle⟩ := hbehind t ht
      exact hle.trans (hmax s (List.mem_range.mpr hs) hsome)
    · rw [hanalyze.1, hbest]
    · rw [hanalyze.2, hbest]

/-- **The critical path is a longest path.** It starts at a task without upstreams, ends at a task
that is no upstream, and no path has a greater total unless that of the critical path reaches
`u128::MAX` nanoseconds. The reported duration is its total, saturated; the table that is scanned
gives every task the duration of the map. -/
theorem analyze_finds_longest_path (tasks : List DagTask) (hne : tasks ≠ [])
    (a : CriticalPathAnalyzer) (hbuild : build tasks = some (.ok a.dag)) :
    a.analyze.pathIndices ≠ [] ∧
    (∀ t ∈ a.analyze.pathIndices, t < tasks.length) ∧
    Chained (upstreamsOf tasks) a.analyze.pathIndices ∧
    (∀ first ∈ a.analyze.pathIndices.head?, upstreamsOf tasks first = []) ∧
    (∀ last ∈ a.analyze.pathIndices.getLast?, ∀ t, last ∉ upstreamsOf tasks t) ∧
    (∀ path, path ≠ [] → (∀ t ∈ path, t < tasks.length) → Chained (upstreamsOf tasks) path →
      pathNanos (a.nanosOf none) path ≤ pathNanos (a.nanosOf none) a.analyze.pathIndices ∨
        u128Max ≤ pathNanos (a.nanosOf none) a.analyze.pathIndices) ∧
    a.analyze.totalDuration.asNanos =
      min (pathNanos (a.nanosOf none) a.analyze.pathIndices) Duration.maxNanos ∧
    ∀ table, a.durationLookup = some table → ∀ task,
      a.durationOf (some table) task = a.durationOf none task := by
  obtain ⟨-, hseq, hmem, hsettled, -⟩ := a.visitAll_settled hbuild
  obtain ⟨e, he, hlast, hfarthest, hpath, htotal⟩ := a.analyze_eq hne hbuild
  have hlength : a.dag.executionLevels.flatten.length ≤ tasks.length := by
    obtain ⟨-, -, hschedule⟩ := build_schedule hbuild
    rw [hschedule.perm.length_eq, List.length_range]
  obtain ⟨front, hwalk, hchain, hsubset, hhead, hdist⟩ :=
    walkBack_spec hseq hsettled e ((hmem e).mpr he) tasks.length hlength
  rw [hwalk] at hpath
  rw [hpath, htotal]
  refine ⟨?_, ?_, hchain, hhead, ?_, ?_, ?_, ?_⟩
  · exact List.append_ne_nil_of_right_ne_nil _ (List.cons_ne_nil _ _)
  · intro t ht
    exact (hmem t).mp (hsubset ht)
  · intro last hin t
    rw [List.getLast?_concat, Option.mem_some] at hin
    rw [← hin]
    exact hlast t
  · intro path hpathne hinside hpathchain
    obtain ⟨before, t, rfl⟩ := (List.eq_nil_or_concat' path).resolve_left hpathne
    have ht : t < tasks.length :=
      hinside t (List.mem_append_right _ List.mem_cons_self)
    have hle := pathNanos_le_distance (fun t ht => hseq.preds_subset ht) hsettled
      ((hmem t).mpr ht) hpathchain
    have hbound := hfarthest t ht
    omega
  · rw [asNanos_nanosToDurationSaturating, ← hdist]
    have hfits : Duration.maxNanos ≤ u128Max := by decide
    omega
  · intro table hlookup task
    exact a.durationOf_table hlookup task

/-! ## A sum that does not fit -/

/-- A line of steps whose last also waits for the last but two. -/
def detour (n : Nat) : List DagTask :=
  (List.range (n + 2)).map fun i =>
    .activity "step" (if i = 0 then [] else if i = n + 1 then [n - 1, n] else [i - 1])

section Detour

variable {n : Nat}

theorem length_detour : (detour n).length = n + 2 := by
  rw [detour, List.length_map, List.length_range]

theorem upstreamsOf_detour {i : Nat} (hi : i < n + 2) : upstreamsOf (detour n) i =
    if i = 0 then [] else if i = n + 1 then [n - 1, n] else [i - 1] := by
  rw [upstreamsOf, detour, List.getElem?_map, List.getElem?_range hi]
  rfl

/-- Every upstream stands before its task. -/
theorem lt_of_mem_detour (hn : 0 < n) {u t : Nat} (h : u ∈ upstreamsOf (detour n) t) :
    u < t ∧ t < n + 2 := by
  by_cases ht : t < n + 2
  · rw [upstreamsOf_detour ht] at h
    split_ifs at h with h0 hlast
    · cases h
    · simp only [List.mem_cons, List.not_mem_nil, or_false] at h
      omega
    · rw [List.mem_singleton] at h
      omega
  · rw [upstreamsOf, List.getElem?_eq_none (by rw [length_detour]; omega)] at h
    cases h

theorem build_detour (hn : 0 < n) : ∃ dag, build (detour n) = some (.ok dag) := by
  have hrange : InRange (detour n) := by
    intro task htask u hu
    obtain ⟨t, hget⟩ := List.getElem?_of_mem htask
    have hup : u ∈ upstreamsOf (detour n) t := by
      rw [upstreamsOf, hget]
      exact hu
    have hlt := lt_of_mem_detour hn hup
    rw [length_detour]
    omega
  have hvalid : validate (detour n) = .ok () := by
    have hcompensators : validateCompensators (detour n) = .ok () := by
      refine forM_eq_ok.mpr fun task htask => ?_
      obtain ⟨i, -, rfl⟩ := List.mem_map.mp htask
      rfl
    have hbindings : forM (detour n) validateBinding = .ok () := by
      refine forM_eq_ok.mpr fun task htask => ?_
      obtain ⟨i, -, rfl⟩ := List.mem_map.mp htask
      rfl
    rw [validate, hcompensators]
    exact hbindings
  have hlt : ∀ {u t}, Relation.TransGen (fun u t => u ∈ upstreamsOf (detour n) t) u t → u < t := by
    intro u t hreach
    induction hreach with
    | single hedge => exact (lt_of_mem_detour hn hedge).1
    | tail _ hedge ih => exact ih.trans (lt_of_mem_detour hn hedge).1
  exact (exists_build_iff hrange hvalid).mpr
    fun t _ hcycle => Nat.lt_irrefl t (hlt hcycle)

theorem detour_chained {k : Nat} (hk : k ≤ n) :
    Chained (upstreamsOf (detour n)) (List.range k ++ [k]) := by
  induction k with
  | zero => exact List.IsChain.singleton 0
  | succ k ih =>
    rw [List.range_succ, chained_concat_concat]
    refine ⟨ih (by omega), ?_⟩
    rw [upstreamsOf_detour (by omega), if_neg (by omega), if_neg (by omega)]
    exact List.mem_singleton_self k

theorem detour_chained_last (hn : 0 < n) :
    Chained (upstreamsOf (detour n)) (List.range (n + 1) ++ [n + 1]) := by
  rw [List.range_succ, chained_concat_concat]
  refine ⟨detour_chained (Nat.le_refl n), ?_⟩
  rw [upstreamsOf_detour (by omega), if_neg (by omega), if_pos rfl]
  exact List.mem_cons_of_mem _ (List.mem_singleton_self n)

/-- An analyzer without mocks whose default is the longest duration. -/
def slowest (dag : DagDefinition) : CriticalPathAnalyzer := ⟨dag, ⟨[], List.nodup_nil⟩, .max⟩

theorem nanosOf_slowest {dag : DagDefinition} (hdag : dag.tasks = detour n) {t : Nat}
    (ht : t < n + 2) : (slowest dag).nanosOf none t = Duration.maxNanos := by
  have hduration : ∀ upstreams, (slowest dag).durationOf none (.activity "step" upstreams) =
      Duration.max := fun _ => rfl
  rw [CriticalPathAnalyzer.nanosOf, show (slowest dag).dag.tasks = detour n from hdag, detour,
    List.getElem?_map, List.getElem?_range ht, Option.map_some, Option.map_some, Option.getD_some,
    hduration, Duration.asNanos_max]

theorem pathNanos_slowest {dag : DagDefinition} (hdag : dag.tasks = detour n) {path : List Nat}
    (hpath : ∀ t ∈ path, t < n + 2) :
    pathNanos ((slowest dag).nanosOf none) path = path.length * Duration.maxNanos := by
  induction path with
  | nil => simp [pathNanos]
  | cons t path ih =>
    rw [List.forall_mem_cons] at hpath
    have htail := ih hpath.2
    rw [pathNanos] at htail ⊢
    rw [List.map_cons, List.sum_cons, htail, nanosOf_slowest hdag hpath.1, List.length_cons,
      Nat.succ_mul, Nat.add_comm]

/-- A path to the last step over the last but two has at most one node for each before. -/
theorem detour_front_length (hn : 0 < n) {front : List Nat}
    (h : Chained (upstreamsOf (detour n)) (front ++ [n - 1] ++ [n + 1])) :
    (front ++ [n - 1]).length ≤ n := by
  have hchain := (chained_concat_concat.mp h).1
  have hincreasing := (hchain.imp fun u t hedge => (lt_of_mem_detour hn hedge).1).pairwise
  have hsubset : front ++ [n - 1] ⊆ List.range n := by
    intro t ht
    rw [List.mem_range]
    rcases List.mem_append.mp ht with ht | ht
    · have hlt := (List.pairwise_append.mp hincreasing).2.2 t ht (n - 1)
        (List.mem_singleton_self _)
      omega
    · rw [List.mem_singleton.mp ht]
      omega
  have hnodup : (front ++ [n - 1]).Nodup := hincreasing.imp fun hlt => Nat.ne_of_lt hlt
  have hle := (hnodup.subperm hsubset).length_le
  rwa [List.length_range] at hle

/-- **A saturated sum hides the longer way.** -/
theorem detour_not_longest (hn : 0 < n) (hsaturated : u128Max ≤ n * Duration.maxNanos)
    {dag : DagDefinition} (hbuild : build (detour n) = some (.ok dag)) :
    pathNanos ((slowest dag).nanosOf none) (slowest dag).analyze.pathIndices <
      pathNanos ((slowest dag).nanosOf none) (List.range (n + 1) ++ [n + 1]) := by
  have hne : detour n ≠ [] := by
    rw [← List.length_pos_iff, length_detour]
    omega
  obtain ⟨hdag, hseq, hmem, hsettled, -⟩ := (slowest dag).visitAll_settled hbuild
  obtain ⟨e, he, hlast, -, hpath, -⟩ := (slowest dag).analyze_eq hne hbuild
  replace hdag : dag.tasks = detour n := hdag
  rw [length_detour] at he hpath hmem
  -- every task but the last is an upstream
  have hend : e = n + 1 := by
    by_contra hother
    refine hlast (e + 1) ?_
    rw [upstreamsOf_detour (by omega), if_neg (by omega)]
    by_cases hen : e = n
    · rw [if_pos (by omega), hen]
      exact List.mem_cons_of_mem _ (List.mem_singleton_self n)
    · rw [if_neg (by omega)]
      exact List.mem_singleton_self e
  subst hend
  have hfull : (slowest dag).visitAll.distances (n - 1) = u128Max := by
    have hin : n - 1 ∈ dag.executionLevels.flatten := (hmem _).mpr (by omega)
    have hle := pathNanos_le_distance (fun t ht => hseq.preds_subset ht) hsettled hin
      (detour_chained (Nat.sub_le n 1))
    rw [pathNanos_slowest hdag (by simp; omega), List.length_append, List.length_range,
      List.length_singleton, Nat.sub_add_cancel hn] at hle
    have hcap := (hsettled (n - 1) hin).distance_le
    omega
  have hpred : (slowest dag).visitAll.predecessors (n + 1) = some (n - 1) := by
    have hin : n + 1 ∈ dag.executionLevels.flatten := (hmem _).mpr (by omega)
    have hups : upstreamsOf (detour n) (n + 1) = [n - 1, n] := by
      rw [upstreamsOf_detour (by omega), if_neg (by omega), if_pos rfl]
    rcases hsettled (n + 1) hin with ⟨hnil, -⟩ | ⟨p, before, after, hsplit, hsome, -, hfirst, -⟩
    · rw [hups] at hnil
      cases hnil
    · rw [hups] at hsplit
      cases before with
      | nil =>
        rw [List.nil_append, List.cons.injEq] at hsplit
        rw [hsome, hsplit.1]
      | cons first before =>
        -- a later upstream would have to be farther than the saturated one
        rw [List.cons_append, List.cons.injEq] at hsplit
        have hlt := hfirst first List.mem_cons_self
        have hp : p < n + 2 := by
          have hpmem : p ∈ [n] := by
            rw [hsplit.2]
            exact List.mem_append_right _ List.mem_cons_self
          rw [List.mem_singleton.mp hpmem]
          omega
        have hcap := (hsettled p ((hmem p).mpr hp)).distance_le
        rw [← hsplit.1, hfull] at hlt
        omega
  -- so the path leaves the last but one out
  have hlength : dag.executionLevels.flatten.length ≤ n + 2 := by
    obtain ⟨-, -, hschedule⟩ := build_schedule hbuild
    rw [hschedule.perm.length_eq, List.length_range, length_detour]
  obtain ⟨front, hwalk, hchain, hsubset, -⟩ :=
    walkBack_spec hseq hsettled (n + 1) ((hmem _).mpr (by omega)) (n + 2) hlength
  rw [hwalk] at hpath
  rw [walkBack, hpred, walkBack, List.reverse_cons, List.reverse_cons,
    List.append_left_inj] at hwalk
  rw [hpath]
  have hshort := detour_front_length hn (hwalk ▸ hchain)
  rw [pathNanos_slowest hdag fun t ht => (hmem t).mp (hsubset ht),
    pathNanos_slowest hdag (by simp; omega)]
  refine Nat.mul_lt_mul_of_pos_right ?_ (by decide)
  rw [← hwalk, List.length_append, @List.length_append _ _ [n + 1], List.length_range]
  omega

end Detour

/-- Twenty thousand million steps of the longest duration: the path that is found is shorter than
the line of all steps. -/
theorem saturated_path_is_not_longest :
    ∃ dag, build (detour 20000000000) = some (.ok dag) ∧
      Chained (upstreamsOf (detour 20000000000)) (List.range 20000000001 ++ [20000000001]) ∧
      (∀ t ∈ List.range 20000000001 ++ [20000000001], t < (detour 20000000000).length) ∧
      pathNanos ((slowest dag).nanosOf none) (slowest dag).analyze.pathIndices <
        pathNanos ((slowest dag).nanosOf none) (List.range 20000000001 ++ [20000000001]) := by
  have hpos : 0 < 20000000000 := by omega
  obtain ⟨dag, hbuild⟩ := build_detour hpos
  refine ⟨dag, hbuild, detour_chained_last hpos, ?_, ?_⟩
  · intro t ht
    rw [length_detour]
    rw [List.mem_append, List.mem_range, List.mem_singleton] at ht
    omega
  · exact detour_not_longest hpos (by decide) hbuild

/-- A fetch of two seconds before two loads, one of which is mocked with three. -/
theorem critical_path_of_two_loads :
    let tasks : List DagTask := [.activity "load" [1], .activity "fetch" [], .activity "store" [1]]
    let a : CriticalPathAnalyzer := ⟨⟨tasks, [[1], [0, 2]]⟩,
      ⟨[("store", ⟨3, 0, by decide, by decide⟩)], by decide⟩, ⟨2, 0, by decide, by decide⟩⟩
    build tasks = some (.ok a.dag) ∧ a.analyze.pathIndices = [1, 2] ∧
      a.analyze.totalDuration.asNanos = 5000000000 ∧
      a.analyze.totalDuration.asNanos =
        min (pathNanos (a.nanosOf none) a.analyze.pathIndices) Duration.maxNanos := by
  have hbuild : build [.activity "load" [1], .activity "fetch" [], .activity "store" [1]] =
      some (.ok ⟨[.activity "load" [1], .activity "fetch" [], .activity "store" [1]],
        [[1], [0, 2]]⟩) := rfl
  intro tasks a
  refine ⟨hbuild, by decide +kernel, by decide +kernel, ?_⟩
  exact (analyze_finds_longest_path tasks (List.cons_ne_nil _ _) a hbuild).2.2.2.2.2.2.1

end Harvest.Dag
