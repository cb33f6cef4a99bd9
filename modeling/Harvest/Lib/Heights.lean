import Mathlib.Data.List.Chain
import Mathlib.Data.List.Nodup
import Mathlib.Data.List.Range
import Mathlib.Data.List.Perm.Subperm
import Mathlib.Logic.Relation

/-!
# Heights in a finite graph

A graph is given by the list of direct predecessors of each vertex. The height of a vertex is the
number of edges on the longest chain that ends at it.

Proved here:
* `hasChain_iff`: the test for a chain of `k` edges finds exactly the chains.
* `acyclic_iff`: among `n` vertices, no chain has `n` edges exactly if there is no cycle.
* `exists_height`: a vertex without arbitrarily long chains has a height.
* `exists_height_pred`: below a vertex of height `k + 1` there is one of height `k`.
* `height_lt`: heights are below the number of vertices.
* `Layered.refine`: layers that respect the edges may be cut into smaller ones.
-/

namespace Harvest.Lib

section Heights

variable {ι : Type*} (preds : ι → List ι)

/-- Whether some chain of so many edges ends at a vertex. -/
def hasChain : Nat → ι → Bool
  | 0, _ => true
  | k + 1, t => (preds t).any (hasChain k)

/-- A longest chain that ends at the vertex has so many edges. -/
def heightIs (k : Nat) (t : ι) : Bool := hasChain preds k t && ! hasChain preds (k + 1) t

def Chained (path : List ι) : Prop := path.IsChain fun u t => u ∈ preds t

def Acyclic (inside : ι → Prop) : Prop :=
  ∀ t, inside t → ¬ Relation.TransGen (fun u t => u ∈ preds t) t t

variable {preds}

theorem heightIs_iff {k : Nat} {t : ι} : heightIs preds k t = true ↔
    hasChain preds k t = true ∧ hasChain preds (k + 1) t = false := by
  rw [heightIs, Bool.and_eq_true, Bool.not_eq_true']

theorem hasChain_succ_iff {k : Nat} {t : ι} : hasChain preds (k + 1) t = true ↔
    ∃ u ∈ preds t, hasChain preds k u = true := List.any_eq_true

theorem hasChain_succ_eq_false {k : Nat} {t : ι} : hasChain preds (k + 1) t = false ↔
    ∀ u ∈ preds t, hasChain preds k u = false := by
  rw [hasChain, List.any_eq_false]
  exact forall₂_congr fun u _ => Bool.not_eq_true _ ▸ Iff.rfl

theorem hasChain_of_succ {k : Nat} : ∀ {t : ι}, hasChain preds (k + 1) t = true →
    hasChain preds k t = true := by
  induction k with
  | zero =>
    intro t _
    rfl
  | succ k ih =>
    intro t h
    obtain ⟨u, hu, hchain⟩ := hasChain_succ_iff.mp h
    exact hasChain_succ_iff.mpr ⟨u, hu, ih hchain⟩

theorem hasChain_of_le {j k : Nat} (hle : j ≤ k) {t : ι} (h : hasChain preds k t = true) :
    hasChain preds j t = true := by
  induction hle with
  | refl => exact h
  | step _ ih => exact ih (hasChain_of_succ h)

/-- Longer chains than none are none. -/
theorem hasChain_eq_false_of_le {j k : Nat} (hle : j ≤ k) {t : ι}
    (h : hasChain preds j t = false) : hasChain preds k t = false := by
  by_contra hchain
  rw [hasChain_of_le hle (Bool.not_eq_false _ |>.mp hchain)] at h
  cases h

theorem chained_concat_concat {front : List ι} {u t : ι} :
    Chained preds (front ++ [u] ++ [t]) ↔ Chained preds (front ++ [u]) ∧ u ∈ preds t := by
  rw [Chained, List.isChain_append]
  simp [Chained]

/-- **The test finds the chains.** -/
theorem hasChain_iff {k : Nat} : ∀ {t : ι}, hasChain preds k t = true ↔
    ∃ front : List ι, Chained preds (front ++ [t]) ∧ front.length = k := by
  induction k with
  | zero =>
    intro t
    refine ⟨fun _ => ⟨[], List.IsChain.singleton t, rfl⟩, fun _ => rfl⟩
  | succ k ih =>
    intro t
    rw [hasChain_succ_iff]
    constructor
    · rintro ⟨u, hu, hchain⟩
      obtain ⟨front, hfront, rfl⟩ := ih.mp hchain
      refine ⟨front ++ [u], chained_concat_concat.mpr ⟨hfront, hu⟩, ?_⟩
      rw [List.length_append, List.length_singleton]
    · rintro ⟨front, hfront, hlength⟩
      obtain ⟨before, u, rfl⟩ : ∃ before u, front = before ++ [u] :=
        (List.eq_nil_or_concat' front).resolve_left (by rintro rfl; cases hlength)
      rw [chained_concat_concat] at hfront
      refine ⟨u, hfront.2, ih.mpr ⟨before, hfront.1, ?_⟩⟩
      simpa using hlength

/-- **A height is the number of edges of a longest chain.** -/
theorem heightIs_iff_chains {k : Nat} {t : ι} : heightIs preds k t = true ↔
    (∃ front : List ι, Chained preds (front ++ [t]) ∧ front.length = k) ∧
      ∀ front : List ι, Chained preds (front ++ [t]) → front.length ≤ k := by
  rw [heightIs_iff, hasChain_iff]
  refine and_congr_right fun _ => ?_
  constructor
  · intro hnone front hfront
    by_contra hlong
    have hchain : hasChain preds front.length t = true := hasChain_iff.mpr ⟨front, hfront, rfl⟩
    rw [hasChain_of_le (Nat.succ_le_of_lt (Nat.lt_of_not_le hlong)) hchain] at hnone
    cases hnone
  · intro hbound
    by_contra hchain
    obtain ⟨front, hfront, hlength⟩ := hasChain_iff.mp (Bool.not_eq_false _ |>.mp hchain)
    have hle := hbound front hfront
    omega

theorem exists_height {m : Nat} {t : ι} (h : hasChain preds m t = false) :
    ∃ k < m, heightIs preds k t = true := by
  induction m with
  | zero => cases h
  | succ m ih =>
    cases hchain : hasChain preds m t with
    | true => exact ⟨m, Nat.lt_succ_self m, heightIs_iff.mpr ⟨hchain, h⟩⟩
    | false =>
      obtain ⟨k, hk, hheight⟩ := ih hchain
      exact ⟨k, Nat.lt_succ_of_lt hk, hheight⟩

theorem heightIs_inj {j k : Nat} {t : ι} (hj : heightIs preds j t = true)
    (hk : heightIs preds k t = true) : j = k := by
  rw [heightIs_iff] at hj hk
  rcases Nat.lt_trichotomy j k with hlt | heq | hlt
  · rw [hasChain_of_le hlt hk.1] at hj
    cases hj.2
  · exact heq
  · rw [hasChain_of_le hlt hj.1] at hk
    cases hk.2

/-- A predecessor is lower. -/
theorem heightIs_pred {k : Nat} {u t : ι} (h : heightIs preds k t = true) (hu : u ∈ preds t) :
    ∃ j < k, heightIs preds j u = true :=
  exists_height (hasChain_succ_eq_false.mp (heightIs_iff.mp h).2 u hu)

theorem exists_height_pred {k : Nat} {t : ι} (h : heightIs preds (k + 1) t = true) :
    ∃ u ∈ preds t, heightIs preds k u = true := by
  obtain ⟨hchain, hnone⟩ := heightIs_iff.mp h
  obtain ⟨u, hu, hchain⟩ := hasChain_succ_iff.mp hchain
  exact ⟨u, hu, heightIs_iff.mpr ⟨hchain, hasChain_succ_eq_false.mp hnone u hu⟩⟩

/-! ## Cycles -/

theorem hasChain_of_transGen {k : Nat} {u t : ι}
    (h : Relation.TransGen (fun u t => u ∈ preds t) u t) (hu : hasChain preds k u = true) :
    hasChain preds (k + 1) t = true := by
  induction h with
  | single hedge => exact hasChain_succ_iff.mpr ⟨u, hedge, hu⟩
  | tail _ hedge ih => exact hasChain_of_succ (hasChain_succ_iff.mpr ⟨_, hedge, ih⟩)

theorem hasChain_of_cycle {t : ι} (h : Relation.TransGen (fun u t => u ∈ preds t) t t) (k : Nat) :
    hasChain preds k t = true := by
  induction k with
  | zero => rfl
  | succ k ih => exact hasChain_of_transGen h ih

section Finite

variable {vertices : List ι} (hclosed : ∀ t ∈ vertices, ∀ u ∈ preds t, u ∈ vertices)

include hclosed

theorem chained_subset {front : List ι} : ∀ {t : ι}, Chained preds (front ++ [t]) →
    t ∈ vertices → front ++ [t] ⊆ vertices := by
  induction front using List.reverseRecOn with
  | nil =>
    intro t _ ht s hs
    rwa [List.mem_singleton.mp hs]
  | append_singleton front u ih =>
    intro t hchain ht s hs
    rw [chained_concat_concat] at hchain
    rcases List.mem_append.mp hs with hs | hs
    · exact ih hchain.1 (hclosed t ht u hchain.2) hs
    · rwa [List.mem_singleton.mp hs]

/-- A chain without a cycle through its vertices meets each vertex once. -/
theorem chained_length_le (hacyclic : Acyclic preds (· ∈ vertices)) {front : List ι} {t : ι}
    (hchain : Chained preds (front ++ [t])) (ht : t ∈ vertices) :
    front.length < vertices.length := by
  have hsubset := chained_subset hclosed hchain ht
  have hpairwise := (hchain.imp fun u s hedge => Relation.TransGen.single hedge).pairwise
  have hnodup : (front ++ [t]).Nodup := by
    refine hpairwise.imp_of_mem ?_
    rintro u s hu - hreach rfl
    exact hacyclic u (hsubset hu) hreach
  have hlength := (hnodup.subperm hsubset).length_le
  rw [List.length_append, List.length_singleton] at hlength
  exact hlength

/-- **No chain is as long as the vertices are many, exactly if there is no cycle.** -/
theorem acyclic_iff : Acyclic preds (· ∈ vertices) ↔
    ∀ t ∈ vertices, hasChain preds vertices.length t = false := by
  constructor
  · intro hacyclic t ht
    by_contra hchain
    obtain ⟨front, hfront, hlength⟩ := hasChain_iff.mp (Bool.not_eq_false _ |>.mp hchain)
    have hlt := chained_length_le hclosed hacyclic hfront ht
    omega
  · intro hnone t ht hcycle
    have hchain := hasChain_of_cycle hcycle vertices.length
    rw [hnone t ht] at hchain
    cases hchain

/-- Below a vertex of some height there is one of each lower height. -/
theorem exists_descent {k : Nat} : ∀ {t : ι}, t ∈ vertices → heightIs preds k t = true →
    ∃ below : List ι, below.length = k + 1 ∧ below.Nodup ∧ below ⊆ vertices ∧
      ∀ s ∈ below, ∃ j ≤ k, heightIs preds j s = true := by
  induction k with
  | zero =>
    intro t ht hheight
    refine ⟨[t], rfl, List.nodup_singleton t, by simpa using ht, ?_⟩
    intro s hs
    rw [List.mem_singleton.mp hs]
    exact ⟨0, Nat.le_refl 0, hheight⟩
  | succ k ih =>
    intro t ht hheight
    obtain ⟨u, hu, hlower⟩ := exists_height_pred hheight
    obtain ⟨below, hlength, hnodup, hsubset, hheights⟩ := ih (hclosed t ht u hu) hlower
    refine ⟨t :: below, ?_, ?_, ?_, ?_⟩
    · rw [List.length_cons, hlength]
    · refine List.nodup_cons.mpr ⟨fun hmem => ?_, hnodup⟩
      obtain ⟨j, hj, hsame⟩ := hheights t hmem
      have heq := heightIs_inj hheight hsame
      omega
    · exact List.cons_subset.mpr ⟨ht, hsubset⟩
    · intro s hs
      rcases List.mem_cons.mp hs with rfl | hs
      · exact ⟨k + 1, Nat.le_refl _, hheight⟩
      · obtain ⟨j, hj, hsame⟩ := hheights s hs
        exact ⟨j, Nat.le_succ_of_le hj, hsame⟩

/-- There is a vertex of each height up to that of another. -/
theorem exists_height_of_le {j k : Nat} (hle : j ≤ k) : ∀ {t : ι}, t ∈ vertices →
    heightIs preds k t = true → ∃ s ∈ vertices, heightIs preds j s = true := by
  induction hle with
  | refl =>
    intro t ht hheight
    exact ⟨t, ht, hheight⟩
  | step _ ih =>
    intro t ht hheight
    obtain ⟨u, hu, hlower⟩ := exists_height_pred hheight
    exact ih (hclosed t ht u hu) hlower

theorem height_lt {k : Nat} {t : ι} (ht : t ∈ vertices) (h : heightIs preds k t = true) :
    k < vertices.length := by
  obtain ⟨below, hlength, hnodup, hsubset, -⟩ := exists_descent hclosed ht h
  have hle := (hnodup.subperm hsubset).length_le
  omega

end Finite

/-! ## Layers -/

/-- Every vertex of a layer has its predecessors among `seen` and the layers before. -/
def Layered (preds : ι → List ι) (seen : List ι) : List (List ι) → Prop
  | [] => True
  | layer :: layers =>
    (∀ t ∈ layer, preds t ⊆ seen) ∧ Layered preds (seen ++ layer) layers

theorem Layered.mono {layers : List (List ι)} : ∀ {seen seen' : List ι}, seen ⊆ seen' →
    Layered preds seen layers → Layered preds seen' layers := by
  induction layers with
  | nil =>
    intro seen seen' _ _
    trivial
  | cons layer layers ih =>
    intro seen seen' hsub h
    refine ⟨fun t ht => List.Subset.trans (h.1 t ht) hsub, ih ?_ h.2⟩
    exact List.append_subset.mpr ⟨List.Subset.trans hsub (List.subset_append_left _ _),
      List.subset_append_right _ _⟩

theorem layered_append {xs ys : List (List ι)} : ∀ {seen : List ι},
    Layered preds seen (xs ++ ys) ↔
      Layered preds seen xs ∧ Layered preds (seen ++ xs.flatten) ys := by
  induction xs with
  | nil =>
    intro seen
    simp [Layered]
  | cons layer xs ih =>
    intro seen
    rw [List.cons_append, Layered, Layered, ih, List.flatten_cons, List.append_assoc, and_assoc]

theorem Layered.before {before after : List (List ι)} {layer : List ι} {t : ι}
    (h : Layered preds [] (before ++ layer :: after)) (ht : t ∈ layer) :
    preds t ⊆ before.flatten := by
  have hlayer := (layered_append.mp h).2.1 t ht
  rwa [List.nil_append] at hlayer

/-- Layers may be cut into smaller ones. -/
theorem Layered.refine {cut : List ι → List (List ι)}
    (hcut : ∀ layer, (cut layer).flatten.Perm layer) {layers : List (List ι)} :
    ∀ {seen : List ι}, Layered preds seen layers → Layered preds seen (layers.flatMap cut) := by
  have hpieces : ∀ (pieces : List (List ι)) (seen : List ι),
      (∀ t ∈ pieces.flatten, preds t ⊆ seen) → Layered preds seen pieces := by
    intro pieces
    induction pieces with
    | nil =>
      intro seen _
      trivial
    | cons piece pieces ih =>
      intro seen h
      refine ⟨fun t ht => h t (List.mem_append_left _ ht), ih _ fun t ht => ?_⟩
      exact List.Subset.trans (h t (List.mem_append_right _ ht)) (List.subset_append_left _ _)
  induction layers with
  | nil =>
    intro seen _
    trivial
  | cons layer layers ih =>
    intro seen h
    rw [List.flatMap_cons, layered_append]
    refine ⟨hpieces _ _ fun t ht => h.1 t ((hcut layer).subset ht), ih (h.2.mono ?_)⟩
    exact List.append_subset.mpr ⟨List.subset_append_left _ _,
      List.Subset.trans (hcut layer).symm.subset (List.subset_append_right _ _)⟩

/-- In the order of the layers every vertex stands after its predecessors. -/
theorem Layered.sequenced {layers : List (List ι)} : ∀ {seen before after : List ι} {t : ι},
    Layered preds seen layers → layers.flatten = before ++ t :: after →
      preds t ⊆ seen ++ before := by
  induction layers with
  | nil =>
    intro seen before after t _ heq
    have hnil := congrArg List.length heq
    rw [List.length_append, List.length_cons] at hnil
    simp at hnil
  | cons layer layers ih =>
    intro seen before after t h heq
    rw [List.flatten_cons, List.append_eq_append_iff] at heq
    rcases heq with ⟨rest, rfl, hrest⟩ | ⟨rest, hlayer, hrest⟩
    · have hsub := ih h.2 hrest
      rwa [List.append_assoc] at hsub
    · cases rest with
      | nil =>
        -- the vertex is the first after the layer
        rw [List.append_nil] at hlayer
        have hsub := @ih (seen ++ layer) [] after t h.2 hrest.symm
        rwa [List.append_nil, hlayer] at hsub
      | cons first rest =>
        rw [List.cons_append, List.cons.injEq] at hrest
        have ht : t ∈ layer := by
          rw [hlayer, hrest.1]
          exact List.mem_append_right _ List.mem_cons_self
        exact List.Subset.trans (h.1 t ht) (List.subset_append_left _ _)

/-- An order without repeats in which every vertex stands after its predecessors. -/
structure Sequenced (preds : ι → List ι) (order : List ι) : Prop where
  nodup : order.Nodup
  after_preds : ∀ before t after, order = before ++ t :: after → preds t ⊆ before

theorem Sequenced.front {order : List ι} {t : ι} (h : Sequenced preds (order ++ [t])) :
    Sequenced preds order ∧ preds t ⊆ order ∧ t ∉ order := by
  have hnodup := List.nodup_append.mp h.nodup
  refine ⟨⟨hnodup.1, ?_⟩, h.after_preds order t [] rfl, ?_⟩
  · intro before s after heq
    refine h.after_preds before s (after ++ [t]) ?_
    rw [heq, List.append_assoc, List.cons_append]
  · intro hmem
    exact hnodup.2.2 t hmem t (List.mem_singleton_self t) rfl

/-- Every predecessor of a vertex of the order is in it. -/
theorem Sequenced.preds_subset {order : List ι} (h : Sequenced preds order) {t : ι}
    (ht : t ∈ order) : preds t ⊆ order := by
  obtain ⟨before, after, heq⟩ := List.append_of_mem ht
  rw [heq]
  exact List.Subset.trans (h.after_preds before t after heq) (List.subset_append_left _ _)

/-- What a vertex can be reached from stands before it. -/
theorem Sequenced.before_of_transGen {order before after : List ι} {s t : ι}
    (h : Sequenced preds order) (hsplit : order = before ++ t :: after)
    (hreach : Relation.TransGen (fun u t => u ∈ preds t) s t) : s ∈ before := by
  induction hreach using Relation.TransGen.head_induction_on with
  | single hedge => exact h.after_preds before t after hsplit hedge
  | head hedge _ ih =>
    obtain ⟨first, second, rfl⟩ := List.append_of_mem ih
    refine List.mem_append_left _ (h.after_preds first _ (second ++ t :: after) ?_ hedge)
    rw [hsplit, List.append_assoc, List.cons_append]

end Heights

end Harvest.Lib
