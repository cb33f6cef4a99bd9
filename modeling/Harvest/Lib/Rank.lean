import Mathlib.Data.List.Basic
import Mathlib.Data.List.GetD
import Mathlib.Data.List.Nodup
import Mathlib.Order.Lattice

/-!
# Ranks

A table of ranks is filled by walking an order of the indices and writing to each index its place
in that order. When the order is sorted by a key, the rank is the number of smaller keys.

Proved here:
* `ranks_eq`: the table holds the places.
* `ranks_perm`: the places are all used, each once.
* `ranks_sortedIndices`: in a sorted order a place is the number of smaller keys.
* `countP_lt_iff`: and so the ranks are in the order of the keys.
-/

namespace Harvest.Lib

/-- Writes to each index of the table its place in the order. -/
def ranks (order table : List ℕ) : List ℕ :=
  order.zipIdx.foldl (fun table entry => table.set entry.1 entry.2) table

section Table

variable {order : List ℕ}

/-- The walk from the place `start` on. -/
theorem getElem?_foldl_set (hnodup : order.Nodup) (start i : ℕ) (table : List ℕ)
    (hi : i < table.length) :
    ((order.zipIdx start).foldl (fun table entry => table.set entry.1 entry.2) table)[i]? =
      if i ∈ order then some (start + order.idxOf i) else table[i]? := by
  induction order generalizing start table with
  | nil => simp
  | cons first order ih =>
    obtain ⟨hfirst, hnodup⟩ := List.nodup_cons.mp hnodup
    rw [List.zipIdx_cons, List.foldl_cons, ih hnodup _ _ (by simpa using hi)]
    by_cases hsame : first = i
    · subst hsame
      rw [if_neg hfirst, if_pos List.mem_cons_self, List.getElem?_set_self hi,
        List.idxOf_cons_self, Nat.add_zero]
    · rw [List.getElem?_set_ne hsame, List.idxOf_cons_ne _ hsame]
      have hmem : i ∈ first :: order ↔ i ∈ order := by
        simp [Ne.symm hsame]
      simp only [hmem, Nat.add_assoc, Nat.add_comm 1]

theorem ranks_eq {n : ℕ} (horder : order.Perm (List.range n)) :
    ranks order (List.replicate n 0) = (List.range n).map order.idxOf := by
  have hnodup : order.Nodup := horder.nodup_iff.mpr List.nodup_range
  have hlength : ∀ (entries : List (ℕ × ℕ)) (table : List ℕ),
      (entries.foldl (fun table entry => table.set entry.1 entry.2) table).length =
        table.length := by
    intro entries
    induction entries with
    | nil => exact fun table => rfl
    | cons entry entries ih => exact fun table => (ih _).trans (List.length_set ..)
  refine List.ext_getElem? fun i => ?_
  by_cases hi : i < n
  · have hmem : i ∈ order := horder.mem_iff.mpr (List.mem_range.mpr hi)
    rw [ranks, getElem?_foldl_set hnodup 0 i _ (by simpa using hi), if_pos hmem, Nat.zero_add,
      List.getElem?_map, List.getElem?_range hi, Option.map_some]
  · rw [List.getElem?_eq_none (by rw [ranks, hlength]; simpa using hi),
      List.getElem?_eq_none (by simpa using hi)]

/-- The places of the entries of an order, in that order. -/
theorem map_idxOf_self {α : Type*} [DecidableEq α] : ∀ {xs : List α}, xs.Nodup →
    xs.map xs.idxOf = List.range xs.length := by
  intro xs hnodup
  refine List.ext_getElem (by simp) fun i hi _ => ?_
  rw [List.getElem_map, List.getElem_range]
  exact hnodup.idxOf_getElem i (by simpa using hi)

theorem ranks_perm {n : ℕ} (horder : order.Perm (List.range n)) :
    (ranks order (List.replicate n 0)).Perm (List.range n) := by
  have hnodup : order.Nodup := horder.nodup_iff.mpr List.nodup_range
  have hlength : order.length = n := by rw [horder.length_eq, List.length_range]
  have hplaces : order.map order.idxOf = List.range n := by
    rw [map_idxOf_self hnodup, hlength]
  rw [ranks_eq horder]
  exact (horder.map order.idxOf).symm.trans (List.Perm.of_eq hplaces)

end Table

/-- In an order sorted by a key that tells its entries apart, a place is the number of entries with
a smaller key. -/
theorem idxOf_eq_countP {α β : Type*} [DecidableEq α] [LinearOrder β] {key : α → β} {x : α} :
    ∀ {xs : List α}, xs.Pairwise (fun a b => key a < key b) → x ∈ xs →
      xs.idxOf x = xs.countP (fun a => key a < key x) := by
  intro xs hsorted hx
  induction xs with
  | nil => exact absurd hx List.not_mem_nil
  | cons first xs ih =>
    obtain ⟨hfirst, hsorted⟩ := List.pairwise_cons.mp hsorted
    by_cases hsame : first = x
    · subst hsame
      have hnone : (first :: xs).countP (fun a => key a < key first) = 0 := by
        refine List.countP_eq_zero.mpr fun a ha => ?_
        rcases List.mem_cons.mp ha with rfl | ha
        · simp
        · simpa using (hfirst a ha).le
      rw [List.idxOf_cons_self, hnone]
    · have hrest : x ∈ xs := (List.mem_cons.mp hx).resolve_left (Ne.symm hsame)
      rw [List.idxOf_cons_ne _ hsame, List.countP_cons_of_pos (by simpa using hfirst x hrest),
        ih hsorted hrest]

/-- More keys are smaller than a larger key. -/
theorem countP_lt_iff {α β : Type*} [LinearOrder β] {key : α → β} {xs : List α} {x : α}
    (hx : x ∈ xs) (y : α) :
    xs.countP (fun a => key a < key x) < xs.countP (fun a => key a < key y) ↔ key x < key y := by
  constructor
  · intro hcount
    by_contra hle
    refine absurd hcount (Nat.not_lt.mpr (List.countP_mono_left fun a _ ha => ?_))
    exact decide_eq_true ((of_decide_eq_true ha).trans_le (le_of_not_gt hle))
  · intro hlt
    -- Counting `x` itself makes the difference, wherever it stands.
    obtain ⟨before, after, rfl⟩ := List.append_of_mem hx
    have hmono : ∀ ys : List α, ys.countP (fun a => key a < key x) ≤
        ys.countP (fun a => key a < key y) := fun ys =>
      List.countP_mono_left fun a _ ha =>
        decide_eq_true ((of_decide_eq_true ha).trans hlt)
    have hbefore := hmono before
    have hafter := hmono after
    rw [List.countP_append, List.countP_append, List.countP_cons_of_neg (by simp),
      List.countP_cons_of_pos (by simpa using hlt)]
    omega

section Sorted

variable {β : Type*} [LinearOrder β] (keys : List β) (missing : β)

/-- The indices of the keys, sorted by their keys. -/
def sortedIndices : List ℕ :=
  (List.range keys.length).mergeSort fun a b => decide (keys.getD a missing ≤ keys.getD b missing)

theorem sortedIndices_perm : (sortedIndices keys missing).Perm (List.range keys.length) :=
  List.mergeSort_perm _ _

/-- Different keys are sorted strictly. -/
theorem sortedIndices_pairwise (hnodup : keys.Nodup) :
    (sortedIndices keys missing).Pairwise
      fun a b => keys.getD a missing < keys.getD b missing := by
  have hsorted : (sortedIndices keys missing).Pairwise
      fun a b => decide (keys.getD a missing ≤ keys.getD b missing) = true := by
    refine List.pairwise_mergeSort ?_ ?_ _
    · intro a b c hab hbc
      exact decide_eq_true ((of_decide_eq_true hab).trans (of_decide_eq_true hbc))
    · intro a b
      simpa using le_total (keys.getD a missing) (keys.getD b missing)
  have hindices : (sortedIndices keys missing).Nodup :=
    (sortedIndices_perm keys missing).nodup_iff.mpr List.nodup_range
  have hbound : ∀ i ∈ sortedIndices keys missing, i < keys.length := fun i hi =>
    List.mem_range.mp ((sortedIndices_perm keys missing).mem_iff.mp hi)
  refine (hsorted.and hindices).imp_of_mem fun {a b} ha hb hab => ?_
  refine lt_of_le_of_ne (of_decide_eq_true hab.1) fun hsame => hab.2 ?_
  rw [List.getD_eq_getElem _ _ (hbound a ha), List.getD_eq_getElem _ _ (hbound b hb)] at hsame
  exact (hnodup.getElem_inj_iff).mp hsame

/-- The rank of a key is the number of smaller keys. -/
theorem ranks_sortedIndices (hnodup : keys.Nodup) :
    ranks (sortedIndices keys missing) (List.replicate keys.length 0) =
      keys.map fun key => keys.countP (fun other => other < key) := by
  rw [ranks_eq (sortedIndices_perm keys missing)]
  refine List.ext_getElem (by simp) fun i hi _ => ?_
  have hlt : i < keys.length := by simpa using hi
  have hmem : i ∈ sortedIndices keys missing :=
    (sortedIndices_perm keys missing).mem_iff.mpr (List.mem_range.mpr hlt)
  have hkeys : (List.range keys.length).map (fun j => keys.getD j missing) = keys := by
    refine List.ext_getElem (by simp) fun j hj _ => ?_
    rw [List.getElem_map, List.getElem_range, List.getD_eq_getElem]
  have hcount : ∀ key, keys.countP (fun other => other < key) =
      (List.range keys.length).countP fun j => keys.getD j missing < key := by
    intro key
    conv_lhs => rw [← hkeys, List.countP_map]
    rfl
  rw [List.getElem_map, List.getElem_map, List.getElem_range,
    idxOf_eq_countP (sortedIndices_pairwise keys missing hnodup) hmem,
    (sortedIndices_perm keys missing).countP_eq, List.getD_eq_getElem _ _ hlt, hcount]

end Sorted

end Harvest.Lib
