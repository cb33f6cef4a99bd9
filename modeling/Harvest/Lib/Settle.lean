import Mathlib.Data.List.Basic

/-!
# Settling work items by key

Work items are settled one after the other. Items of different keys do not touch the same part of
the state, so they can be settled in any order; an item that is settled stays settled, and settling
it again does nothing.

Proved here:
* `foldl_pull`: the items of one key may be settled first.
* `foldl_settled`: after a pass every item of it is settled.
* `foldl_by_keys`: a pass over all items is the passes over the keys that are not settled yet.
-/

namespace Harvest.Lib

/-- How items are settled in the states of an invariant. -/
structure Settling {σ ι κ : Type*} (act : σ → ι → σ) (key : ι → κ) (Inv : σ → Prop)
    (Settled : σ → ι → Prop) : Prop where
  inv : ∀ s i, Inv s → Inv (act s i)
  comm : ∀ s i j, Inv s → key i ≠ key j → act (act s i) j = act (act s j) i
  idle : ∀ s i, Inv s → Settled s i → act s i = s
  stays : ∀ s i j, Inv s → Settled s i → Settled (act s j) i
  settles : ∀ s i, Inv s → Settled (act s i) i

namespace Settling

variable {σ ι κ : Type*} {act : σ → ι → σ} {key : ι → κ} {Inv : σ → Prop}
  {Settled : σ → ι → Prop} {s : σ}

theorem foldl_inv (h : Settling act key Inv Settled) (l : List ι) (hs : Inv s) :
    Inv (l.foldl act s) := by
  induction l generalizing s with
  | nil => exact hs
  | cons i l ih => exact ih (h.inv s i hs)

theorem foldl_stays (h : Settling act key Inv Settled) (l : List ι) (hs : Inv s) {i : ι}
    (hi : Settled s i) : Settled (l.foldl act s) i := by
  induction l generalizing s with
  | nil => exact hi
  | cons j l ih => exact ih (h.inv s j hs) (h.stays s i j hs hi)

theorem foldl_settled (h : Settling act key Inv Settled) (l : List ι) (hs : Inv s) :
    ∀ i ∈ l, Settled (l.foldl act s) i := by
  induction l generalizing s with
  | nil => exact nofun
  | cons j l ih =>
    intro i hi
    rcases List.mem_cons.mp hi with rfl | hi
    · exact h.foldl_stays l (h.inv s i hs) (h.settles s i hs)
    · exact ih (h.inv s j hs) i hi

/-- A pass over settled items does nothing. -/
theorem foldl_idle (h : Settling act key Inv Settled) {l : List ι} (hs : Inv s)
    (hl : ∀ i ∈ l, Settled s i) : l.foldl act s = s := by
  induction l with
  | nil => rfl
  | cons i l ih =>
    rw [List.foldl_cons, h.idle s i hs (hl i List.mem_cons_self)]
    exact ih fun j hj => hl j (List.mem_cons_of_mem i hj)

/-- An item may be settled after the items of other keys. -/
theorem foldl_swap (h : Settling act key Inv Settled) {l : List ι} {i : ι} (hs : Inv s)
    (hl : ∀ j ∈ l, key j ≠ key i) : l.foldl act (act s i) = act (l.foldl act s) i := by
  induction l generalizing s with
  | nil => rfl
  | cons j l ih =>
    rw [List.foldl_cons, List.foldl_cons, h.comm s i j hs (hl j List.mem_cons_self).symm]
    exact ih (h.inv s j hs) fun k hk => hl k (List.mem_cons_of_mem j hk)

variable [DecidableEq κ]

/-- **The items of one key may be settled first.** -/
theorem foldl_pull (h : Settling act key Inv Settled) (k : κ) (l : List ι) (hs : Inv s) :
    l.foldl act s =
      (l.filter fun i => key i ≠ k).foldl act ((l.filter fun i => key i = k).foldl act s) := by
  induction l generalizing s with
  | nil => rfl
  | cons i l ih =>
    by_cases hk : key i = k
    · simpa [hk] using ih (h.inv s i hs)
    · have hrest := ih (h.inv s i hs)
      have hswap : (l.filter fun j => key j = k).foldl act (act s i) =
          act ((l.filter fun j => key j = k).foldl act s) i := by
        refine h.foldl_swap hs fun j hj heq => hk ?_
        rw [← heq]
        exact of_decide_eq_true (List.mem_filter.mp hj).2
      rw [hswap] at hrest
      simpa [hk] using hrest

/-- **A pass over all items is passes over the keys that are left.** A key may be listed twice. -/
theorem foldl_by_keys (h : Settling act key Inv Settled) (l : List ι) (keys : List κ)
    (hs : Inv s) (hrest : ∀ i ∈ l, key i ∉ keys → Settled s i) :
    l.foldl act s = keys.foldl (fun s k => (l.filter fun i => key i = k).foldl act s) s := by
  induction keys generalizing s with
  | nil => exact h.foldl_idle hs fun i hi => hrest i hi List.not_mem_nil
  | cons k keys ih =>
    -- the pass over the key `k` changes nothing in what the whole pass leaves
    have hinv := h.foldl_inv (l.filter fun i => key i = k) hs
    have hsame : l.foldl act s = l.foldl act ((l.filter fun i => key i = k).foldl act s) := by
      have hagain : (l.filter fun i => key i = k).foldl act
          ((l.filter fun i => key i = k).foldl act s) =
            (l.filter fun i => key i = k).foldl act s :=
        h.foldl_idle hinv (h.foldl_settled _ hs)
      rw [h.foldl_pull k l hs, h.foldl_pull k l hinv, hagain]
    rw [hsame, List.foldl_cons]
    refine ih hinv fun i hi hkey => ?_
    by_cases hk : key i = k
    · exact h.foldl_settled _ hs i (List.mem_filter.mpr ⟨hi, decide_eq_true hk⟩)
    · refine h.foldl_stays _ hs (hrest i hi fun hmem => ?_)
      exact (List.mem_cons.mp hmem).elim hk hkey

end Settling

end Harvest.Lib
