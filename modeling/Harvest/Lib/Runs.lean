import Mathlib.Data.List.Basic

/-!
# Runs in a list

The last position with a property, and the run of positions around a given one.

Proved here:
* `lastIdx?_eq_some`, `lastIdx?_eq_none`: what the last position is.
* `runAround_spec`: every position of the run has the property.
-/

namespace Harvest.Lib

variable {α : Type}

/-- The last position with the property. -/
def lastIdx? (p : α → Bool) : List α → Option ℕ
  | [] => none
  | x :: xs =>
    match lastIdx? p xs with
    | some i => some (i + 1)
    | none => if p x then some 0 else none

theorem lastIdx?_eq_none {p : α → Bool} {xs : List α} (h : lastIdx? p xs = none) :
    ∀ x ∈ xs, p x = false := by
  induction xs with
  | nil => exact fun _ hx => absurd hx List.not_mem_nil
  | cons x xs ih =>
    unfold lastIdx? at h
    split at h
    case h_1 => cases h
    case h_2 hrest =>
      split at h
      case isTrue => cases h
      case isFalse hx => exact List.forall_mem_cons.mpr ⟨by simpa using hx, ih hrest⟩

theorem lastIdx?_eq_some {p : α → Bool} {xs : List α} {i : ℕ} (h : lastIdx? p xs = some i) :
    (∃ x, xs[i]? = some x ∧ p x = true) ∧ ∀ j y, i < j → xs[j]? = some y → p y = false := by
  induction xs generalizing i with
  | nil => cases h
  | cons x xs ih =>
    unfold lastIdx? at h
    split at h
    case h_1 k hrest =>
      obtain rfl : k + 1 = i := Option.some.inj h
      obtain ⟨hfound, hafter⟩ := ih hrest
      refine ⟨by simpa using hfound, fun j y hj hy => ?_⟩
      obtain ⟨j, rfl⟩ : ∃ k, j = k + 1 := ⟨j - 1, by omega⟩
      exact hafter j y (by omega) (by simpa using hy)
    case h_2 hrest =>
      split at h
      case isFalse => cases h
      case isTrue hx =>
        obtain rfl : 0 = i := Option.some.inj h
        refine ⟨⟨x, rfl, hx⟩, fun j y hj hy => ?_⟩
        obtain ⟨j, rfl⟩ : ∃ k, j = k + 1 := ⟨j - 1, by omega⟩
        exact lastIdx?_eq_none hrest y (List.mem_of_getElem? (by simpa using hy))

/-- First and past-the-end position of the run with the property around an index. -/
def runAround (p : α → Bool) (xs : List α) (index : ℕ) : ℕ × ℕ :=
  (match lastIdx? (fun x => !p x) (xs.take index) with
    | none => 0
    | some before => before + 1,
   match (xs.drop index).findIdx? fun x => !p x with
    | none => xs.length
    | some after => index + after)

theorem runAround_start_le {p : α → Bool} {xs : List α} {index : ℕ} :
    (runAround p xs index).1 ≤ index := by
  unfold runAround
  dsimp only
  split
  case h_1 => exact Nat.zero_le _
  case h_2 before hbefore =>
    obtain ⟨⟨x, hx, -⟩, -⟩ := lastIdx?_eq_some hbefore
    have hlt := (List.getElem?_eq_some_iff.mp hx).1
    rw [List.length_take] at hlt
    omega

theorem lt_runAround_end {p : α → Bool} {xs : List α} {index : ℕ} {x : α}
    (hindex : xs[index]? = some x) (hx : p x = true) : index < (runAround p xs index).2 := by
  have hlt := (List.getElem?_eq_some_iff.mp hindex).1
  unfold runAround
  dsimp only
  split
  case h_1 => exact hlt
  case h_2 after hafter =>
    obtain ⟨hlen, hfound, -⟩ := List.findIdx?_eq_some_iff_getElem.mp hafter
    rcases Nat.eq_zero_or_pos after with rfl | hpos
    · rw [List.getElem?_eq_getElem hlt] at hindex
      rw [List.getElem_drop] at hfound
      simp [Option.some.inj hindex, hx] at hfound
    · omega

/-- Every position of the run has the property. -/
theorem runAround_spec {p : α → Bool} {xs : List α} {index k : ℕ} (hindex : index < xs.length)
    (hstart : (runAround p xs index).1 ≤ k) (hend : k < (runAround p xs index).2) :
    ∃ x, xs[k]? = some x ∧ p x = true := by
  unfold runAround at hstart hend
  dsimp only at hstart hend
  by_cases hk : k < index
  · have hget : xs[k]? = some xs[k] := List.getElem?_eq_getElem (by omega)
    have htake : (xs.take index)[k]? = some xs[k] := by rw [List.getElem?_take_of_lt hk, hget]
    refine ⟨xs[k], hget, ?_⟩
    cases hlast : lastIdx? (fun x => !p x) (xs.take index) with
    | none => simpa using lastIdx?_eq_none hlast _ (List.mem_of_getElem? htake)
    | some before =>
      rw [hlast] at hstart
      dsimp only at hstart
      simpa using (lastIdx?_eq_some hlast).2 k _ (by omega) htake
  · cases hfirst : (xs.drop index).findIdx? fun x => !p x with
    | none =>
      rw [hfirst] at hend
      have hget : xs[k]? = some xs[k] := List.getElem?_eq_getElem hend
      have hdrop : xs[k] ∈ xs.drop index := by
        refine List.mem_of_getElem? (i := k - index) ?_
        rw [List.getElem?_drop, Nat.add_sub_cancel' (by omega), hget]
      exact ⟨xs[k], hget, by simpa using List.findIdx?_eq_none_iff.mp hfirst _ hdrop⟩
    | some after =>
      rw [hfirst] at hend
      dsimp only at hend
      obtain ⟨hafter, -, hbefore⟩ := List.findIdx?_eq_some_iff_getElem.mp hfirst
      rw [List.length_drop] at hafter
      have hget : xs[k]? = some xs[k] := List.getElem?_eq_getElem (by omega)
      have hp := hbefore (k - index) (by omega)
      rw [List.getElem_drop] at hp
      simp only [Nat.add_sub_cancel' (Nat.not_lt.mp hk)] at hp
      exact ⟨xs[k], hget, by simpa using hp⟩

end Harvest.Lib
