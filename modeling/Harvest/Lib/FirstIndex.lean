import Mathlib.Data.List.Basic

/-!
# An index of first positions

A map from keys to positions of a list, filled from the front: a key that has a position keeps it.

Proved here:
* `fill_eq`: what a prefix and the items behind it give is the first position in both.
* `fill_findIdx?`: filling from a correct prefix gives the index of the whole list.
-/

namespace Harvest.Lib

variable {α κ : Type*} [DecidableEq κ]

/-- `entry(..).or_insert(..)` -/
def orInsert (first : κ → Option Nat) (k : κ) (position : Nat) : κ → Option Nat :=
  fun k' => if k' = k then some ((first k).getD position) else first k'

/-- Enters the items from this position on. -/
def fill (key : α → Option κ) : Nat → List α → (κ → Option Nat) → κ → Option Nat
  | _, [], first => first
  | position, item :: items, first =>
    fill key (position + 1) items ((key item).elim first fun k => orInsert first k position)

/-- The first position of a key. -/
def firstAt (key : α → Option κ) (items : List α) (k : κ) : Option Nat :=
  items.findIdx? fun item => key item = some k

variable {key : α → Option κ}

theorem firstAt_cons (item : α) (items : List α) (k : κ) : firstAt key (item :: items) k =
    if key item = some k then some 0 else (firstAt key items k).map (· + 1) := by
  rw [firstAt, List.findIdx?_cons]
  simp only [decide_eq_true_eq]
  rfl

theorem fill_eq (items : List α) : ∀ (position : Nat) (first : κ → Option Nat) (k : κ),
    fill key position items first k =
      (first k).or ((firstAt key items k).map (· + position)) := by
  induction items with
  | nil =>
    intro position first k
    simp [fill, firstAt]
  | cons item items ih =>
    intro position first k
    have hshift : ((firstAt key items k).map (· + 1)).map (· + position) =
        (firstAt key items k).map (· + (position + 1)) := by
      rw [Option.map_map]
      refine congrArg (fun f => Option.map f _) (funext fun n => ?_)
      exact Nat.add_right_comm n 1 position
    rw [fill, ih, firstAt_cons]
    cases hkey : key item with
    | none => rw [if_neg (by simp), hshift, Option.elim_none]
    | some k' =>
      rw [Option.elim_some, orInsert]
      by_cases heq : k = k'
      · subst heq
        rw [if_pos rfl, if_pos rfl]
        cases first k <;> simp
      · rw [if_neg heq, if_neg (by simpa using Ne.symm heq), hshift]

/-- **Filling from a correct prefix gives the index of the whole list.** -/
theorem fill_findIdx? {front : List α} (back : List α) {first : κ → Option Nat}
    (hfront : ∀ k, first k = firstAt key front k) (k : κ) :
    fill key front.length back first k = firstAt key (front ++ back) k := by
  rw [fill_eq, hfront]
  simp only [firstAt, List.findIdx?_append]

end Harvest.Lib
