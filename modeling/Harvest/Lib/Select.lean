import Mathlib.Data.List.Induction
import Mathlib.Order.Lattice

/-!
# Extremal elements of a list

The fold that keeps the first of the least elements, or the last of the greatest,
under a Boolean comparison `le a b` ("`a` is not after `b`").

Proved here:
* `minBy_mem`, `minBy_le`: the least element is in the list and not after any other.
* `minBy_concat`, `minBy_filter`: one more element, and fewer elements, keep it or replace it.
* `maxBy_mem`, `le_maxBy`: the same for the greatest.
* `lexLe_total`, `lexLe_trans`: two keys compared one after the other are such an order.
-/

namespace Harvest.Lib

variable {α : Type*} (le : α → α → Bool)

/-- The first least element: a later one wins only if it is strictly before. -/
def minBy : List α → Option α
  | [] => none
  | a :: rest => some (rest.foldl (fun best b => if le best b then best else b) a)

/-- The last greatest element: an earlier one wins only if it is strictly after. -/
def maxBy : List α → Option α
  | [] => none
  | a :: rest => some (rest.foldl (fun best b => if le best b then b else best) a)

variable {le}

theorem minBy_mem {l : List α} {m : α} (h : minBy le l = some m) : m ∈ l := by
  cases l with
  | nil => cases h
  | cons a rest =>
    obtain rfl : _ = m := Option.some.inj h
    clear h
    induction rest generalizing a with
    | nil => simp
    | cons b rest ih =>
      rw [List.foldl_cons]
      rcases List.mem_cons.mp (ih (if le a b then a else b)) with h | h
      · rw [h]
        split <;> simp
      · exact List.mem_cons_of_mem _ (List.mem_cons_of_mem _ h)

theorem maxBy_mem {l : List α} {m : α} (h : maxBy le l = some m) : m ∈ l := by
  cases l with
  | nil => cases h
  | cons a rest =>
    obtain rfl : _ = m := Option.some.inj h
    clear h
    induction rest generalizing a with
    | nil => simp
    | cons b rest ih =>
      rw [List.foldl_cons]
      rcases List.mem_cons.mp (ih (if le a b then b else a)) with h | h
      · rw [h]
        split <;> simp
      · exact List.mem_cons_of_mem _ (List.mem_cons_of_mem _ h)

theorem minBy_concat (l : List α) (b : α) :
    minBy le (l ++ [b]) = some (match minBy le l with
      | some m => if le m b then m else b
      | none => b) := by
  cases l with
  | nil => rfl
  | cons a rest => simp [minBy]

theorem minBy_isSome {l : List α} (h : l ≠ []) : ∃ m, minBy le l = some m := by
  cases l with
  | nil => exact absurd rfl h
  | cons a rest => exact ⟨_, rfl⟩

/-- An element that nothing before it matches and nothing after it beats. -/
theorem minBy_eq_some {before after : List α} {m : α} (hbefore : ∀ a ∈ before, le a m = false)
    (hafter : ∀ b ∈ after, le m b = true) : minBy le (before ++ m :: after) = some m := by
  induction after using List.reverseRecOn with
  | nil =>
    rw [minBy_concat]
    cases hbest : minBy le before with
    | none => rfl
    | some best => simp [hbefore best (minBy_mem hbest)]
  | append_singleton after b ih =>
    rw [← List.cons_append, ← List.append_assoc, minBy_concat,
      ih fun b hb => hafter b (List.mem_append_left _ hb)]
    simp [hafter b (List.mem_append_right _ List.mem_cons_self)]

section Preorder

variable (hrefl : ∀ a, le a a = true) (htotal : ∀ a b, le a b = false → le b a = true)
  (htrans : ∀ a b c, le a b = true → le b c = true → le a c = true)

include hrefl htotal htrans

theorem minBy_le {l : List α} {m : α} (h : minBy le l = some m) : ∀ b ∈ l, le m b = true := by
  cases l with
  | nil => cases h
  | cons a rest =>
    obtain rfl : _ = m := Option.some.inj h
    clear h
    induction rest generalizing a with
    | nil => simpa using hrefl a
    | cons b rest ih =>
      rw [List.foldl_cons]
      have hbest := ih (if le a b then a else b)
      -- The best of the first two is not after either of them.
      have hfirst : le (if le a b then a else b) a = true ∧ le (if le a b then a else b) b = true := by
        cases hab : le a b with
        | true => exact ⟨hrefl a, hab⟩
        | false => exact ⟨htotal a b hab, hrefl b⟩
      have hhead := hbest _ (List.mem_cons_self)
      intro c hc
      rcases List.mem_cons.mp hc with rfl | hc
      · exact htrans _ _ _ hhead hfirst.1
      · rcases List.mem_cons.mp hc with rfl | hc
        · exact htrans _ _ _ hhead hfirst.2
        · exact hbest c (List.mem_cons_of_mem _ hc)

/-- **The first least element** and what is around it. -/
theorem minBy_split {l : List α} {m : α} (h : minBy le l = some m) :
    ∃ before after, l = before ++ m :: after ∧ (∀ a ∈ before, le a m = false) ∧
      ∀ b ∈ after, le m b = true := by
  induction l using List.reverseRecOn generalizing m with
  | nil => cases h
  | append_singleton l b ih =>
    rw [minBy_concat, Option.some.injEq] at h
    cases hbest : minBy le l with
    | none =>
      rw [hbest] at h
      cases l with
      | nil => exact ⟨[], [], by rw [← h], nofun, nofun⟩
      | cons a rest => cases hbest
    | some best =>
      rw [hbest] at h
      dsimp only at h
      split_ifs at h with hle
      · obtain ⟨before, after, rfl, hbefore, hafter⟩ := ih (h ▸ hbest)
        refine ⟨before, after ++ [b], by simp, hbefore, fun c hc => ?_⟩
        rcases List.mem_append.mp hc with hc | hc
        · exact hafter c hc
        · rw [List.mem_singleton.mp hc, ← h]
          exact hle
      · subst h
        refine ⟨l, [], rfl, fun a ha => ?_, nofun⟩
        -- a match with `b` would carry over to the best of the others
        have hbestle := minBy_le hrefl htotal htrans hbest a ha
        cases hab : le a b with
        | false => rfl
        | true => exact absurd (htrans _ _ _ hbestle hab) hle

/-- Dropping others keeps the first least element. -/
theorem minBy_filter {l : List α} {m : α} {p : α → Bool} (h : minBy le l = some m)
    (hm : p m = true) : minBy le (l.filter p) = some m := by
  obtain ⟨before, after, rfl, hbefore, hafter⟩ := minBy_split hrefl htotal htrans h
  rw [List.filter_append, List.filter_cons_of_pos hm]
  exact minBy_eq_some (fun a ha => hbefore a (List.mem_filter.mp ha).1)
    fun b hb => hafter b (List.mem_filter.mp hb).1

theorem le_maxBy {l : List α} {m : α} (h : maxBy le l = some m) : ∀ b ∈ l, le b m = true := by
  cases l with
  | nil => cases h
  | cons a rest =>
    obtain rfl : _ = m := Option.some.inj h
    clear h
    induction rest generalizing a with
    | nil => simpa using hrefl a
    | cons b rest ih =>
      rw [List.foldl_cons]
      have hbest := ih (if le a b then b else a)
      have hfirst : le a (if le a b then b else a) = true ∧ le b (if le a b then b else a) = true := by
        cases hab : le a b with
        | true => exact ⟨hab, hrefl b⟩
        | false => exact ⟨hrefl a, htotal a b hab⟩
      have hhead := hbest _ (List.mem_cons_self)
      intro c hc
      rcases List.mem_cons.mp hc with rfl | hc
      · exact htrans _ _ _ hfirst.1 hhead
      · rcases List.mem_cons.mp hc with rfl | hc
        · exact htrans _ _ _ hfirst.2 hhead
        · exact hbest c (List.mem_cons_of_mem _ hc)

end Preorder

section Lex

variable {β γ : Type*} [LinearOrder β] [LinearOrder γ] (f : α → β) (g : α → γ)

/-- Compare by `f`, and by `g` where `f` ties. -/
def lexLe (a b : α) : Bool := f a < f b || (f a = f b && g a ≤ g b)

theorem lexLe_refl (a : α) : lexLe f g a a = true := by simp [lexLe]

theorem lexLe_total (a b : α) (h : lexLe f g a b = false) : lexLe f g b a = true := by
  simp only [lexLe, Bool.or_eq_false_iff, Bool.and_eq_false_iff, decide_eq_false_iff_not,
    not_lt, not_le, Bool.or_eq_true, Bool.and_eq_true, decide_eq_true_eq] at h ⊢
  rcases lt_or_eq_of_le h.1 with hlt | heq
  · exact .inl hlt
  · rcases h.2 with hne | hlt
    · exact absurd heq.symm hne
    · exact .inr ⟨heq, le_of_lt hlt⟩

theorem lexLe_trans (a b c : α) (hab : lexLe f g a b = true) (hbc : lexLe f g b c = true) :
    lexLe f g a c = true := by
  simp only [lexLe, Bool.or_eq_true, Bool.and_eq_true, decide_eq_true_eq] at *
  rcases hab with hab | ⟨hab, hab'⟩ <;> rcases hbc with hbc | ⟨hbc, hbc'⟩
  · exact .inl (lt_trans hab hbc)
  · exact .inl (hbc ▸ hab)
  · exact .inl (hab ▸ hbc)
  · exact .inr ⟨hab.trans hbc, le_trans hab' hbc'⟩

theorem lexLe_fst {a b : α} (h : lexLe f g a b = true) : f a ≤ f b := by
  simp only [lexLe, Bool.or_eq_true, Bool.and_eq_true, decide_eq_true_eq] at h
  rcases h with h | h
  · exact le_of_lt h
  · exact le_of_eq h.1

end Lex

end Harvest.Lib
