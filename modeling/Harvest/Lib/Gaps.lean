import Mathlib.Data.List.Basic

/-!
# Gaps in a list of numbers

The numbers of a range that a sorted list skips, as maximal ranges. A range is the pair of
the numbers just outside it.

Proved here:
* `mem_gaps`: the gaps are exactly the maximal ranges of missing numbers.
* `gaps_increasing`: they come in order and do not overlap.
-/

namespace Harvest.Lib

/-- The numbers strictly between `a` and `b` are a maximal range of numbers with `P`. -/
structure MaximalRange (P : Int → Prop) (a b : Int) : Prop where
  nonempty : a + 1 < b
  inside : ∀ n, a < n → n < b → P n
  left : ¬ P a
  right : ¬ P b

/-- A number of the range that the list does not hold. -/
def Missing (next last : Int) (present : List Int) (n : Int) : Prop :=
  next ≤ n ∧ n ≤ last ∧ n ∉ present

/-- The gaps of a sorted list in the range from `next` through `last`. -/
def gaps (next last : Int) : List Int → List (Int × Int)
  | [] => if next ≤ last then [(next - 1, last + 1)] else []
  | n :: rest => (if n = next then [] else [(next - 1, n)]) ++ gaps (n + 1) last rest

section Gaps

variable {next last : Int} {present : List Int}

theorem MaximalRange.congr {P Q : Int → Prop} {a b : Int} (h : ∀ n, P n ↔ Q n) :
    MaximalRange P a b ↔ MaximalRange Q a b := by
  obtain rfl : P = Q := funext fun n => propext (h n)
  exact Iff.rfl

theorem missing_cons {n : Int} (hlt : ∀ m ∈ present, n < m) (hn : next ≤ n ∧ n ≤ last) (m : Int) :
    Missing next last (n :: present) m ↔
      (next ≤ m ∧ m < n) ∨ Missing (n + 1) last present m := by
  unfold Missing
  simp only [List.mem_cons, not_or]
  constructor
  · rintro ⟨hlow, hhigh, hne, hnot⟩
    rcases Int.lt_or_gt_of_ne hne with hm | hm
    · exact .inl ⟨hlow, hm⟩
    · exact .inr ⟨by omega, hhigh, hnot⟩
  · rintro (⟨hlow, hm⟩ | ⟨hm, hhigh, hnot⟩)
    · exact ⟨hlow, by omega, by omega, fun hmem => by have := hlt m hmem; omega⟩
    · exact ⟨by omega, hhigh, by omega, hnot⟩

theorem maximalRange_nil {a b : Int} :
    MaximalRange (Missing next last []) a b ↔ next ≤ last ∧ a = next - 1 ∧ b = last + 1 := by
  constructor
  · rintro ⟨hlen, hin, hleft, hright⟩
    obtain ⟨hlow, -, -⟩ := hin (a + 1) (by omega) hlen
    obtain ⟨-, hhigh, -⟩ := hin (b - 1) (by omega) (by omega)
    simp only [Missing, List.not_mem_nil, not_false_eq_true, and_true, not_and] at hleft hright
    omega
  · rintro ⟨hle, rfl, rfl⟩
    refine ⟨by omega, fun n hl hr => ⟨by omega, by omega, by simp⟩, ?_, ?_⟩
    · rintro ⟨hlow, -⟩
      omega
    · rintro ⟨-, hhigh, -⟩
      omega

/-- A maximal range lies before the first number held, or after it. -/
theorem maximalRange_cons {n a b : Int} (hlt : ∀ m ∈ present, n < m)
    (hn : next ≤ n ∧ n ≤ last) :
    MaximalRange (Missing next last (n :: present)) a b ↔
      (n ≠ next ∧ a = next - 1 ∧ b = n) ∨ MaximalRange (Missing (n + 1) last present) a b := by
  rw [MaximalRange.congr (missing_cons hlt hn)]
  have hafter : ∀ m, Missing (n + 1) last present m → n < m := fun m hm => by
    have := hm.1
    omega
  constructor
  · rintro ⟨hlen, hin, hleft, hright⟩
    simp only [not_or, not_and] at hleft hright
    rcases hin (a + 1) (by omega) hlen with ⟨hlow, hbefore⟩ | hmissing
    · -- the range starts before `n`, which is held, so it ends there
      have hend : b ≤ n := by
        by_contra hpast
        rcases hin n (by omega) (by omega) with ⟨-, hself⟩ | hself
        · omega
        · exact absurd (hafter n hself) (by omega)
      left
      refine ⟨?_, ?_, ?_⟩
      · omega
      · have := hleft.1
        omega
      · have := hright.1
        omega
    · right
      have hfirst := hafter _ hmissing
      refine ⟨hlen, fun m hl hr => ?_, hleft.2, hright.2⟩
      rcases hin m hl hr with ⟨-, hbefore⟩ | hm
      · omega
      · exact hm
  · rintro (⟨hne, rfl, rfl⟩ | ⟨hlen, hin, hleft, hright⟩)
    · refine ⟨by omega, fun m hl hr => .inl ⟨by omega, hr⟩, ?_, ?_⟩
      · rintro (⟨hlow, -⟩ | hm)
        · omega
        · have := hafter _ hm
          omega
      · rintro (⟨-, hself⟩ | hm)
        · omega
        · exact absurd (hafter _ hm) (by omega)
    · have hfirst := hafter _ (hin (a + 1) (by omega) hlen)
      refine ⟨hlen, fun m hl hr => .inr (hin m hl hr), ?_, ?_⟩
      · rintro (⟨-, hbefore⟩ | hm)
        · omega
        · exact hleft hm
      · rintro (⟨-, hbefore⟩ | hm)
        · omega
        · exact hright hm

/-- **The gaps are the maximal ranges of missing numbers.** -/
theorem mem_gaps (hsorted : present.Pairwise (· < ·))
    (hin : ∀ n ∈ present, next ≤ n ∧ n ≤ last) {a b : Int} :
    (a, b) ∈ gaps next last present ↔ MaximalRange (Missing next last present) a b := by
  induction present generalizing next with
  | nil =>
    rw [maximalRange_nil]
    unfold gaps
    split <;> simp [*]
  | cons n rest ih =>
    obtain ⟨hlt, hsorted⟩ := List.pairwise_cons.mp hsorted
    have hn := hin n List.mem_cons_self
    have hrest : ∀ m ∈ rest, n + 1 ≤ m ∧ m ≤ last := fun m hm =>
      ⟨hlt m hm, (hin m (List.mem_cons_of_mem _ hm)).2⟩
    rw [gaps, List.mem_append, ih hsorted hrest, maximalRange_cons hlt hn]
    by_cases hne : n = next <;> simp [hne]

theorem gaps_ge (hsorted : present.Pairwise (· < ·))
    (hin : ∀ n ∈ present, next ≤ n ∧ n ≤ last) :
    ∀ g ∈ gaps next last present, next - 1 ≤ g.1 := by
  rintro ⟨a, b⟩ hg
  obtain ⟨hlen, hinside, -, -⟩ := (mem_gaps hsorted hin).mp hg
  have := (hinside (a + 1) (by omega) hlen).1
  show next - 1 ≤ a
  omega

/-- The gaps come in order and do not overlap. -/
theorem gaps_increasing (hsorted : present.Pairwise (· < ·))
    (hin : ∀ n ∈ present, next ≤ n ∧ n ≤ last) :
    (gaps next last present).Pairwise fun g g' => g.2 ≤ g'.1 := by
  induction present generalizing next with
  | nil =>
    unfold gaps
    split <;> simp
  | cons n rest ih =>
    obtain ⟨hlt, hsorted⟩ := List.pairwise_cons.mp hsorted
    have hrest : ∀ m ∈ rest, n + 1 ≤ m ∧ m ≤ last := fun m hm =>
      ⟨hlt m hm, (hin m (List.mem_cons_of_mem _ hm)).2⟩
    rw [gaps, List.pairwise_append]
    refine ⟨?_, ih hsorted hrest, ?_⟩
    · split <;> simp
    · intro g hg g' hg'
      have hge := gaps_ge hsorted hrest g' hg'
      split at hg
      · cases hg
      · obtain rfl := List.mem_singleton.mp hg
        show n ≤ g'.1
        omega

end Gaps
end Harvest.Lib
