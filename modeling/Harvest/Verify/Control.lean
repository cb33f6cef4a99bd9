import Harvest.Lib.Spread
import Harvest.Verify.Mir

/-!
# Control dependence is exact

The tables of `control.rs` against paths of the control graph. An exit is a block without
successors. All three tables are computed by a loop with a round bound: each round goes at least one
block further along every path, and a path that visits no block twice has at most `count` blocks.

Proved here:
* `dominates_iff`: dominance, for live blocks.
* `postDominates_iff`: post-dominance, where every live block reaches an exit.
* `control_dependence_is_exact`: both, control dependence, and that further rounds change nothing.
-/

namespace Harvest.Verify

open Harvest.Lib

namespace Body

variable {body : Body} {a b v w : Nat}

theorem next_lt (body : Body) (v : Nat) : ∀ w ∈ body.next v, w < body.blocks.length :=
  fun _ hw => (mem_next hw).1

theorem isLive_lt (h : body.isLive v = true) : v < body.blocks.length := by
  rw [isLive, Bool.and_eq_true, decide_eq_true_eq] at h
  exact reachable_lt body.next_lt h.1

theorem isLive_next (h : body.isLive v = true) (hw : w ∈ body.next v) : body.isLive w = true := by
  rw [isLive, Bool.and_eq_true, decide_eq_true_eq] at h ⊢
  exact ⟨reachable_next body.nodup_next body.next_lt h.1 hw, by simp [(mem_next hw).2]⟩

/-! ### Dominance -/

/-- The paths that the table follows are the paths from the entry. -/
theorem pathTo_of_avoids {path : List Nat}
    (h : Avoids body.next body.isLive body.blocks.length a (path ++ [b])) : body.PathTo path b := by
  have hentry := List.mem_of_mem_head? h.head
  refine ⟨h.path, h.head, h.below 0 hentry, ?_⟩
  have hlive := h.live 0 hentry
  rw [isLive, Bool.and_eq_true] at hlive
  simpa using hlive.2

/-- **`dominates` is exact** for live blocks. -/
theorem dominates_iff (ha : body.isLive a = true) (hb : body.isLive b = true) :
    body.dominates a b = true ↔ ∀ path, body.PathTo path b → a ∈ path ++ [b] := by
  have hbit : bit (dominanceTable body.next body.isLive body.blocks.length) b a = false ↔
      ∃ path, Avoids body.next body.isLive body.blocks.length a (path ++ [b]) :=
    bit_table_iff hb (isLive_lt ha) (isLive_lt hb)
  have hdom : body.dominates a b =
      bit (dominanceTable body.next body.isLive body.blocks.length) b a := by
    rw [dominates, Lib.dominates, ha, hb, Bool.and_true, Bool.and_true]
    rfl
  rw [hdom, ← not_iff_not, Bool.not_eq_true, hbit]
  constructor
  · rintro ⟨path, havoids⟩ hall
    exact havoids.avoids (hall path (pathTo_of_avoids havoids))
  · intro hnot
    rw [not_forall] at hnot
    obtain ⟨path, hnot⟩ := hnot
    rw [Classical.not_imp] at hnot
    obtain ⟨hpath, hout⟩ := hnot
    exact ⟨path, hpath.steps, hpath.entry, fun v hv => (hpath.live v hv).1,
      fun v hv => (hpath.live v hv).2, hout⟩

/-! ### Which blocks reach an exit -/

/-- The turn of `can_exit` at one block. -/
def exitStep (body : Body) (canExit : List Bool) (at_ : Nat) : List Bool :=
  if canExit.getD at_ false then canExit
  else if (body.next at_).any fun t => canExit.getD t false then canExit.set at_ true
  else canExit

theorem exitPass_eq (body : Body) :
    body.exitPass = Spreads.round body.exitStep body.blocks.length := rfl

theorem canExit_eq (body : Body) :
    body.canExit = (Spreads.round body.exitStep body.blocks.length)^[body.blocks.length + 1]
      ((List.range body.blocks.length).map fun at_ => (body.next at_).isEmpty) :=
  eq_iterate_of_stop (fun _ => rfl) (fun _ _ => rfl) _ _

theorem getD_set_ne {canExit : List Bool} (hne : v ≠ w) :
    (canExit.set w true).getD v false = canExit.getD v false := by
  rw [List.getD_eq_getElem?_getD, List.getD_eq_getElem?_getD, List.getElem?_set_ne hne.symm]

theorem getD_set_self {canExit : List Bool} (hlt : v < canExit.length) :
    (canExit.set v true).getD v false = true := by
  rw [List.getD_eq_getElem?_getD, List.getElem?_set_self hlt]
  rfl

theorem exitStep_spreads (body : Body) :
    Spreads body.next body.blocks.length body.exitStep
      (fun canExit => canExit.length = body.blocks.length) (fun _ => True)
      (fun canExit v => canExit.getD v false = true) where
  inv := fun canExit at_ hlen => by
    unfold exitStep
    split_ifs
    · exact hlen
    · rw [List.length_set, hlen]
    · exact hlen
  frame := fun canExit at_ v hne => by
    unfold exitStep
    split_ifs
    · rfl
    · rw [getD_set_ne hne]
    · rfl
  exit := fun canExit v hexit => by
    unfold exitStep
    rw [hexit]
    simp
  edge := fun canExit v w hlen hv _ hedge hw => by
    unfold exitStep
    have hany : ((body.next v).any fun t => canExit.getD t false) = true :=
      List.any_eq_true.mpr ⟨w, hedge, hw⟩
    split_ifs with hold
    · exact hold
    · exact getD_set_self (by omega)
  back := fun canExit v _ _ hhas => by
    unfold exitStep at hhas
    split_ifs at hhas with hold hany
    · exact .inl hold
    · obtain ⟨w, hedge, hw⟩ := List.any_eq_true.mp hany
      exact .inr ⟨trivial, w, hedge, hw⟩
    · exact .inl hhas

theorem canExit_start (hv : v < body.blocks.length) :
    ((List.range body.blocks.length).map fun at_ => (body.next at_).isEmpty).getD v false = true ↔
      body.next v = [] ∧ True := by
  rw [List.getD_eq_getElem?_getD, List.getElem?_map, List.getElem?_range hv]
  simp

/-- Every number of rounds from the bound on is exact about the blocks that reach an exit. -/
theorem exit_rounds_iff {rounds : Nat} (hrounds : body.blocks.length ≤ rounds)
    (hv : v < body.blocks.length) :
    ((Spreads.round body.exitStep body.blocks.length)^[rounds]
      ((List.range body.blocks.length).map fun at_ => (body.next at_).isEmpty)).getD v false = true ↔
      ∃ path, ExitPath body.next v path := by
  rw [body.exitStep_spreads.iff_exists_path body.next_lt (by simp) (fun u hu => canExit_start hu)
    hrounds hv]
  simp

theorem canExit_iff (hv : v < body.blocks.length) :
    body.canExit.getD v false = true ↔ ∃ path, ExitPath body.next v path := by
  rw [canExit_eq]
  exact exit_rounds_iff (by omega) hv

/-- A further pass finds nothing. -/
theorem exitPass_canExit (body : Body) : body.exitPass body.canExit = body.canExit := by
  have hagree : ∀ v, v < body.blocks.length →
      ((body.exitPass body.canExit).getD v false = true ↔ body.canExit.getD v false = true) := by
    intro v hv
    rw [canExit_iff hv, exitPass_eq, canExit_eq,
      ← Function.iterate_succ_apply' (Spreads.round body.exitStep body.blocks.length)]
    exact exit_rounds_iff (by omega) hv
  have hlength : body.canExit.length = body.blocks.length := by
    rw [canExit_eq]
    exact Spreads.iterate_inv body.exitStep_spreads.inv _ (by simp)
  have hlength' : (body.exitPass body.canExit).length = body.blocks.length := by
    rw [exitPass_eq]
    exact Spreads.foldl_inv body.exitStep_spreads.inv _ hlength
  refine List.ext_getElem (by omega) fun v h₁ h₂ => ?_
  have hsame := hagree v (by omega)
  rw [List.getD_eq_getElem?_getD, List.getD_eq_getElem?_getD, List.getElem?_eq_getElem h₁,
    List.getElem?_eq_getElem h₂] at hsame
  exact Bool.eq_iff_iff.mpr hsame

/-! ### Post-dominance -/

/-- `a` is on every path from `b` to an exit. -/
def PostDominator (body : Body) (a b : Nat) : Prop :=
  ∀ path, ExitPath body.next b path → a ∈ path

/-- The row that a round computes for a block. -/
def postRow (body : Body) (pdom : List (List Bool)) (at_ : Nat) : List Bool :=
  (List.range body.blocks.length).map fun slot =>
    slot == at_ || (body.next at_).all fun t => bit pdom t slot

/-- The turn of `post_dominance` at one block. -/
def postStep (body : Body) (pdom : List (List Bool)) (at_ : Nat) : List (List Bool) :=
  if (body.next at_).isEmpty then pdom else pdom.set at_ (body.postRow pdom at_)

/-- The table of so many rounds. -/
def postTable (body : Body) : List (List Bool) :=
  body.postLoop (body.blocks.length + 2) body.postStart

theorem postRound_eq (body : Body) :
    body.postRound = Spreads.round body.postStep body.blocks.length := rfl

theorem postTable_eq (body : Body) :
    body.postTable =
      (Spreads.round body.postStep body.blocks.length)^[body.blocks.length + 2] body.postStart :=
  eq_iterate_of_stop (fun _ => rfl) (fun _ _ => rfl) _ _

theorem length_postRow (pdom : List (List Bool)) : (body.postRow pdom v).length =
    body.blocks.length := by
  rw [postRow, List.length_map, List.length_range]

theorem getD_postRow {pdom : List (List Bool)} (ha : a < body.blocks.length) :
    (body.postRow pdom v)[a]?.getD false =
      (a == v || (body.next v).all fun t => bit pdom t a) := by
  rw [postRow, List.getElem?_map, List.getElem?_range ha]
  rfl

theorem postStep_of_exit {pdom : List (List Bool)} (hexit : body.next v = []) :
    body.postStep pdom v = pdom := by
  rw [postStep, hexit]
  rfl

theorem postStep_of_edge {pdom : List (List Bool)} (hedge : w ∈ body.next v) :
    body.postStep pdom v = pdom.set v (body.postRow pdom v) := by
  rw [postStep, if_neg]
  rw [List.isEmpty_iff]
  exact List.ne_nil_of_mem hedge

theorem square_postStep (pdom : List (List Bool)) (at_ : Nat) (h : Square body.blocks.length pdom) :
    Square body.blocks.length (body.postStep pdom at_) := by
  unfold postStep
  split
  · exact h
  · exact h.set (length_postRow pdom)

/-- Not being post-dominated by `a` spreads backwards from the exits. -/
theorem postStep_spreads (ha : a < body.blocks.length) :
    Spreads body.next body.blocks.length body.postStep (Square body.blocks.length) (fun v => v ≠ a)
      (fun pdom v => bit pdom v a = false) where
  inv := square_postStep
  frame := fun pdom at_ v hne => by
    unfold postStep
    split
    · rfl
    · rw [bit_set_ne hne]
  exit := fun pdom v hexit => by rw [postStep_of_exit hexit]
  edge := fun pdom v w h hv hne hedge hw => by
    rw [postStep_of_edge hedge, bit_set_self (by rw [h.rows]; exact hv), getD_postRow ha,
      Bool.or_eq_false_iff, List.all_eq_false]
    exact ⟨by simpa using Ne.symm hne, w, hedge, by simp [hw]⟩
  back := fun pdom v h hv hbit => by
    cases hnext : body.next v with
    | nil =>
      rw [postStep_of_exit hnext] at hbit
      exact .inl hbit
    | cons w rest =>
      have hedge : w ∈ body.next v := by rw [hnext]; exact List.mem_cons_self
      rw [postStep_of_edge hedge, bit_set_self (by rw [h.rows]; exact hv), getD_postRow ha,
        Bool.or_eq_false_iff, List.all_eq_false] at hbit
      obtain ⟨hne, t, ht, htbit⟩ := hbit
      rw [hnext] at ht
      exact .inr ⟨fun heq => by simp [heq] at hne, t, ht, by simpa using htbit⟩

theorem square_postStart (body : Body) : Square body.blocks.length body.postStart where
  rows := by simp [postStart]
  columns := fun row hrow => by
    obtain ⟨at_, -, rfl⟩ := List.mem_map.mp hrow
    split <;> simp

theorem bit_postStart (ha : a < body.blocks.length) (hv : v < body.blocks.length) :
    bit body.postStart v a = false ↔ body.next v = [] ∧ v ≠ a := by
  unfold bit postStart
  rw [List.getElem?_map, List.getElem?_range hv, Option.map_some, Option.bind_some]
  by_cases hexit : body.next v = []
  · rw [if_pos (by rw [hexit]; rfl), List.getElem?_map, List.getElem?_range ha]
    simp [hexit, ne_comm]
  · rw [if_neg (by rwa [List.isEmpty_iff]), List.getElem?_replicate_of_lt ha]
    simp [hexit]

/-- Every number of rounds from the bound on is exact about post-dominance. -/
theorem post_rounds_iff {rounds : Nat} (hrounds : body.blocks.length ≤ rounds)
    (ha : a < body.blocks.length) (hb : b < body.blocks.length) :
    bit ((Spreads.round body.postStep body.blocks.length)^[rounds] body.postStart) b a = true ↔
      body.PostDominator a b := by
  have hiff := (postStep_spreads ha).iff_exists_path body.next_lt body.square_postStart
    (fun v hv => bit_postStart ha hv) hrounds hb
  rw [← not_iff_not, Bool.not_eq_true, hiff, PostDominator, not_forall]
  refine exists_congr fun path => ?_
  rw [Classical.not_imp]
  refine and_congr_right fun _ => ?_
  constructor
  · intro hall hmem
    exact hall a hmem rfl
  · rintro hout u hu rfl
    exact hout hu

theorem bit_postTable (ha : a < body.blocks.length) (hb : b < body.blocks.length) :
    bit body.postTable b a = true ↔ body.PostDominator a b := by
  rw [postTable_eq]
  exact post_rounds_iff (by omega) ha hb

/-- A further round changes nothing. -/
theorem postRound_postTable (body : Body) : body.postRound body.postTable = body.postTable := by
  have hsquare : ∀ rounds, Square body.blocks.length
      ((Spreads.round body.postStep body.blocks.length)^[rounds] body.postStart) := fun rounds =>
    Spreads.iterate_inv square_postStep rounds body.square_postStart
  rw [postRound_eq, postTable_eq,
    ← Function.iterate_succ_apply' (Spreads.round body.postStep body.blocks.length)]
  refine (hsquare _).ext (hsquare _) fun b hb a ha => ?_
  rw [Bool.eq_iff_iff, post_rounds_iff (by omega) ha hb, post_rounds_iff (by omega) ha hb]

/-- The live blocks of a body can all leave it. -/
def AllExit (body : Body) : Prop := ∀ v, body.isLive v = true → ∃ path, ExitPath body.next v path

/-- On a path from a live block every block is live. -/
theorem AllExit.live (h : body.AllExit) (hb : body.isLive b = true)
    (ha : body.PostDominator a b) : body.isLive a = true := by
  obtain ⟨path, hpath⟩ := h b hb
  exact hpath.forall_mem (fun _ hu w hw => isLive_next hu hw) hb a (ha path hpath)

/-- **`post_dominates` is exact** at live blocks, where every live block reaches an exit. -/
theorem postDominates_iff (h : body.AllExit) (hb : body.isLive b = true) :
    body.postDominates a b = true ↔ body.PostDominator a b := by
  have hsplit : body.postDominates a b = true ↔ bit body.postTable b a = true ∧
      (a = b ∨ body.canExit.getD a false = true) ∧ body.isLive a = true := by
    rw [postDominates, postTable, Bool.and_eq_true, Bool.and_eq_true, Bool.or_eq_true, beq_iff_eq,
      and_assoc]
  rw [hsplit]
  constructor
  · rintro ⟨hbit, -, ha⟩
    exact (bit_postTable (isLive_lt ha) (isLive_lt hb)).mp hbit
  · intro hdom
    have ha := h.live hb hdom
    exact ⟨(bit_postTable (isLive_lt ha) (isLive_lt hb)).mpr hdom,
      .inr ((canExit_iff (isLive_lt ha)).mpr (h a ha)), ha⟩

/-- A block with one successor is post-dominated by whatever post-dominates that one. -/
theorem PostDominator.of_one_successor (hlength : (body.next b).length < 2) (hw : w ∈ body.next b)
    (h : body.PostDominator a w) : body.PostDominator a b := by
  intro path hpath
  cases hpath with
  | exit last =>
    rw [last] at hw
    cases hw
  | @step _ u path edge rest =>
    have hone : u = w := by
      cases hnext : body.next b with
      | nil => rw [hnext] at hw; cases hw
      | cons t ts =>
        rw [hnext, List.length_cons] at hlength
        obtain rfl : ts = [] := List.length_eq_zero_iff.mp (by omega)
        rw [hnext, List.mem_singleton] at hw edge
        rw [hw, edge]
    rw [hone] at rest
    exact List.mem_cons_of_mem _ (h path rest)

/-- `is_control_dependent` as a conjunction of what it checks. -/
theorem isControlDependent_eq_true (body : Body) (b a : Nat) :
    body.isControlDependent b a = true ↔ 2 ≤ (body.next a).length ∧ body.isLive b = true ∧
      body.isLive a = true ∧ body.postDominates b a = false ∧
      ∃ s ∈ body.next a, body.postDominates b s = true := by
  unfold isControlDependent
  split_ifs with hguard hpost
  · simp only [Bool.or_eq_true, decide_eq_true_eq, Bool.not_eq_true'] at hguard
    constructor
    · intro h
      cases h
    · rintro ⟨hlength, hb, ha, -⟩
      rw [hb, ha] at hguard
      simp only [Bool.true_eq_false, or_false] at hguard
      omega
  · simp [hpost]
  · simp only [Bool.or_eq_true, decide_eq_true_eq, Bool.not_eq_true', not_or, not_lt,
      Bool.not_eq_false] at hguard
    rw [List.any_eq_true]
    constructor
    · intro hany
      exact ⟨hguard.1.1, hguard.1.2, hguard.2, Bool.eq_false_iff.mpr hpost, hany⟩
    · exact fun h => h.2.2.2.2

/-- **`is_control_dependent` is exact**. The test for two successors decides nothing. -/
theorem isControlDependent_iff (h : body.AllExit) :
    body.isControlDependent b a = true ↔ body.isLive a = true ∧
      (∃ s ∈ body.next a, body.PostDominator b s) ∧ ¬ body.PostDominator b a := by
  rw [isControlDependent_eq_true]
  constructor
  · rintro ⟨-, -, ha, hpost, s, hs, hdom⟩
    refine ⟨ha, ⟨s, hs, (postDominates_iff h (isLive_next ha hs)).mp hdom⟩, fun hall => ?_⟩
    rw [(postDominates_iff h ha).mpr hall] at hpost
    cases hpost
  · rintro ⟨ha, ⟨s, hs, hdom⟩, hnot⟩
    have hlive := isLive_next ha hs
    refine ⟨?_, h.live hlive hdom, ha, ?_, s, hs, (postDominates_iff h hlive).mpr hdom⟩
    · by_contra hlength
      exact hnot (hdom.of_one_successor (by omega) hs)
    · rw [Bool.eq_false_iff]
      exact fun hpost => hnot ((postDominates_iff h ha).mp hpost)

/-- **Control dependence is computed exactly.** Dominance of live blocks is dominance along all paths
from the entry. Where every live block reaches an exit, post-dominance of a live block is
post-dominance along all its paths to an exit, and a block is control-dependent on a live branch when
it post-dominates a successor of the branch and does not post-dominate the branch. One more round
would change none of the three tables. -/
theorem control_dependence_is_exact (body : Body) :
    (∀ a b, body.isLive a = true → body.isLive b = true →
      (body.dominates a b = true ↔ ∀ path, body.PathTo path b → a ∈ path ++ [b])) ∧
    (body.AllExit →
      (∀ a b, body.isLive b = true →
        (body.postDominates a b = true ↔ body.PostDominator a b)) ∧
      ∀ a b, body.isControlDependent b a = true ↔ body.isLive a = true ∧
        (∃ s ∈ body.next a, body.PostDominator b s) ∧ ¬ body.PostDominator b a) ∧
    (dominanceRound body.next body.isLive body.blocks.length
      (dominanceTable body.next body.isLive body.blocks.length)).1 =
        dominanceTable body.next body.isLive body.blocks.length ∧
    body.exitPass body.canExit = body.canExit ∧
    body.postRound body.postTable = body.postTable := by
  refine ⟨fun a b ha hb => dominates_iff ha hb, fun h => ⟨?_, ?_⟩, dominanceRound_table,
    body.exitPass_canExit, body.postRound_postTable⟩
  · exact fun a b hb => postDominates_iff h hb
  · exact fun a b => isControlDependent_iff h

/-- A loop: `bb0` goes back to itself or leaves. -/
def looping : Body where
  path := "looping"
  params := []
  blocks := [
    { label := "bb0", statements := [],
      terminator := .switchInt (.const "true") ["bb0", "bb1"] },
    { label := "bb1", statements := [], terminator := .ret }]
  labels := by decide

theorem looping_allExit : looping.AllExit := by
  intro v hv
  have hlt : v < 2 := isLive_lt hv
  have hlast : ExitPath looping.next 1 [1] := .exit (by decide +kernel)
  obtain rfl | rfl : v = 0 ∨ v = 1 := by omega
  · exact ⟨[0, 1], .step (by decide +kernel) hlast⟩
  · exact ⟨[1], hlast⟩

/-- The block after the loop post-dominates it, and the loop is no branch that decides it. -/
theorem looping_exit_post_dominates :
    looping.PostDominator 1 0 ∧ looping.dominates 0 1 = true ∧
      looping.isControlDependent 1 0 = false := by
  have hexact := (control_dependence_is_exact looping).2.1 looping_allExit
  exact ⟨(hexact.1 1 0 (by decide +kernel)).mp (by decide +kernel), by decide +kernel,
    by decide +kernel⟩

/-- With strict post-dominance the rule would differ: a loop header would depend on itself. -/
theorem loop_header_depends_not_on_itself :
    ¬ ∀ body : Body, body.AllExit → ∀ a b, body.isLive a = true → body.isLive b = true →
      (body.isControlDependent b a = true ↔
        (∃ s ∈ body.next a, body.PostDominator b s) ∧ ¬ (b ≠ a ∧ body.PostDominator b a)) := by
  intro hall
  have hiff := hall looping looping_allExit 0 0 (by decide +kernel) (by decide +kernel)
  have hself : looping.PostDominator 0 0 := fun _ hpath => hpath.mem_self
  have hdependent := hiff.mpr ⟨⟨0, by decide +kernel, hself⟩, fun h => h.1 rfl⟩
  exact absurd hdependent (by decide +kernel)

end Body

end Harvest.Verify
