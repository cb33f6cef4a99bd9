import Mathlib.Algebra.BigOperators.Fin
import Mathlib.Algebra.Order.BigOperators.Group.Finset

/-!
# Balancing partitions between owners

Model of `plan_balance` in `decision_owner.rs`: how many free partitions a worker takes and how many
it gives back, from the number it holds, the number of other live owners and the number of free
partitions. A group of owners that plan on accurate counts is a state machine, one worker a step.

Proved here:
* `step_held_le`, `run_calm`: once every worker has planned, none is above its target by more
  than one, and none releases again.
* `run_takes_all`: a further round leaves no partition free.
* `balancing_settles_after_two_rounds`: after two rounds nothing changes any more.
-/

namespace Harvest.Owner

/-- `DECISION_PARTITIONS` -/
def decisionPartitions : Nat := 512

structure BalancePlan where
  target : Nat
  acquire : Nat
  release : Nat
deriving DecidableEq, Repr

/-- `div_ceil` -/
def divCeil (n d : Nat) : Nat := if n % d = 0 then n / d else n / d + 1

/-- The share of each owner, rounded up. The owner count saturates at `usize::MAX`. -/
def balanceTarget (peers : Nat) : Nat := divCeil decisionPartitions (min (peers + 1) (2 ^ 64 - 1))

def planBalance (held peers free orphans : Nat) : BalancePlan :=
  let target := balanceTarget peers
  if target + 1 < held then ⟨target, 0, held - target⟩
  else
    let below := min (target - held) free
    ⟨target, max below (min orphans free), 0⟩

theorem le_mul_divCeil (n : Nat) {d : Nat} (hd : 0 < d) : n ≤ d * divCeil n d := by
  have hdiv := Nat.div_add_mod n d
  have hmod := Nat.mod_lt n hd
  unfold divCeil
  split_ifs
  · omega
  · rw [Nat.mul_add, Nat.mul_one]
    omega

/-- The shares of all owners cover the partitions. -/
theorem partitions_le_shares (peers : Nat) :
    decisionPartitions ≤ (peers + 1) * balanceTarget peers := by
  have hpos : 0 < min (peers + 1) (2 ^ 64 - 1) := by
    rw [lt_min_iff]
    omega
  exact (le_mul_divCeil decisionPartitions hpos).trans
    (Nat.mul_le_mul_right _ (min_le_left _ _))

/-! ## A group of owners -/

/-- The partitions of a database: what each of `peers + 1` workers holds, and what is free. -/
@[ext] structure Ownership (peers : Nat) where
  held : Fin (peers + 1) → Nat
  free : Nat
  total : ∑ w, held w + free = decisionPartitions

namespace Ownership

variable {peers : Nat}

/-- What a worker plans on accurate counts, without orphans. -/
def plan (s : Ownership peers) (w : Fin (peers + 1)) : BalancePlan :=
  planBalance (s.held w) peers s.free 0

theorem acquire_le (s : Ownership peers) (w : Fin (peers + 1)) :
    (s.plan w).acquire ≤ s.free := by
  unfold plan planBalance
  dsimp only
  split_ifs <;> simp

theorem release_le (s : Ownership peers) (w : Fin (peers + 1)) :
    (s.plan w).release ≤ s.held w := by
  unfold plan planBalance
  dsimp only
  split_ifs <;> simp

/-- The worker takes and gives back what it planned. -/
def step (s : Ownership peers) (w : Fin (peers + 1)) : Ownership peers where
  held := Function.update s.held w (s.held w + (s.plan w).acquire - (s.plan w).release)
  free := s.free - (s.plan w).acquire + (s.plan w).release
  total := by
    have htotal := s.total
    have hacquire := s.acquire_le w
    have hrelease := s.release_le w
    rw [← Finset.add_sum_erase _ _ (Finset.mem_univ w)] at htotal ⊢
    rw [Function.update_self, Finset.sum_congr rfl fun v hv =>
      Function.update_of_ne (Finset.ne_of_mem_erase hv) _ _]
    omega

def run (s : Ownership peers) (workers : List (Fin (peers + 1))) : Ownership peers :=
  workers.foldl step s

/-- No worker holds more than one partition above its target. -/
def Calm (s : Ownership peers) : Prop := ∀ w, s.held w ≤ balanceTarget peers + 1

/-! ## One step -/

variable {s : Ownership peers} {v w : Fin (peers + 1)}

theorem step_held_self (s : Ownership peers) (w : Fin (peers + 1)) :
    (s.step w).held w = s.held w + (s.plan w).acquire - (s.plan w).release :=
  Function.update_self ..

theorem step_free (s : Ownership peers) (w : Fin (peers + 1)) :
    (s.step w).free = s.free - (s.plan w).acquire + (s.plan w).release := rfl

theorem step_held_of_ne (hne : v ≠ w) : (s.step w).held v = s.held v :=
  Function.update_of_ne hne _ _

/-- A worker that has planned is at most one above its target. -/
theorem step_held_le (s : Ownership peers) (w : Fin (peers + 1)) :
    (s.step w).held w ≤ balanceTarget peers + 1 := by
  rw [step_held_self, plan, planBalance]
  dsimp only
  split_ifs with hover
  · dsimp only
    omega
  · dsimp only
    omega

/-- A worker that is not too far above its target releases nothing and fills up to the target. -/
theorem step_of_le (hle : s.held w ≤ balanceTarget peers + 1) :
    (s.step w).held w = s.held w + min (balanceTarget peers - s.held w) s.free ∧
      (s.step w).free = s.free - min (balanceTarget peers - s.held w) s.free := by
  have hplan : s.plan w =
      ⟨balanceTarget peers, min (balanceTarget peers - s.held w) s.free, 0⟩ := by
    rw [plan, planBalance]
    dsimp only
    rw [if_neg (by omega), Nat.zero_min, Nat.max_zero]
  rw [step_held_self, step_free, hplan]
  exact ⟨rfl, rfl⟩

theorem step_le (h : s.held v ≤ balanceTarget peers + 1) (w : Fin (peers + 1)) :
    (s.step w).held v ≤ balanceTarget peers + 1 := by
  by_cases hne : v = w
  · rw [hne]
    exact step_held_le s w
  · rw [step_held_of_ne hne]
    exact h

theorem Calm.step (h : s.Calm) (w : Fin (peers + 1)) : (s.step w).Calm := fun v => step_le (h v) w

/-- In a calm group a step only moves free partitions to its worker. -/
theorem Calm.step_grows (h : s.Calm) (w v : Fin (peers + 1)) :
    s.held v ≤ (s.step w).held v ∧ (s.step w).free ≤ s.free := by
  obtain ⟨hheld, hfree⟩ := step_of_le (h w)
  refine ⟨?_, by omega⟩
  by_cases hne : v = w
  · rw [hne]
    omega
  · rw [step_held_of_ne hne]

/-! ## Rounds -/

theorem run_le {workers : List (Fin (peers + 1))} (h : s.held v ≤ balanceTarget peers + 1) :
    (s.run workers).held v ≤ balanceTarget peers + 1 := by
  induction workers generalizing s with
  | nil => exact h
  | cons w workers ih => exact ih (step_le h w)

/-- **A round in which every worker plans calms the group.** -/
theorem run_calm {workers : List (Fin (peers + 1))} (hall : ∀ w, w ∈ workers) :
    (s.run workers).Calm := by
  intro v
  have hmem := hall v
  clear hall
  induction workers generalizing s with
  | nil => cases hmem
  | cons w workers ih =>
    rcases List.mem_cons.mp hmem with rfl | hmem
    · exact @run_le peers (s.step v) v workers (step_held_le s v)
    · exact ih hmem

theorem Calm.run {workers : List (Fin (peers + 1))} (h : s.Calm) : (s.run workers).Calm :=
  fun v => run_le (h v)

theorem Calm.run_grows {workers : List (Fin (peers + 1))} (h : s.Calm) :
    s.held v ≤ (s.run workers).held v ∧ (s.run workers).free ≤ s.free := by
  induction workers generalizing s with
  | nil => exact ⟨le_rfl, le_rfl⟩
  | cons w workers ih =>
    obtain ⟨hheld, hfree⟩ := h.step_grows w v
    obtain ⟨hheld', hfree'⟩ := ih (h.step w)
    exact ⟨hheld.trans hheld', hfree'.trans hfree⟩

/-- A worker of a calm group that has planned is at its target while partitions are free. -/
theorem Calm.run_target {workers : List (Fin (peers + 1))} (h : s.Calm) (hmem : v ∈ workers)
    (hfree : 0 < (s.run workers).free) : balanceTarget peers ≤ (s.run workers).held v := by
  induction workers generalizing s with
  | nil => cases hmem
  | cons w workers ih =>
    rcases List.mem_cons.mp hmem with rfl | hmem
    · obtain ⟨hheld, hrest⟩ := step_of_le (h v)
      obtain ⟨hgrows, hshrinks⟩ := @run_grows peers (s.step v) v workers (h.step v)
      change 0 < ((s.step v).run workers).free at hfree
      change _ ≤ ((s.step v).run workers).held v
      omega
    · exact ih (h.step w) hmem hfree

/-- **A round of a calm group leaves no partition free**: otherwise every worker has its target, and
the targets cover all partitions. -/
theorem run_takes_all {workers : List (Fin (peers + 1))} (h : s.Calm) (hall : ∀ w, w ∈ workers) :
    (s.run workers).free = 0 := by
  by_contra hne
  have hfree : 0 < (s.run workers).free := Nat.pos_of_ne_zero hne
  have hsum : (peers + 1) * balanceTarget peers ≤ ∑ w, (s.run workers).held w := by
    have hcard := Finset.card_nsmul_le_sum Finset.univ (s.run workers).held (balanceTarget peers)
      fun w _ => h.run_target (hall w) hfree
    rwa [Finset.card_univ, Fintype.card_fin, smul_eq_mul] at hcard
  have hcover := partitions_le_shares peers
  have htotal := (s.run workers).total
  omega

/-- A calm group without free partitions does not move. -/
theorem Calm.step_eq (h : s.Calm) (hfree : s.free = 0) (w : Fin (peers + 1)) : s.step w = s := by
  obtain ⟨hheld, hrest⟩ := step_of_le (h w)
  rw [hfree, Nat.min_zero] at hheld hrest
  refine Ownership.ext (funext fun v => ?_) (hrest.trans hfree.symm)
  by_cases hne : v = w
  · rw [hne]
    exact hheld
  · exact step_held_of_ne hne

/-- **Balancing settles.** After two rounds in each of which every worker plans, in any order, no
partition is free, no worker is more than one above its target, and no step of any worker changes
anything. -/
theorem balancing_settles_after_two_rounds (peers : Nat) (s : Ownership peers)
    (first second : List (Fin (peers + 1))) (hfirst : ∀ w, w ∈ first) (hsecond : ∀ w, w ∈ second) :
    let settled := s.run (first ++ second)
    settled.free = 0 ∧ (∀ w, settled.held w ≤ balanceTarget peers + 1) ∧
      ∀ later, settled.run later = settled := by
  intro settled
  have hsettled : settled = (s.run first).run second := List.foldl_append
  have hcalm : (s.run first).Calm := run_calm hfirst
  have hfree : settled.free = 0 := by
    rw [hsettled]
    exact run_takes_all hcalm hsecond
  have hsecondCalm : settled.Calm := by
    rw [hsettled]
    exact hcalm.run
  refine ⟨hfree, hsecondCalm, fun later => ?_⟩
  induction later with
  | nil => rfl
  | cons w later ih =>
    change (settled.step w).run later = settled
    rw [hsecondCalm.step_eq hfree w]
    exact ih

/-- A worker that holds every partition, and one that joins and plans first. -/
theorem two_workers_settle :
    let s : Ownership 1 := ⟨![512, 0], 0, by decide⟩
    let settled := s.run ([1, 0] ++ [0, 1])
    settled.free = 0 ∧ (∀ w, settled.held w ≤ balanceTarget 1 + 1) ∧
      ∀ later, settled.run later = settled :=
  balancing_settles_after_two_rounds 1 ⟨![512, 0], 0, by decide⟩ [1, 0] [0, 1] (by decide)
    (by decide)

end Ownership

end Harvest.Owner
