import Mathlib
import Harvest.Lib.Run
import Harvest.Fairness.Clock

/-!
# Shares of backlogged keys

Runs of claims, arrivals, departures, prunes and idle resets of one queue. A claim
picks its key among rows that hold at least every backlogged key, and charges it.

Proved here:
* `Tags`: every stored pass is one slot after its start tag.
* `startTag_step`: the start tag of a backlogged key moves only when the key is
  served, and then by one slot.
* `weighted_fairness`: over any interval in which two keys stay backlogged, their
  weighted shares differ by at most one slot of each.
-/

namespace Harvest.Fairness

open Harvest.Lib

/-- A fair clock and the keys that have pending tasks. -/
structure Queue where
  clock : FairClock
  backlog : Finset String

inductive Act (D : Type)
  | claim (rows : List (String × D))
  | arrive (key : String)
  | depart (key : String)
  | prune (isActive : String → Bool)
  | reset (anyActive : Bool)

namespace Queue

def start : Queue := ⟨.empty, ∅⟩

section

variable {D : Type} [LinearOrder D] (weight : String → ℚ)

/-- The key that an action serves. -/
def served (q : Queue) : Act D → Option String
  | .claim rows => q.clock.pick rows
  | _ => none

def step (q : Queue) (act : Act D) : Queue :=
  match act with
  | .claim rows => match q.clock.pick rows with
    | some key => { q with clock := q.clock.charge key (weight key) }
    | none => q
  | .arrive key => { q with backlog := insert key q.backlog }
  | .depart key => { q with backlog := q.backlog.erase key }
  | .prune isActive => { q with clock := (q.clock.prune isActive).1 }
  | .reset anyActive => { q with clock := (q.clock.resetIfIdle anyActive).1 }

/-- Rows hold every backlogged key, and a backlogged key counts as active. -/
def Allowed (q : Queue) : Act D → Prop
  | .claim rows => ∀ key ∈ q.backlog, key ∈ rows.map Prod.fst
  | .prune isActive => ∀ key ∈ q.backlog, isActive key = true
  | .reset anyActive => q.backlog.Nonempty → anyActive = true
  | .arrive _ | .depart _ => True

instance (q : Queue) : (act : Act D) → Decidable (q.Allowed act)
  | .claim rows => inferInstanceAs (Decidable (∀ key ∈ q.backlog, key ∈ rows.map Prod.fst))
  | .prune isActive => inferInstanceAs (Decidable (∀ key ∈ q.backlog, isActive key = true))
  | .reset anyActive => inferInstanceAs (Decidable (q.backlog.Nonempty → anyActive = true))
  | .arrive _ | .depart _ => inferInstanceAs (Decidable True)

/-- How many claims of the run serve `key`. -/
def claims (key : String) : Queue → List (Act D) → Nat
  | _, [] => 0
  | q, act :: rest =>
    (if q.served act = some key then 1 else 0) + claims key (q.step weight act) rest

/-- `key` has pending tasks whenever the run takes an action. -/
def Backlogged (key : String) : Queue → List (Act D) → Prop
  | _, [] => True
  | q, act :: rest => key ∈ q.backlog ∧ Backlogged key (q.step weight act) rest

instance decidableBacklogged (key : String) :
    (q : Queue) → (acts : List (Act D)) → Decidable (Backlogged weight key q acts)
  | _, [] => inferInstanceAs (Decidable True)
  | q, act :: rest =>
    have := decidableBacklogged key (q.step weight act) rest
    inferInstanceAs (Decidable (key ∈ q.backlog ∧ Backlogged weight key (q.step weight act) rest))

end

/-! ## Start tags -/

/-- Every stored pass is one slot after the start tag of its last claim. -/
def Tags (weight : String → ℚ) (c : FairClock) : Prop :=
  ∀ (key : String) (p : FairPass), c.keys[key]? = some p →
    p.pass = p.lastStart + 1 / weight key

theorem Tags.startTag_le {weight : String → ℚ} {c : FairClock} (h : Tags weight c)
    (hweight : ∀ key, 0 < weight key) (key : String) :
    c.startTag key ≤ c.vclock + 1 / weight key := by
  have hslot : 0 < 1 / weight key := one_div_pos.mpr (hweight key)
  unfold FairClock.startTag fairStart
  cases hp : c.keys[key]? with
  | none => simpa using (hweight key).le
  | some p =>
    have hpass := h key p hp
    have hlast := c.lastStart_le_vclock hp
    simp only [Option.map_some, Option.getD_some]
    exact max_le (by linarith) (by linarith)

variable {D : Type} [LinearOrder D] {weight : String → ℚ}

theorem Tags.step {q : Queue} (h : Tags weight q.clock) (act : Act D) :
    Tags weight (q.step weight act).clock := by
  intro key p hp
  cases act with
  | claim rows =>
    simp only [Queue.step] at hp
    split at hp
    · rename_i charged _
      rw [FairClock.charge_state] at hp
      split at hp
      · rename_i heq
        obtain rfl := Option.some.inj hp
        rw [heq]
      · exact h key p hp
    · exact h key p hp
  | arrive other => exact h key p hp
  | depart other => exact h key p hp
  | prune isActive =>
    simp only [Queue.step, FairClock.prune_state] at hp
    split at hp
    · exact h key p hp
    · cases hp
  | reset anyActive =>
    simp only [Queue.step, FairClock.resetIfIdle] at hp
    split at hp
    · exact h key p hp
    · simp [FairClock.empty] at hp

/-- **Step lemma.** The start tag of a backlogged key moves by one slot when the key
is served, and stays otherwise. -/
theorem startTag_step {q : Queue} (hweight : ∀ key, 0 < weight key) {act : Act D}
    (hallowed : q.Allowed act) {key : String} (hkey : key ∈ q.backlog) :
    (q.step weight act).clock.startTag key =
      q.clock.startTag key + (if q.served act = some key then 1 else 0) * (1 / weight key) := by
  cases act with
  | claim rows =>
    obtain ⟨due, hrow⟩ : ∃ due, (key, due) ∈ rows := by
      simpa using hallowed key hkey
    cases hpick : q.clock.pick rows with
    | none => simp [Queue.step, Queue.served, hpick]
    | some charged =>
      simp only [Queue.step, Queue.served, hpick, Option.some.injEq]
      by_cases heq : charged = key
      · rw [heq]
        simp [FairClock.startTag_charge_self q.clock key (hweight key)]
      · have hle := q.clock.pick_startTag_le hpick hrow
        simp [heq, q.clock.startTag_charge_other heq (weight charged) hle]
  | arrive other => simp [Queue.step, Queue.served]
  | depart other => simp [Queue.step, Queue.served]
  | prune isActive =>
    simp [Queue.step, Queue.served, q.clock.startTag_prune (hallowed key hkey)]
  | reset anyActive =>
    have hactive : anyActive = true := hallowed ⟨key, hkey⟩
    simp [Queue.step, Queue.served, FairClock.resetIfIdle, hactive]

/-- **Run lemma.** Over an interval, the start tag of a backlogged key moves by one
slot per claim that served it. -/
theorem startTag_run (hweight : ∀ key, 0 < weight key) {key : String} {q : Queue}
    {acts : List (Act D)} (hlegal : Legal (step weight) Allowed q acts)
    (hkey : Backlogged weight key q acts) :
    (exec (step weight) q acts).clock.startTag key =
      q.clock.startTag key + claims weight key q acts / weight key := by
  induction acts generalizing q with
  | nil => simp [claims]
  | cons act acts ih =>
    rw [exec_cons, ih hlegal.2 hkey.2, startTag_step hweight hlegal.1 hkey.1]
    simp only [claims]
    push_cast
    ring

theorem tags_run (weight : String → ℚ) (acts : List (Act D)) :
    Tags weight (exec (step weight) start acts).clock := by
  induction acts using List.reverseRecOn with
  | nil =>
    intro key p hp
    simp [start, FairClock.empty] at hp
  | append_singleton acts act ih =>
    rw [exec_append]
    exact ih.step act

/-- **Weighted fairness.** In a run from the empty clock, over any interval in which
`i` and `j` stay backlogged, their claims weighted by `1 / w` differ by at most one
slot of each. -/
theorem weighted_fairness (weight : String → ℚ) (hweight : ∀ key, 0 < weight key)
    (earlier interval : List (Act D))
    (hlegal : Legal (step weight) Allowed start (earlier ++ interval)) (i j : String)
    (hi : Backlogged weight i (exec (step weight) start earlier) interval)
    (hj : Backlogged weight j (exec (step weight) start earlier) interval) :
    |(claims weight i (exec (step weight) start earlier) interval : ℚ) / weight i -
        claims weight j (exec (step weight) start earlier) interval / weight j| ≤
      1 / weight i + 1 / weight j := by
  obtain ⟨_, hinterval⟩ := (legal_append _ _ _ earlier interval).mp hlegal
  have hbefore := tags_run weight earlier
  have hafter := tags_run weight (earlier ++ interval)
  rw [exec_append] at hafter
  have hruni := startTag_run hweight hinterval hi
  have hrunj := startTag_run hweight hinterval hj
  generalize exec (step weight) start earlier = q at *
  generalize exec (step weight) q interval = q' at *
  -- At both ends every start tag lies in `[V, V + 1 / w]`.
  have hbi := hbefore.startTag_le hweight i
  have hbj := hbefore.startTag_le hweight j
  have hai := hafter.startTag_le hweight i
  have haj := hafter.startTag_le hweight j
  have hvi := q.clock.vclock_le_startTag i
  have hvj := q.clock.vclock_le_startTag j
  have hvi' := q'.clock.vclock_le_startTag i
  have hvj' := q'.clock.vclock_le_startTag j
  exact abs_le.mpr ⟨by linarith, by linarith⟩

/-- Two keys of weights 1 and 2 over three claims, after the light key ran ahead. -/
theorem weighted_fairness_two_keys :
    let weight : String → ℚ := fun key => if key = "b" then 2 else 1
    let rows : List (String × Nat) := [("a", 0), ("b", 1)]
    let earlier : List (Act Nat) := [.arrive "a", .claim [("a", 0)], .arrive "b"]
    let interval : List (Act Nat) := [.claim rows, .claim rows, .prune fun _ => true, .claim rows]
    |(claims weight "a" (exec (step weight) start earlier) interval : ℚ) / weight "a" -
        claims weight "b" (exec (step weight) start earlier) interval / weight "b"| ≤
      1 / weight "a" + 1 / weight "b" := by
  intro weight rows earlier interval
  have hweight : ∀ key, 0 < weight key := by
    intro key
    simp only [weight]
    split <;> norm_num
  exact weighted_fairness weight hweight earlier interval (by decide) "a" "b" (by decide)
    (by decide)

end Queue
end Harvest.Fairness
