import Mathlib.Data.List.Sort
import Mathlib.Data.Rat.Floor
import Mathlib.Data.Set.Card
import Mathlib.Data.String.Basic
import Harvest.Lib.Run
import Harvest.Lib.Tally
import Harvest.AdaptiveLimit.Limiter

/-!
# The registry of adaptive limits

Model of `AdaptiveLimitRegistry` and `LimitPermit` in `adaptive_limit.rs`. The state of all types is
behind one lock, so a call is one step; only the counter of saturated types is read without it.

Proved here:
* `step_lookup`: a call changes the limiter of one type, by the effect of the call.
* `Consistent.step`: the counts of the registry agree with the permits that are held.
* `unanswered_run`: a probe without an answer goes on, with a cap that does not grow.
-/

namespace Harvest.AdaptiveLimit

open Harvest.Lib

variable {K : Type} [Field K] [LinearOrder K]

/-! ## Configuration -/

structure AdaptiveLimitConfig (K : Type) [Field K] [LinearOrder K] where
  defaultPolicy : Option (AdaptiveLimitPolicy K)
  overrides : String → Option (Option (AdaptiveLimitPolicy K))

/-- The policy of the type; `none` when it has no limit. -/
def AdaptiveLimitConfig.policyFor (config : AdaptiveLimitConfig K) (activityName : String) :
    Option (AdaptiveLimitPolicy K) :=
  (config.overrides activityName).getD config.defaultPolicy

/-! ## Registry -/

/-- One attempt in flight. -/
structure LimitPermit where
  activityName : String
  epoch : ℕ
  /-- Attempts in flight when this one started, itself included. -/
  inFlight : ℕ
deriving DecidableEq, Repr

inductive Acquire
  | untracked
  | acquired (permit : LimitPermit)
  | limited (retryAfter : ℕ)

structure AdaptiveLimitRegistry (K : Type) [Field K] [LinearOrder K] where
  config : AdaptiveLimitConfig K
  limiters : AList fun _ : String => Limiter K
  /-- Activity types at their cap. -/
  saturatedCount : ℕ

/-- `MIN_LIMIT_DEFER` -/
def minLimitDefer : ℕ := 50000000

/-- `MAX_LIMIT_DEFER` -/
def maxLimitDefer : ℕ := 5000000000

/-- The delay of a task that found the type at its cap. The jitter multiplies a duration by a random
factor. -/
def Limiter.deferDelay (l : Limiter K) (jitter : ℕ → ℕ) : ℕ :=
  max minLimitDefer (min maxLimitDefer (jitter (min (l.baseline.getD minLimitDefer) maxLimitDefer)))

namespace AdaptiveLimitRegistry

def new (config : AdaptiveLimitConfig K) : AdaptiveLimitRegistry K := ⟨config, ∅, 0⟩

variable [FloorSemiring K]

/-- The counter after a change of one limiter. -/
def recount (saturatedCount : ℕ) : Bool → Bool → ℕ
  | false, true => saturatedCount + 1
  | true, false => saturatedCount - 1
  | _, _ => saturatedCount

/-- The limiter of the type, which is created when there is none. -/
def limiterOf (r : AdaptiveLimitRegistry K) (activityName : String)
    (policy : AdaptiveLimitPolicy K) : Limiter K :=
  (r.limiters.lookup activityName).getD (.new policy)

/-- Runs the function on the limiter of the type. -/
def withLimiter {T : Type} (r : AdaptiveLimitRegistry K) (activityName : String)
    (f : Limiter K → T × Limiter K) : Option T × AdaptiveLimitRegistry K :=
  match r.config.policyFor activityName with
  | none => (none, r)
  | some policy =>
    let before := r.limiterOf activityName policy
    let (out, after) := f before
    (some out, { r with
      limiters := r.limiters.insert activityName after
      saturatedCount := recount r.saturatedCount before.isSaturated after.isSaturated })

def tryAcquire (r : AdaptiveLimitRegistry K) (activityName : String) (jitter : ℕ → ℕ) :
    Acquire × AdaptiveLimitRegistry K :=
  let (taken, r) := r.withLimiter activityName fun limiter =>
    if limiter.cap ≤ limiter.inFlight then
      ((.error (limiter.deferDelay jitter) : Except ℕ (ℕ × ℕ)), limiter)
    else (.ok (limiter.epoch, limiter.inFlight + 1),
      { limiter with inFlight := limiter.inFlight + 1 })
  match taken with
  | none => (.untracked, r)
  | some (.error retryAfter) => (.limited retryAfter, r)
  | some (.ok (epoch, inFlight)) => (.acquired ⟨activityName, epoch, inFlight⟩, r)

/-- Frees one slot and applies the sample: epoch, latency, attempts in flight at the start, and
outcome. -/
def release (r : AdaptiveLimitRegistry K) (activityName : String)
    (sample : Option (ℕ × ℕ × ℕ × SampleOutcome)) : AdaptiveLimitRegistry K :=
  (r.withLimiter activityName fun limiter =>
    let limiter := { limiter with inFlight := limiter.inFlight - 1 }
    match sample with
    | some (epoch, latency, inFlight, outcome) =>
      ((), limiter.onSample epoch latency inFlight outcome)
    | none => ((), limiter)).2

/-- The names under the lock, when the counter was seen before. -/
def saturatedSeen (r : AdaptiveLimitRegistry K) (seen : ℕ) : List String :=
  if 0 < seen then (passing Limiter.isSaturated r.limiters).insertionSort (· ≤ ·) else []

def saturated (r : AdaptiveLimitRegistry K) : List String := r.saturatedSeen r.saturatedCount

end AdaptiveLimitRegistry

namespace LimitPermit

variable [FloorSemiring K]

def complete (permit : LimitPermit) (r : AdaptiveLimitRegistry K) (latency : ℕ)
    (outcome : SampleOutcome) : AdaptiveLimitRegistry K :=
  r.release permit.activityName (some (permit.epoch, latency, permit.inFlight, outcome))

def drop (permit : LimitPermit) (r : AdaptiveLimitRegistry K) : AdaptiveLimitRegistry K :=
  r.release permit.activityName none

end LimitPermit

/-! ## Sessions -/

/-- A call on the registry or on a permit. -/
inductive Act
  | tryAcquire (activityName : String) (jitter : ℕ → ℕ)
  | complete (permit : LimitPermit) (latency : ℕ) (outcome : SampleOutcome)
  | drop (permit : LimitPermit)

/-- The registry and the permits that are held. -/
structure Session (K : Type) [Field K] [LinearOrder K] where
  registry : AdaptiveLimitRegistry K
  outstanding : List LimitPermit

namespace Session

def new (config : AdaptiveLimitConfig K) : Session K := ⟨.new config, []⟩

/-- The permits of the type that are held. -/
def held (s : Session K) (activityName : String) : ℕ :=
  s.outstanding.countP fun permit => permit.activityName = activityName

def noteAcquire (s : Session K) : Acquire → Session K
  | .acquired permit => { s with outstanding := permit :: s.outstanding }
  | _ => s

variable [FloorSemiring K]

def step (s : Session K) : Act → Session K
  | .tryAcquire activityName jitter =>
    let (taken, registry) := s.registry.tryAcquire activityName jitter
    { s with registry := registry }.noteAcquire taken
  | .complete permit latency outcome =>
    ⟨permit.complete s.registry latency outcome, s.outstanding.erase permit⟩
  | .drop permit => ⟨permit.drop s.registry, s.outstanding.erase permit⟩

/-- A permit is completed or dropped once. -/
def Allowed (s : Session K) : Act → Prop
  | .tryAcquire _ _ => True
  | .complete permit _ _ | .drop permit => permit ∈ s.outstanding

/-- The type is at its cap or over it. -/
def AtCap (s : Session K) (activityName : String) : Prop :=
  ∃ l, s.registry.limiters.lookup activityName = some l ∧ l.cap ≤ s.held activityName

end Session

/-! ## The effect of a call -/

section Effect

variable [FloorSemiring K]

def Act.activityName : Act → String
  | .tryAcquire activityName _ => activityName
  | .complete permit _ _ | .drop permit => permit.activityName

/-- What the call does to the limiter of its type. -/
def Act.effect : Act → Limiter K → Limiter K
  | .tryAcquire _ _, l => if l.cap ≤ l.inFlight then l else { l with inFlight := l.inFlight + 1 }
  | .complete permit latency outcome, l =>
    { l with inFlight := l.inFlight - 1 }.onSample permit.epoch latency permit.inFlight outcome
  | .drop _, l => { l with inFlight := l.inFlight - 1 }

/-- The registry after one limiter has changed. -/
def AdaptiveLimitRegistry.put (r : AdaptiveLimitRegistry K) (activityName : String)
    (before after : Limiter K) : AdaptiveLimitRegistry K :=
  { r with
    limiters := r.limiters.insert activityName after
    saturatedCount :=
      AdaptiveLimitRegistry.recount r.saturatedCount before.isSaturated after.isSaturated }

namespace Session

variable {s : Session K} {act : Act} {policy : AdaptiveLimitPolicy K}

theorem step_of_none (h : s.registry.config.policyFor act.activityName = none) :
    (s.step act).registry = s.registry := by
  cases act with
  | tryAcquire activityName jitter =>
    simp only [Act.activityName] at h
    simp [step, AdaptiveLimitRegistry.tryAcquire, AdaptiveLimitRegistry.withLimiter, h, noteAcquire]
  | complete permit latency outcome =>
    simp only [Act.activityName] at h
    simp [step, LimitPermit.complete, AdaptiveLimitRegistry.release,
      AdaptiveLimitRegistry.withLimiter, h]
  | drop permit =>
    simp only [Act.activityName] at h
    simp [step, LimitPermit.drop, AdaptiveLimitRegistry.release,
      AdaptiveLimitRegistry.withLimiter, h]

theorem step_of_policy (h : s.registry.config.policyFor act.activityName = some policy) :
    (s.step act).registry = s.registry.put act.activityName
      (s.registry.limiterOf act.activityName policy)
      (act.effect (s.registry.limiterOf act.activityName policy)) := by
  cases act with
  | tryAcquire activityName jitter =>
    simp only [Act.activityName] at h ⊢
    by_cases hcap : (s.registry.limiterOf activityName policy).cap ≤
        (s.registry.limiterOf activityName policy).inFlight
    · simp [step, AdaptiveLimitRegistry.tryAcquire, AdaptiveLimitRegistry.withLimiter, h,
        noteAcquire, hcap, Act.effect, AdaptiveLimitRegistry.put]
    · simp [step, AdaptiveLimitRegistry.tryAcquire, AdaptiveLimitRegistry.withLimiter, h,
        noteAcquire, hcap, Act.effect, AdaptiveLimitRegistry.put]
  | complete permit latency outcome =>
    simp only [Act.activityName] at h ⊢
    simp [step, LimitPermit.complete, AdaptiveLimitRegistry.release,
      AdaptiveLimitRegistry.withLimiter, h, Act.effect, AdaptiveLimitRegistry.put]
  | drop permit =>
    simp only [Act.activityName] at h ⊢
    simp [step, LimitPermit.drop, AdaptiveLimitRegistry.release,
      AdaptiveLimitRegistry.withLimiter, h, Act.effect, AdaptiveLimitRegistry.put]

@[simp] theorem step_config (s : Session K) (act : Act) :
    (s.step act).registry.config = s.registry.config := by
  cases h : s.registry.config.policyFor act.activityName with
  | none => rw [step_of_none h]
  | some policy => rw [step_of_policy h]; rfl

theorem exec_config (s : Session K) (acts : List Act) :
    (exec step s acts).registry.config = s.registry.config := by
  induction acts generalizing s with
  | nil => rfl
  | cons act rest ih => rw [exec_cons, ih, step_config]

/-- A call leaves the limiter of a type, or applies its effect to it. -/
theorem step_lookup (s : Session K) (act : Act) (activityName : String) :
    (s.step act).registry.limiters.lookup activityName =
        s.registry.limiters.lookup activityName ∨
      act.activityName = activityName ∧ ∃ policy,
        s.registry.config.policyFor activityName = some policy ∧
        (s.step act).registry.limiters.lookup activityName =
          some (act.effect (s.registry.limiterOf activityName policy)) := by
  cases h : s.registry.config.policyFor act.activityName with
  | none =>
    rw [step_of_none h]
    exact .inl rfl
  | some policy =>
    rw [step_of_policy h]
    by_cases hname : act.activityName = activityName
    · subst hname
      exact .inr ⟨rfl, policy, h, AList.lookup_insert _⟩
    · exact .inl (AList.lookup_insert_ne (Ne.symm hname))

omit [FloorSemiring K] in
theorem limiterOf_inFlight (r : AdaptiveLimitRegistry K) (activityName : String)
    (policy : AdaptiveLimitPolicy K) : (r.limiterOf activityName policy).inFlight =
      (r.limiters.lookup activityName).elim 0 Limiter.inFlight := by
  unfold AdaptiveLimitRegistry.limiterOf
  cases r.limiters.lookup activityName <;> rfl

/-- A permit is handed out when fewer than the cap are in flight. -/
theorem tryAcquire_outstanding {activityName : String}
    (h : s.registry.config.policyFor activityName = some policy) (jitter : ℕ → ℕ) :
    (s.step (.tryAcquire activityName jitter)).outstanding =
      let l := s.registry.limiterOf activityName policy
      if l.cap ≤ l.inFlight then s.outstanding
      else ⟨activityName, l.epoch, l.inFlight + 1⟩ :: s.outstanding := by
  dsimp only
  split <;> rename_i hcap <;>
    simp [step, AdaptiveLimitRegistry.tryAcquire, AdaptiveLimitRegistry.withLimiter, h,
      noteAcquire, hcap]

theorem tryAcquire_outstanding_of_none {activityName : String}
    (h : s.registry.config.policyFor activityName = none) (jitter : ℕ → ℕ) :
    (s.step (.tryAcquire activityName jitter)).outstanding = s.outstanding := by
  simp [step, AdaptiveLimitRegistry.tryAcquire, AdaptiveLimitRegistry.withLimiter, h, noteAcquire]

theorem acquired_iff (s : Session K) (activityName : String) (jitter : ℕ → ℕ) :
    (∃ permit, (s.registry.tryAcquire activityName jitter).1 = .acquired permit) ↔
      ∃ policy, s.registry.config.policyFor activityName = some policy ∧
        (s.registry.limiterOf activityName policy).inFlight <
          (s.registry.limiterOf activityName policy).cap := by
  cases h : s.registry.config.policyFor activityName with
  | none => simp [AdaptiveLimitRegistry.tryAcquire, AdaptiveLimitRegistry.withLimiter, h]
  | some policy =>
    by_cases hcap : (s.registry.limiterOf activityName policy).cap ≤
        (s.registry.limiterOf activityName policy).inFlight
    · simp [AdaptiveLimitRegistry.tryAcquire, AdaptiveLimitRegistry.withLimiter, h, hcap]
    · simp [AdaptiveLimitRegistry.tryAcquire, AdaptiveLimitRegistry.withLimiter, h, hcap,
        Nat.lt_of_not_le hcap]

end Session

end Effect

/-! ## Counts -/

section Counts

variable [FloorSemiring K]

/-- The number of permits of a type after one of them was given back. -/
theorem countP_erase_permit {outstanding : List LimitPermit} {permit : LimitPermit}
    (h : permit ∈ outstanding) (activityName : String) :
    (outstanding.erase permit).countP (fun p => decide (p.activityName = activityName)) +
        (if permit.activityName = activityName then 1 else 0) =
      outstanding.countP fun p => decide (p.activityName = activityName) := by
  rw [(List.perm_cons_erase h).countP_eq, List.countP_cons]
  simp

/-- The counter follows one limiter. -/
theorem tally_put {r : AdaptiveLimitRegistry K}
    (h : r.saturatedCount = tally Limiter.isSaturated r.limiters) (activityName : String)
    (policy : AdaptiveLimitPolicy K) (after : Limiter K) :
    (r.put activityName (r.limiterOf activityName policy) after).saturatedCount =
      tally Limiter.isSaturated
        (r.put activityName (r.limiterOf activityName policy) after).limiters := by
  simp only [AdaptiveLimitRegistry.put, AdaptiveLimitRegistry.limiterOf]
  cases hlookup : r.limiters.lookup activityName with
  | none =>
    have hnew : (Limiter.new policy).isSaturated = false := by
      have hcap := (Limiter.new policy).one_le_cap
      simp only [Limiter.isSaturated, decide_eq_false_iff_not, not_le]
      exact hcap
    rw [tally_insert_of_none hlookup, Option.getD_none, hnew, h]
    cases after.isSaturated <;> rfl
  | some before =>
    have hcount := @tally_insert_of_lookup _ _ Limiter.isSaturated _ _ _ _ hlookup after
    rw [Option.getD_some, h]
    cases hb : before.isSaturated <;> cases ha : after.isSaturated <;>
      simp only [hb, ha, Bool.toNat_true, Bool.toNat_false, AdaptiveLimitRegistry.recount]
        at hcount ⊢ <;> omega

variable [IsStrictOrderedRing K]

namespace Act

theorem effect_inRange {l : Limiter K} (h : l.InRange) (act : Act) : (act.effect l).InRange := by
  cases act with
  | tryAcquire activityName jitter =>
    simp only [effect]
    split
    · exact h
    · exact ⟨h.1, h.2, h.3, h.4⟩
  | complete permit latency outcome =>
    have hfreed : { l with inFlight := l.inFlight - 1 }.InRange := ⟨h.1, h.2, h.3, h.4⟩
    exact hfreed.onSample _ _ _ _
  | drop permit => exact ⟨h.1, h.2, h.3, h.4⟩

omit [IsStrictOrderedRing K] in
theorem effect_policy (l : Limiter K) (act : Act) : (act.effect l).policy = l.policy := by
  cases act with
  | tryAcquire activityName jitter =>
    simp only [effect]
    split <;> rfl
  | complete permit latency outcome => exact (Limiter.onSample_keeps _ _ _ _ _).1
  | drop permit => rfl

omit [IsStrictOrderedRing K] in
/-- A call keeps the epoch or starts a probe. -/
theorem effect_epoch {l : Limiter K} (h : l.InRange) (act : Act) :
    (act.effect l).epoch = l.epoch ∨ Limiter.Probed l (act.effect l) := by
  cases act with
  | tryAcquire activityName jitter =>
    simp only [effect]
    split <;> exact .inl rfl
  | complete permit latency outcome =>
    have hfreed : { l with inFlight := l.inFlight - 1 }.InRange := ⟨h.1, h.2, h.3, h.4⟩
    obtain hkept | hprobed :=
      hfreed.onSample_epoch permit.epoch latency permit.inFlight outcome
    · exact .inl hkept
    · exact .inr ⟨hprobed.1, hprobed.2, hprobed.3⟩
  | drop permit => exact .inl rfl

end Act

/-- The registry agrees with the permits that are held. -/
structure Consistent (s : Session K) : Prop where
  inRange : ∀ activityName l, s.registry.limiters.lookup activityName = some l → l.InRange
  counted : ∀ activityName,
    (s.registry.limiters.lookup activityName).elim 0 Limiter.inFlight = s.held activityName
  tracked : ∀ permit ∈ s.outstanding,
    ∃ policy, s.registry.config.policyFor permit.activityName = some policy
  saturated : s.registry.saturatedCount = tally Limiter.isSaturated s.registry.limiters

omit [IsStrictOrderedRing K] in
theorem consistent_new (config : AdaptiveLimitConfig K) : Consistent (Session.new config) where
  inRange _ _ h := by cases h
  counted _ := rfl
  tracked _ h := by cases h
  saturated := rfl

namespace Consistent

variable {s : Session K} {act : Act}

theorem limiterOf_inRange (h : Consistent s) (activityName : String)
    (policy : AdaptiveLimitPolicy K) : (s.registry.limiterOf activityName policy).InRange := by
  unfold AdaptiveLimitRegistry.limiterOf
  cases hlookup : s.registry.limiters.lookup activityName with
  | none => exact Limiter.inRange_new policy
  | some l => exact h.inRange activityName l hlookup

omit [IsStrictOrderedRing K] in
theorem limiterOf_inFlight (h : Consistent s) (activityName : String)
    (policy : AdaptiveLimitPolicy K) :
    (s.registry.limiterOf activityName policy).inFlight = s.held activityName := by
  rw [Session.limiterOf_inFlight, h.counted]

omit [IsStrictOrderedRing K] in
theorem lookup_inFlight (h : Consistent s) {activityName : String} {l : Limiter K}
    (hl : s.registry.limiters.lookup activityName = some l) :
    l.inFlight = s.held activityName := by
  have hcounted := h.counted activityName
  rw [hl] at hcounted
  exact hcounted

omit [IsStrictOrderedRing K] in
/-- The permits of the type after an allowed call, as its limiter counts them. -/
theorem step_held (h : Consistent s) (hallowed : s.Allowed act) {policy : AdaptiveLimitPolicy K}
    (hpolicy : s.registry.config.policyFor act.activityName = some policy) :
    (s.step act).held act.activityName =
      (act.effect (s.registry.limiterOf act.activityName policy)).inFlight := by
  have hheld := h.limiterOf_inFlight act.activityName policy
  cases act with
  | tryAcquire activityName jitter =>
    simp only [Act.activityName] at hpolicy hheld ⊢
    rw [Session.held, Session.tryAcquire_outstanding hpolicy]
    simp only [Act.effect]
    split
    · exact hheld.symm
    · rw [List.countP_cons_of_pos (by simp)]
      exact congrArg (· + 1) hheld.symm
  | complete permit latency outcome =>
    have hfreed := countP_erase_permit hallowed permit.activityName
    rw [if_pos rfl] at hfreed
    have hkept : ((Act.complete permit latency outcome).effect
        (s.registry.limiterOf permit.activityName policy)).inFlight =
        (s.registry.limiterOf permit.activityName policy).inFlight - 1 :=
      (Limiter.onSample_keeps _ _ _ _ _).2
    exact (Nat.eq_sub_of_add_eq hfreed).trans ((congrArg (· - 1) hheld.symm).trans hkept.symm)
  | drop permit =>
    have hfreed := countP_erase_permit hallowed permit.activityName
    rw [if_pos rfl] at hfreed
    exact (Nat.eq_sub_of_add_eq hfreed).trans (congrArg (· - 1) hheld.symm)

omit [IsStrictOrderedRing K] in
/-- The permits of the other types stay. -/
theorem step_held_of_ne (hallowed : s.Allowed act) {activityName : String}
    (hname : act.activityName ≠ activityName) :
    (s.step act).held activityName = s.held activityName := by
  cases act with
  | tryAcquire name jitter =>
    cases hpolicy : s.registry.config.policyFor name with
    | none => rw [Session.held, Session.tryAcquire_outstanding_of_none hpolicy, Session.held]
    | some policy =>
      rw [Session.held, Session.tryAcquire_outstanding hpolicy]
      dsimp only
      split
      · rfl
      · rw [List.countP_cons_of_neg (by simpa [Act.activityName] using hname), Session.held]
  | complete permit latency outcome | drop permit =>
    have hother : permit.activityName ≠ activityName := hname
    have herase := countP_erase_permit hallowed activityName
    rw [if_neg hother] at herase
    exact herase

omit [IsStrictOrderedRing K] in
theorem step_tracked (h : Consistent s) (permit : LimitPermit)
    (hmem : permit ∈ (s.step act).outstanding) :
    ∃ policy, s.registry.config.policyFor permit.activityName = some policy := by
  cases act with
  | tryAcquire name jitter =>
    cases hpolicy : s.registry.config.policyFor name with
    | none =>
      rw [Session.tryAcquire_outstanding_of_none hpolicy] at hmem
      exact h.tracked permit hmem
    | some policy =>
      rw [Session.tryAcquire_outstanding hpolicy] at hmem
      dsimp only at hmem
      split at hmem
      · exact h.tracked permit hmem
      · obtain rfl | hmem := List.mem_cons.mp hmem
        · exact ⟨policy, hpolicy⟩
        · exact h.tracked permit hmem
  | complete given latency outcome => exact h.tracked permit (List.mem_of_mem_erase hmem)
  | drop given => exact h.tracked permit (List.mem_of_mem_erase hmem)

omit [IsStrictOrderedRing K] in
/-- The type of an allowed call that has no limit holds no permit. -/
theorem step_outstanding_of_none (h : Consistent s) (hallowed : s.Allowed act)
    (hpolicy : s.registry.config.policyFor act.activityName = none) :
    (s.step act).outstanding = s.outstanding := by
  cases act with
  | tryAcquire name jitter => exact Session.tryAcquire_outstanding_of_none hpolicy jitter
  | complete permit latency outcome | drop permit =>
    obtain ⟨policy, hsome⟩ := h.tracked permit hallowed
    rw [Act.activityName] at hpolicy
    rw [hpolicy] at hsome
    cases hsome

theorem step (h : Consistent s) (hallowed : s.Allowed act) : Consistent (s.step act) := by
  have htracked : ∀ permit ∈ (s.step act).outstanding,
      ∃ policy, (s.step act).registry.config.policyFor permit.activityName = some policy := by
    rw [Session.step_config]
    exact fun permit hmem => h.step_tracked permit hmem
  cases hpolicy : s.registry.config.policyFor act.activityName with
  | none =>
    have hsame : s.step act = s := by
      have hregistry := Session.step_of_none hpolicy
      have houtstanding := h.step_outstanding_of_none hallowed hpolicy
      cases hs : s.step act
      cases s
      simp_all
    rw [hsame]
    exact h
  | some policy =>
    refine ⟨fun name l hl => ?_, fun name => ?_, htracked, ?_⟩
    · obtain hsame | ⟨-, policy', -, heffect⟩ := Session.step_lookup s act name
      · exact h.inRange name l (hsame.symm.trans hl)
      · obtain rfl := Option.some.inj (heffect.symm.trans hl)
        exact Act.effect_inRange (h.limiterOf_inRange name policy') act
    · rw [Session.step_of_policy hpolicy]
      simp only [AdaptiveLimitRegistry.put]
      by_cases hname : act.activityName = name
      · subst hname
        rw [AList.lookup_insert, h.step_held hallowed hpolicy]
        rfl
      · rw [AList.lookup_insert_ne (Ne.symm hname), step_held_of_ne hallowed hname, h.counted]
    · rw [Session.step_of_policy hpolicy]
      exact tally_put h.saturated _ policy _

theorem run (config : AdaptiveLimitConfig K) {acts : List Act}
    (hlegal : Legal Session.step Session.Allowed (.new config) acts) :
    Consistent (exec Session.step (.new config) acts) :=
  invariant (fun _ _ h hallowed => h.step hallowed) (consistent_new config) hlegal

end Consistent

end Counts

/-! ## Probes -/

/-- The run completes an answer of that type and epoch. -/
def Heard (acts : List Act) (activityName : String) (epoch : ℕ) : Prop :=
  ∃ permit latency, Act.complete permit latency .answered ∈ acts ∧
    permit.activityName = activityName ∧ permit.epoch = epoch

theorem Heard.mono {acts more : List Act} {activityName : String} {epoch : ℕ} (h : acts ⊆ more)
    (hheard : Heard acts activityName epoch) : Heard more activityName epoch := by
  obtain ⟨permit, latency, hmem, hname⟩ := hheard
  exact ⟨permit, latency, h hmem, hname⟩

section Probes

theorem limiterOf_of_lookup {r : AdaptiveLimitRegistry K} {activityName : String} {l : Limiter K}
    (h : r.limiters.lookup activityName = some l) (policy : AdaptiveLimitPolicy K) :
    r.limiterOf activityName policy = l := by
  unfold AdaptiveLimitRegistry.limiterOf
  rw [h, Option.getD_some]

variable [FloorSemiring K]

/-- A call that is no answer to the probe leaves it unanswered, and does not raise the limit. -/
theorem Act.effect_of_unanswered {l : Limiter K} (hl : l.Unanswered) {act : Act}
    (h : ¬ Heard [act] act.activityName l.epoch) :
    (act.effect l).Unanswered ∧ (act.effect l).epoch = l.epoch ∧
      (act.effect l).limit ≤ l.limit := by
  cases act with
  | tryAcquire activityName jitter =>
    simp only [effect]
    split <;> exact ⟨hl, rfl, le_rfl⟩
  | complete permit latency outcome =>
    have hsample : permit.epoch = { l with inFlight := l.inFlight - 1 }.epoch →
        outcome = .overloaded := by
      intro hepoch
      cases outcome with
      | answered => exact absurd ⟨permit, latency, List.mem_singleton_self _, rfl, hepoch⟩ h
      | overloaded => rfl
    have hfreed : { l with inFlight := l.inFlight - 1 }.Unanswered := hl
    exact Limiter.onSample_of_unanswered hfreed hsample latency permit.inFlight
  | drop permit => exact ⟨hl, rfl, le_rfl⟩

/-- Without an answer the probe of a type goes on, and its cap does not grow. -/
theorem unanswered_run {s : Session K} {activityName : String} {l : Limiter K}
    (hlookup : s.registry.limiters.lookup activityName = some l) (hl : l.Unanswered)
    {more : List Act} (h : ¬ Heard more activityName l.epoch) :
    ∃ l', (exec Session.step s more).registry.limiters.lookup activityName = some l' ∧
      l'.Unanswered ∧ l'.epoch = l.epoch ∧ l'.policy = l.policy ∧ l'.limit ≤ l.limit := by
  induction more generalizing s l with
  | nil => exact ⟨l, hlookup, hl, rfl, rfl, le_rfl⟩
  | cons act rest ih =>
    have hrest : ¬ Heard rest activityName l.epoch :=
      fun hheard => h (hheard.mono (List.subset_cons_self _ _))
    obtain hsame | ⟨rfl, policy, -, heffect⟩ := Session.step_lookup s act activityName
    · exact ih (hsame.trans hlookup) hl hrest
    · have hact : ¬ Heard [act] act.activityName l.epoch :=
        fun hheard => h (hheard.mono (by simp))
      rw [limiterOf_of_lookup hlookup] at heffect
      obtain ⟨hnext, hepoch, hlimit⟩ := Act.effect_of_unanswered hl hact
      obtain ⟨l', hl', hun, hepoch', hpolicy', hlimit'⟩ := ih heffect hnext (hepoch ▸ hrest)
      exact ⟨l', hl', hun, hepoch'.trans hepoch, hpolicy'.trans (Act.effect_policy l act),
        hlimit'.trans hlimit⟩

variable [IsStrictOrderedRing K]

/-- A probe is unanswered until the run has an answer of its epoch. -/
theorem unanswered_or_heard (config : AdaptiveLimitConfig K) {acts : List Act}
    (hlegal : Legal Session.step Session.Allowed (.new config) acts) {activityName : String}
    {l : Limiter K} (hlookup :
      (exec Session.step (.new config) acts).registry.limiters.lookup activityName = some l) :
    l.Unanswered ∨ Heard acts activityName l.epoch := by
  induction acts using List.reverseRecOn generalizing l with
  | nil => cases hlookup
  | append_singleton acts act ih =>
    obtain ⟨hlegal, -⟩ := (legal_concat _ _ _ _ _).mp hlegal
    rw [exec_append] at hlookup
    have hcons := Consistent.run config hlegal
    have hmono : acts ⊆ acts ++ [act] := List.subset_append_left _ _
    obtain hsame | ⟨rfl, policy, -, heffect⟩ :=
      Session.step_lookup (exec Session.step (.new config) acts) act activityName
    · obtain hun | hheard := ih hlegal (hsame.symm.trans hlookup)
      · exact .inl hun
      · exact .inr (hheard.mono hmono)
    · obtain rfl := Option.some.inj (heffect.symm.trans hlookup)
      -- the limiter before the call: an earlier one, or a new one that probes
      have hbefore : ((exec Session.step (.new config) acts).registry.limiterOf
            act.activityName policy).Unanswered ∨ Heard acts act.activityName
          ((exec Session.step (.new config) acts).registry.limiterOf
            act.activityName policy).epoch := by
        unfold AdaptiveLimitRegistry.limiterOf
        cases hfound : (exec Session.step (.new config) acts).registry.limiters.lookup
            act.activityName with
        | none => exact .inl (Limiter.unanswered_new policy)
        | some l => exact ih hlegal hfound
      have hrange := hcons.limiterOf_inRange act.activityName policy
      generalize (exec Session.step (.new config) acts).registry.limiterOf
        act.activityName policy = before at hbefore hrange ⊢
      obtain hkept | hprobed := Act.effect_epoch hrange act
      · obtain hun | hheard := hbefore
        · by_cases hact : Heard [act] act.activityName before.epoch
          · rw [hkept]
            exact .inr (hact.mono (List.subset_append_right _ _))
          · exact .inl (Act.effect_of_unanswered hun hact).1
        · rw [hkept]
          exact .inr (hheard.mono hmono)
      · exact .inl hprobed.unanswered

end Probes

/-! ## The whole registry -/

section Account

variable [FloorSemiring K]

theorem saturated_sorted (r : AdaptiveLimitRegistry K) : r.saturated.Pairwise (· < ·) := by
  unfold AdaptiveLimitRegistry.saturated AdaptiveLimitRegistry.saturatedSeen
  split
  · have hsorted := List.pairwise_insertionSort (· ≤ ·) (passing Limiter.isSaturated r.limiters)
    have hnodup : ((passing Limiter.isSaturated r.limiters).insertionSort (· ≤ ·)).Nodup :=
      (List.perm_insertionSort _ _).nodup_iff.mpr (nodup_passing _ _)
    exact (hsorted.and hnodup).imp fun h => lt_of_le_of_ne h.1 h.2
  · exact List.Pairwise.nil

/-- The types at their cap, as the limiters count. -/
theorem Consistent.mem_passing_iff {s : Session K} (h : Consistent s) (activityName : String) :
    activityName ∈ passing Limiter.isSaturated s.registry.limiters ↔ s.AtCap activityName := by
  rw [mem_passing]
  refine exists_congr fun l => and_congr_right fun hl => ?_
  rw [Limiter.isSaturated, decide_eq_true_iff, h.lookup_inFlight hl]

theorem Consistent.saturatedCount_eq {s : Session K} (h : Consistent s) :
    s.registry.saturatedCount = { name | s.AtCap name }.ncard := by
  have hset : { name | s.AtCap name } =
      ((passing Limiter.isSaturated s.registry.limiters).toFinset : Set String) := by
    ext name
    rw [List.coe_toFinset, Set.mem_ofPred_eq, Set.mem_ofPred_eq, h.mem_passing_iff]
  rw [hset, Set.ncard_coe_finset, List.toFinset_card_of_nodup (nodup_passing _ _), length_passing,
    h.saturated]

/-- The names are those of the moment at which the counter was read, or of the moment at which the
lock was taken. -/
theorem Consistent.mem_saturatedSeen {s s' : Session K} (h : Consistent s) (h' : Consistent s') :
    (∀ name, name ∈ s'.registry.saturatedSeen s.registry.saturatedCount ↔ s.AtCap name) ∨
      ∀ name, name ∈ s'.registry.saturatedSeen s.registry.saturatedCount ↔ s'.AtCap name := by
  unfold AdaptiveLimitRegistry.saturatedSeen
  by_cases hseen : 0 < s.registry.saturatedCount
  · right
    intro name
    rw [if_pos hseen, List.mem_insertionSort, h'.mem_passing_iff]
  · left
    intro name
    rw [if_neg hseen]
    have hempty : passing Limiter.isSaturated s.registry.limiters = [] := by
      rw [← List.length_eq_zero_iff, length_passing, ← h.saturated]
      omega
    rw [← h.mem_passing_iff, hempty]

variable [IsStrictOrderedRing K]

/-- **Account of the permits.** After every run of calls on any types: the attempts in flight are the
permits held, a permit is granted below the cap, and the limits are in range; a probe does not raise
the cap before an answer, neither when it starts nor later; a sample of an older epoch leaves the
baseline; and the counter and the list of saturated types are those at or over their cap. -/
theorem adaptive_limits_account_for_every_permit (config : AdaptiveLimitConfig K)
    (acts : List Act) (hlegal : Legal Session.step Session.Allowed (.new config) acts) :
    let s := exec Session.step (.new config) acts
    (∀ name, (s.registry.limiters.lookup name).elim 0 Limiter.inFlight = s.held name) ∧
    (∀ name jitter, (∃ permit, (s.registry.tryAcquire name jitter).1 = .acquired permit) ↔
      ∃ policy, config.policyFor name = some policy ∧
        s.held name < (s.registry.limiterOf name policy).cap) ∧
    (∀ name l, s.registry.limiters.lookup name = some l → l.InRange) ∧
    (∀ act name l l', s.Allowed act → s.registry.limiters.lookup name = some l →
      (s.step act).registry.limiters.lookup name = some l' → l'.epoch ≠ l.epoch →
      l'.probing = true ∧ l'.cap ≤ l.cap) ∧
    (∀ more name l, Legal Session.step Session.Allowed (.new config) (acts ++ more) →
      s.registry.limiters.lookup name = some l → ¬ Heard (acts ++ more) name l.epoch →
      ∃ l', (exec Session.step (.new config) (acts ++ more)).registry.limiters.lookup name =
        some l' ∧ l'.probing = true ∧ l'.epoch = l.epoch ∧ l'.cap ≤ l.cap) ∧
    (∀ permit latency outcome l, s.Allowed (.complete permit latency outcome) →
      s.registry.limiters.lookup permit.activityName = some l → permit.epoch < l.epoch →
      ∃ l', (s.step (.complete permit latency outcome)).registry.limiters.lookup
        permit.activityName = some l' ∧ l'.baseline = l.baseline) ∧
    s.registry.saturatedCount = { name | s.AtCap name }.ncard ∧
    (∀ name, name ∈ s.registry.saturated ↔ s.AtCap name) ∧
    s.registry.saturated.Pairwise (· < ·) ∧
    ∀ more, Legal Session.step Session.Allowed (.new config) (acts ++ more) →
      let s' := exec Session.step (.new config) (acts ++ more)
      let names := s'.registry.saturatedSeen s.registry.saturatedCount
      (∀ name, name ∈ names ↔ s.AtCap name) ∨ ∀ name, name ∈ names ↔ s'.AtCap name := by
  intro s
  have hs : Consistent s := Consistent.run config hlegal
  have hconfig : s.registry.config = config := Session.exec_config (.new config) acts
  refine ⟨hs.counted, ?_, hs.inRange, ?_, ?_, ?_, hs.saturatedCount_eq, ?_, ?_, ?_⟩
  · intro name jitter
    rw [Session.acquired_iff, hconfig]
    refine exists_congr fun policy => and_congr_right fun _ => ?_
    rw [hs.limiterOf_inFlight]
  · intro act name l l' _ hl hl' hepoch
    obtain hsame | ⟨rfl, policy, -, heffect⟩ := Session.step_lookup s act name
    · rw [hsame, hl] at hl'
      exact absurd (congrArg Limiter.epoch (Option.some.inj hl').symm) hepoch
    · rw [limiterOf_of_lookup hl] at heffect
      obtain rfl := Option.some.inj (heffect.symm.trans hl')
      obtain hkept | hprobed := Act.effect_epoch (hs.inRange _ l hl) act
      · exact absurd hkept hepoch
      · exact ⟨hprobed.unanswered.1,
          Limiter.cap_mono (Act.effect_policy l act) hprobed.limit_le⟩
  · intro more name l _ hl hunheard
    have hun : l.Unanswered := by
      obtain hun | hheard := unanswered_or_heard config hlegal hl
      · exact hun
      · exact absurd (hheard.mono (List.subset_append_left _ _)) hunheard
    have hmore : ¬ Heard more name l.epoch :=
      fun hheard => hunheard (hheard.mono (List.subset_append_right _ _))
    obtain ⟨l', hl', hun', hepoch, hpolicy, hlimit⟩ := unanswered_run hl hun hmore
    rw [exec_append]
    exact ⟨l', hl', hun'.1, hepoch, Limiter.cap_mono hpolicy hlimit⟩
  · intro permit latency outcome l hallowed hl hold
    obtain hsame | ⟨-, policy, -, heffect⟩ :=
      Session.step_lookup s (.complete permit latency outcome) permit.activityName
    · exact ⟨l, hsame.trans hl, rfl⟩
    · rw [limiterOf_of_lookup hl] at heffect
      refine ⟨_, heffect, ?_⟩
      have hother : permit.epoch ≠ { l with inFlight := l.inFlight - 1 }.epoch := hold.ne
      obtain ⟨window, -, heq⟩ := Limiter.onSample_of_old hother latency permit.inFlight outcome
      simp only [Act.effect]
      rw [heq]
  · obtain hseen | hseen := hs.mem_saturatedSeen hs <;> exact hseen
  · exact saturated_sorted s.registry
  · intro more hmore
    exact hs.mem_saturatedSeen (Consistent.run config hmore)

end Account

/-- Between one and three attempts. -/
def smallPolicy : AdaptiveLimitPolicy ℚ where
  minLimit := 1
  maxLimit := 3
  tolerance := 3 / 2
  backoffRatio := 9 / 10
  errorThreshold := 1 / 10
  probeInterval := 100
  one_le_minLimit := by decide
  minLimit_le_maxLimit := by decide
  ratio_nonneg := by decide +kernel
  ratio_le_one := by decide +kernel

def smallConfig : AdaptiveLimitConfig ℚ := ⟨some smallPolicy, fun _ => none⟩

/-- Three attempts start, and one of them is answered. -/
def smallRun : List Act :=
  [.tryAcquire "charge" id, .tryAcquire "charge" id, .tryAcquire "charge" id,
    .tryAcquire "mail" id, .tryAcquire "charge" id,
    .complete ⟨"charge", 1, 2⟩ 7 .answered, .tryAcquire "charge" id]

instance (s : Session ℚ) (act : Act) : Decidable (s.Allowed act) := by
  cases act <;> unfold Session.Allowed <;> infer_instance

theorem three_attempts_are_at_the_cap :
    Legal Session.step Session.Allowed (.new smallConfig) smallRun ∧
      (exec Session.step (.new smallConfig) smallRun).held "charge" = 3 ∧
      (exec Session.step (.new smallConfig) smallRun).AtCap "charge" := by
  have hlegal : Legal Session.step Session.Allowed (.new smallConfig) smallRun := by decide +kernel
  refine ⟨hlegal, by decide +kernel, ?_⟩
  have haccount := adaptive_limits_account_for_every_permit smallConfig smallRun hlegal
  exact (haccount.2.2.2.2.2.2.2.1 "charge").mp (by decide +kernel)

end Harvest.AdaptiveLimit
