import Mathlib.Tactic.SplitIfs
import Harvest.Breaker.State

/-!
# The generation fence

What each transition can do to a breaker apart from its claim entries. Every
transition except a dispatch either keeps the generation, the phase, the probe
slot and the operator pin, or bumps the generation; so a token issued before a
bump is stale from then on.

Proved here:
* `Settles`, with one lemma per transition.
* `applyResult_stale`, `applyCancelled_stale`: a stale report changes nothing.
* `core_setClaim`, `core_removeClaim`: claim entries are outside the fence.
-/

namespace Harvest.Breaker

namespace BreakerState

/-- The breaker without its claim entries. -/
def core (st : BreakerState) : BreakerState := { st with inFlightClaims := fun _ => none }

/-- The generation after one bump. -/
def nextGeneration (st : BreakerState) : Nat := (st.generation + 1) % u64Size

/-- `st` moved to `st'` without a dispatch: it kept the fenced fields, or it
bumped the generation. -/
def Settles (st st' : BreakerState) : Prop :=
  (st'.generation = st.generation ∧ st'.phase = st.phase ∧
    st'.probeInFlight = st.probeInFlight ∧ st'.forcedOpen = st.forcedOpen) ∨
  st'.generation = st.nextGeneration

theorem Settles.refl (st : BreakerState) : Settles st st := .inl ⟨rfl, rfl, rfl, rfl⟩

/-! ## Claim entries are a frame -/

@[simp] theorem core_phase (st : BreakerState) : st.core.phase = st.phase := rfl
@[simp] theorem core_failures (st : BreakerState) : st.core.failures = st.failures := rfl
@[simp] theorem core_generation (st : BreakerState) : st.core.generation = st.generation := rfl
@[simp] theorem core_forcedOpen (st : BreakerState) : st.core.forcedOpen = st.forcedOpen := rfl
@[simp] theorem core_probeInFlight (st : BreakerState) :
    st.core.probeInFlight = st.probeInFlight := rfl
@[simp] theorem core_core (st : BreakerState) : st.core.core = st.core := rfl

@[simp] theorem core_setClaim (st : BreakerState) (claim : ClaimKey) (entry : InFlightClaim) :
    (st.setClaim claim entry).core = st.core := rfl

@[simp] theorem core_removeClaim (st : BreakerState) (claim : ClaimKey) :
    (st.removeClaim claim).core = st.core := rfl

@[simp] theorem setClaim_claims (st : BreakerState) (claim : ClaimKey) (entry : InFlightClaim) :
    (st.setClaim claim entry).inFlightClaims =
      Function.update st.inFlightClaims claim (some entry) := rfl

@[simp] theorem removeClaim_claims (st : BreakerState) (claim : ClaimKey) :
    (st.removeClaim claim).inFlightClaims = Function.update st.inFlightClaims claim none := rfl

@[simp] theorem setClaim_generation (st : BreakerState) (claim : ClaimKey)
    (entry : InFlightClaim) : (st.setClaim claim entry).generation = st.generation := rfl

@[simp] theorem removeClaim_generation (st : BreakerState) (claim : ClaimKey) :
    (st.removeClaim claim).generation = st.generation := rfl

theorem core_countFailure (st : BreakerState) (policy : CircuitBreakerPolicy) (now : Now) :
    (st.countFailure policy now).1.core = (st.core.countFailure policy now).1 := by
  simp only [countFailure, apply_ite Prod.fst, apply_ite core]
  rfl

theorem core_applyResult (st : BreakerState) (policy : CircuitBreakerPolicy)
    (outcome : AttemptOutcome) (token : DispatchToken) (now : Now) :
    (st.applyResult policy outcome token now).1.core =
      (st.core.applyResult policy outcome token now).1 := by
  have hphase : st.core.phase = st.phase := rfl
  unfold applyResult
  rw [hphase]
  cases st.phase with
  | closed =>
    cases outcome with
    | retryableFailure =>
      simp only [apply_ite Prod.fst, apply_ite core, core_countFailure]
      rfl
    | success => simp only [apply_ite Prod.fst, apply_ite core]; rfl
    | nonRetryableFailure => simp only [apply_ite Prod.fst, apply_ite core]; rfl
  | halfOpen => cases outcome <;> simp only [apply_ite Prod.fst, apply_ite core] <;> rfl
  | opened => simp only [apply_ite Prod.fst, apply_ite core]; rfl

theorem core_applyExternalFailure (st : BreakerState) (policy : CircuitBreakerPolicy)
    (now : Now) : (st.applyExternalFailure policy now).1.core =
      (st.core.applyExternalFailure policy now).1 := by
  simp only [applyExternalFailure, apply_ite Prod.fst, apply_ite core, core_countFailure]
  rfl

theorem core_applyCancelled (st : BreakerState) (token : DispatchToken) (now : Now) :
    (st.applyCancelled token now).1.core = (st.core.applyCancelled token now).1 := by
  simp only [applyCancelled, apply_ite Prod.fst, apply_ite core]
  rfl

theorem applyCancelled_core_snd (st : BreakerState) (token : DispatchToken) (now : Now) :
    (st.core.applyCancelled token now).2 = (st.applyCancelled token now).2 := by
  simp only [applyCancelled, apply_ite Prod.snd]
  rfl

theorem countRemoteTimeout_eq (st : BreakerState) (policy : CircuitBreakerPolicy)
    (token : DispatchToken) (now : Now) :
    st.countRemoteTimeout policy token now =
      if (st.applyCancelled token now).2 then ((st.applyCancelled token now).1, some .tripped)
      else if token.generation ≠ (st.applyCancelled token now).1.generation then
        ((st.applyCancelled token now).1, none)
      else (st.applyCancelled token now).1.applyExternalFailure policy now := by
  unfold countRemoteTimeout
  split <;> rename_i h <;> simp [h]

theorem core_countRemoteTimeout (st : BreakerState) (policy : CircuitBreakerPolicy)
    (token : DispatchToken) (now : Now) :
    (st.countRemoteTimeout policy token now).1.core =
      (st.core.countRemoteTimeout policy token now).1 := by
  rw [countRemoteTimeout_eq, countRemoteTimeout_eq, applyCancelled_core_snd,
    ← core_applyCancelled, core_generation]
  split_ifs
  · rfl
  · rfl
  · exact core_applyExternalFailure _ policy now

/-! ## Claim entries are kept -/

theorem countFailure_claims (st : BreakerState) (policy : CircuitBreakerPolicy) (now : Now) :
    (st.countFailure policy now).1.inFlightClaims = st.inFlightClaims := by
  unfold countFailure
  dsimp only
  split <;> rfl

theorem applyResult_claims (st : BreakerState) (policy : CircuitBreakerPolicy)
    (outcome : AttemptOutcome) (token : DispatchToken) (now : Now) :
    (st.applyResult policy outcome token now).1.inFlightClaims = st.inFlightClaims := by
  unfold applyResult
  split
  · rfl
  split
  · rfl
  split
  · cases outcome with
    | success => rfl
    | retryableFailure => exact countFailure_claims st policy now
    | nonRetryableFailure => rfl
  · cases outcome <;> cases token.isProbe <;> rfl
  · rfl

theorem applyExternalFailure_claims (st : BreakerState) (policy : CircuitBreakerPolicy)
    (now : Now) : (st.applyExternalFailure policy now).1.inFlightClaims = st.inFlightClaims := by
  unfold applyExternalFailure
  split
  · rfl
  · exact countFailure_claims st policy now

theorem applyCancelled_claims (st : BreakerState) (token : DispatchToken) (now : Now) :
    (st.applyCancelled token now).1.inFlightClaims = st.inFlightClaims := by
  unfold applyCancelled
  split
  · rfl
  · split <;> rfl

theorem countRemoteTimeout_claims (st : BreakerState) (policy : CircuitBreakerPolicy)
    (token : DispatchToken) (now : Now) :
    (st.countRemoteTimeout policy token now).1.inFlightClaims = st.inFlightClaims := by
  rw [countRemoteTimeout_eq]
  split_ifs
  · exact applyCancelled_claims st token now
  · exact applyCancelled_claims st token now
  · rw [applyExternalFailure_claims, applyCancelled_claims]

/-! ## Every transition keeps the fenced fields or bumps the generation -/

theorem settles_trip (st : BreakerState) (now : Now) : Settles st (st.trip now) := .inr rfl

theorem settles_close (st : BreakerState) : Settles st st.close := .inr rfl

theorem settles_countFailure (st : BreakerState) (policy : CircuitBreakerPolicy) (now : Now) :
    Settles st (st.countFailure policy now).1 := by
  unfold countFailure
  dsimp only
  split
  · exact .inr rfl
  · exact .inl ⟨rfl, rfl, rfl, rfl⟩

theorem settles_applyResult (st : BreakerState) (policy : CircuitBreakerPolicy)
    (outcome : AttemptOutcome) (token : DispatchToken) (now : Now) :
    Settles st (st.applyResult policy outcome token now).1 := by
  unfold applyResult
  split
  · exact .refl st
  split
  · exact .refl st
  split
  · cases outcome with
    | success => exact .inl ⟨rfl, rfl, rfl, rfl⟩
    | retryableFailure => exact settles_countFailure st policy now
    | nonRetryableFailure => exact .refl st
  · split
    · exact .refl st
    · cases outcome with
      | success => exact settles_close st
      | retryableFailure => exact settles_trip st now
      | nonRetryableFailure => exact settles_trip st now
  · exact .refl st

theorem settles_applyExternalFailure (st : BreakerState) (policy : CircuitBreakerPolicy)
    (now : Now) : Settles st (st.applyExternalFailure policy now).1 := by
  unfold applyExternalFailure
  split
  · exact .refl st
  · exact settles_countFailure st policy now

theorem settles_applyCancelled (st : BreakerState) (token : DispatchToken) (now : Now) :
    Settles st (st.applyCancelled token now).1 := by
  unfold applyCancelled
  split
  · exact .refl st
  split
  · exact settles_trip st now
  · exact .refl st

/-- A cancellation that released no probe changed nothing. -/
theorem applyCancelled_kept (st : BreakerState) (token : DispatchToken) (now : Now)
    (h : (st.applyCancelled token now).2 = false) : (st.applyCancelled token now).1 = st := by
  unfold applyCancelled at h ⊢
  split_ifs at h ⊢ <;> rfl

theorem settles_countRemoteTimeout (st : BreakerState) (policy : CircuitBreakerPolicy)
    (token : DispatchToken) (now : Now) :
    Settles st (st.countRemoteTimeout policy token now).1 := by
  rw [countRemoteTimeout_eq]
  cases h : (st.applyCancelled token now).2 with
  | true => exact settles_applyCancelled st token now
  | false =>
    rw [applyCancelled_kept st token now h]
    simp only [Bool.false_eq_true, if_false]
    split
    · exact .refl st
    · exact settles_applyExternalFailure st policy now

theorem settles_forceOpen (st : BreakerState) (now : Now) : Settles st (st.forceOpen now) :=
  .inr rfl

theorem settles_forceClose (st : BreakerState) : Settles st st.forceClose := by
  unfold forceClose
  split
  · exact .refl st
  · exact .inr rfl

/-- Below the wrap, a bump is a successor. -/
theorem bump_eq_succ {st st' : BreakerState} (hbump : st'.generation = st.nextGeneration)
    (hbound : st.generation + (if st'.generation = st.generation then 0 else 1) < u64Size) :
    st'.generation = st.generation + 1 := by
  rw [hbump, nextGeneration] at hbound ⊢
  rcases Nat.lt_or_ge (st.generation + 1) u64Size with hlt | hge
  · exact Nat.mod_eq_of_lt hlt
  · -- The last generation before the wrap would count a transition too many.
    have hlast : st.generation + 1 = u64Size := by omega
    have hzero : (st.generation + 1) % u64Size ≠ st.generation := by
      rw [hlast, Nat.mod_self]
      simp only [u64Size] at hlast
      omega
    rw [if_neg hzero] at hbound
    omega

/-! ## Dispatch -/

/-- The breaker with a probe in flight. -/
def probing (st : BreakerState) : BreakerState :=
  { st with phase := .halfOpen, probeInFlight := true }

/-- **Inversion of a dispatch.** Short-circuited, admitted by a closed breaker, or
admitted as the probe. -/
theorem onDispatch_cases (st : BreakerState) (policy : CircuitBreakerPolicy) (now : Now) :
    (∃ openedAt retryAfter, st.onDispatch policy now = (st, .shortCircuit openedAt retryAfter)) ∨
    (st.forcedOpen = false ∧ st.phase = .closed ∧
      st.onDispatch policy now = (st, .allow ⟨st.generation, false⟩)) ∨
    (st.forcedOpen = false ∧
      st.onDispatch policy now = (st.probing, .allow ⟨st.generation, true⟩) ∧
      ((st.phase = .opened ∧ policy.cooldown ≤ now.instant - st.openedAt.getD now.instant) ∨
        (st.phase = .halfOpen ∧ st.probeInFlight = false))) := by
  unfold onDispatch
  cases hpin : st.forcedOpen with
  | true => exact .inl ⟨_, _, rfl⟩
  | false =>
    cases hphase : st.phase with
    | closed => exact .inr (.inl ⟨rfl, rfl, rfl⟩)
    | opened =>
      simp only [Bool.false_eq_true, if_false]
      split
      · rename_i hwait
        exact .inr (.inr ⟨trivial, by simp [probing, hpin], .inl ⟨trivial, hwait⟩⟩)
      · exact .inl ⟨_, _, rfl⟩
    | halfOpen =>
      cases hslot : st.probeInFlight with
      | true => exact .inl ⟨_, _, rfl⟩
      | false => exact .inr (.inr ⟨rfl, by simp [probing, hpin], .inr ⟨rfl, rfl⟩⟩)

/-! ## Stale reports -/

theorem applyResult_stale (st : BreakerState) (policy : CircuitBreakerPolicy)
    (outcome : AttemptOutcome) (token : DispatchToken) (now : Now)
    (h : token.generation ≠ st.generation) :
    st.applyResult policy outcome token now = (st, none) := by
  simp [applyResult, h]

theorem applyCancelled_stale (st : BreakerState) (token : DispatchToken) (now : Now)
    (h : token.generation ≠ st.generation) : st.applyCancelled token now = (st, false) := by
  simp [applyCancelled, h]

end BreakerState
end Harvest.Breaker
