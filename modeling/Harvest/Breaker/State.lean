import Mathlib.Logic.Function.Basic
import Mathlib.Data.List.Basic

/-!
# Per-activity circuit breaker

Model of `circuit_breaker.rs`: the breaker state of one activity, the
transitions of the in-process registry on it, and the registry that looks a
breaker up by activity name. Instants and durations are nanosecond counts, so
`saturating_duration_since` is subtraction on `Nat`.

The registry's methods all go through one lookup, `Registry.track`; the theorems
about runs are about one tracked breaker, and `Registry.track_states` carries them
to the registry.
-/

namespace Harvest.Breaker

/-! ## Data -/

/-- `u64::MAX + 1`, the modulus of the generation counter. -/
def u64Size : Nat := 18446744073709551616

/-- `u32::MAX`, where the enforcer counter saturates. -/
def u32Max : Nat := 4294967295

inductive CircuitPhase
  | closed
  | opened
  | halfOpen
deriving DecidableEq, Repr

/-- Carries the generation of the breaker at dispatch time. -/
structure DispatchToken where
  generation : Nat
  isProbe : Bool
deriving DecidableEq, Repr

/-- One claim of a task: the queue row, the attempt and the `started_at` epoch. -/
structure ClaimKey where
  taskId : Nat
  attempt : Int
  startedAt : Option Int
deriving DecidableEq, Repr

inductive AttemptOutcome
  | success
  | retryableFailure
  | nonRetryableFailure
deriving DecidableEq, Repr

inductive CircuitTransition
  | tripped
  | closed
deriving DecidableEq, Repr

/-- Where a claim stands against the timeout enforcers. The number is how many
enforcers still decide. -/
inductive ClaimState
  | running
  | provisional (deciding : Nat)
  | held (outcome : AttemptOutcome) (token : DispatchToken) (deciding : Nat)
  | timedOut
  | lostPending (deciding : Nat)
  | ended (deciding : Nat)
deriving DecidableEq, Repr

/-- `u32::saturating_add(1)`. -/
def saturatingSucc (deciding : Nat) : Nat := min (deciding + 1) u32Max

/-- How a mark moves the state of an entry. -/
def ClaimState.mark : ClaimState → ClaimState
  | .running => .provisional 1
  | .provisional deciding => .provisional (saturatingSucc deciding)
  | .held outcome token deciding => .held outcome token (saturatingSucc deciding)
  | .timedOut => .timedOut
  | .lostPending deciding => .lostPending (saturatingSucc deciding)
  | .ended deciding => .ended (saturatingSucc deciding)

structure InFlightClaim where
  token : Option DispatchToken
  generation : Nat
  state : ClaimState
deriving DecidableEq, Repr

structure CircuitBreakerPolicy where
  failureThreshold : Nat
  window : Nat
  cooldown : Nat
deriving DecidableEq, Repr

/-- What a call reads from the two clocks: the monotonic instant the caller
passes, and the wall clock that `Utc::now` returns inside the call. -/
structure Now where
  instant : Nat
  wall : Nat
deriving DecidableEq, Repr

inductive DispatchDecision
  | allow (token : DispatchToken)
  | shortCircuit (openedAt : Option Nat) (retryAfter : Option Nat)
deriving DecidableEq, Repr

structure BreakerState where
  phase : CircuitPhase
  failures : List Nat
  openedAt : Option Nat
  openedAtWall : Option Nat
  probeInFlight : Bool
  forcedOpen : Bool
  generation : Nat
  inFlightClaims : ClaimKey → Option InFlightClaim

/-- `BreakerState::default`. -/
def BreakerState.default : BreakerState where
  phase := .closed
  failures := []
  openedAt := none
  openedAtWall := none
  probeInFlight := false
  forcedOpen := false
  generation := 0
  inFlightClaims := fun _ => none

/-! ## Transitions of one breaker -/

namespace BreakerState

/-- The loop of `prune`: pop the front while it is older than the window. -/
def pruneFailures (now window : Nat) : List Nat → List Nat
  | [] => []
  | front :: rest =>
    if now - front > window then pruneFailures now window rest else front :: rest

def prune (st : BreakerState) (now window : Nat) : BreakerState :=
  { st with failures := pruneFailures now window st.failures }

def bumpGeneration (st : BreakerState) : BreakerState :=
  { st with generation := (st.generation + 1) % u64Size }

def trip (st : BreakerState) (now : Now) : BreakerState :=
  { st with
    phase := .opened
    openedAt := some now.instant
    openedAtWall := some now.wall
    failures := []
    probeInFlight := false }.bumpGeneration

def close (st : BreakerState) : BreakerState :=
  { st with
    phase := .closed
    failures := []
    openedAt := none
    openedAtWall := none
    probeInFlight := false }.bumpGeneration

/-- `in_flight_claims.insert`, and an assignment through `get_mut`. -/
def setClaim (st : BreakerState) (claim : ClaimKey) (entry : InFlightClaim) : BreakerState :=
  { st with inFlightClaims := Function.update st.inFlightClaims claim (some entry) }

/-- `in_flight_claims.remove`. -/
def removeClaim (st : BreakerState) (claim : ClaimKey) : BreakerState :=
  { st with inFlightClaims := Function.update st.inFlightClaims claim none }

/-- Push a failure, prune, and trip at the threshold: the closed-phase counting
that `apply_result` and `apply_external_failure` both contain. -/
def countFailure (st : BreakerState) (policy : CircuitBreakerPolicy) (now : Now) :
    BreakerState × Option CircuitTransition :=
  let st := { st with failures := st.failures ++ [now.instant] }.prune now.instant policy.window
  if st.failures.length ≥ policy.failureThreshold then (st.trip now, some .tripped)
  else (st, none)

/-- `apply_result`: one attempt outcome, behind the operator pin and the
generation fence. -/
def applyResult (st : BreakerState) (policy : CircuitBreakerPolicy) (outcome : AttemptOutcome)
    (token : DispatchToken) (now : Now) : BreakerState × Option CircuitTransition :=
  if st.forcedOpen then (st, none)
  else if token.generation ≠ st.generation then (st, none)
  else match st.phase with
    | .closed => match outcome with
      | .success => ({ st with failures := [] }, none)
      | .nonRetryableFailure => (st, none)
      | .retryableFailure => st.countFailure policy now
    | .halfOpen =>
      if !token.isProbe then (st, none)
      else match outcome with
        | .success => (st.close, some .closed)
        | .retryableFailure => (st.trip now, some .tripped)
        -- An inconclusive probe re-arms the cooldown and reports no transition.
        | .nonRetryableFailure => (st.trip now, none)
    | .opened => (st, none)

def applyExternalFailure (st : BreakerState) (policy : CircuitBreakerPolicy) (now : Now) :
    BreakerState × Option CircuitTransition :=
  if st.forcedOpen || st.phase ≠ .closed then (st, none)
  else st.countFailure policy now

/-- `apply_cancelled`: releases a probe slot. The flag says whether it re-opened
the breaker. -/
def applyCancelled (st : BreakerState) (token : DispatchToken) (now : Now) :
    BreakerState × Bool :=
  if st.forcedOpen || token.generation ≠ st.generation then (st, false)
  else if token.isProbe && st.phase = .halfOpen && st.probeInFlight then (st.trip now, true)
  else (st, false)

def countRemoteTimeout (st : BreakerState) (policy : CircuitBreakerPolicy)
    (token : DispatchToken) (now : Now) : BreakerState × Option CircuitTransition :=
  match st.applyCancelled token now with
  | (st, true) => (st, some .tripped)
  | (st, false) =>
    if token.generation ≠ st.generation then (st, none)
    else st.applyExternalFailure policy now

/-- `on_dispatch` after the policy and the state were looked up. -/
def onDispatch (st : BreakerState) (policy : CircuitBreakerPolicy) (now : Now) :
    BreakerState × DispatchDecision :=
  if st.forcedOpen then (st, .shortCircuit st.openedAtWall none)
  else match st.phase with
    | .closed => (st, .allow ⟨st.generation, false⟩)
    | .opened =>
      let opened := st.openedAt.getD now.instant
      let elapsed := now.instant - opened
      if elapsed ≥ policy.cooldown then
        ({ st with phase := .halfOpen, probeInFlight := true }, .allow ⟨st.generation, true⟩)
      else (st, .shortCircuit st.openedAtWall (some (policy.cooldown - elapsed)))
    | .halfOpen =>
      if st.probeInFlight then (st, .shortCircuit st.openedAtWall none)
      else ({ st with probeInFlight := true }, .allow ⟨st.generation, true⟩)

def onResult (st : BreakerState) (policy : CircuitBreakerPolicy) (outcome : AttemptOutcome)
    (token : DispatchToken) (now : Now) : BreakerState × Option CircuitTransition :=
  st.applyResult policy outcome token now

def onExternalFailure (st : BreakerState) (policy : CircuitBreakerPolicy) (now : Now) :
    BreakerState × Option CircuitTransition :=
  st.applyExternalFailure policy now

def onCancelled (st : BreakerState) (token : DispatchToken) (now : Now) : BreakerState :=
  (st.applyCancelled token now).1

def forceOpen (st : BreakerState) (now : Now) : BreakerState :=
  { st with
    forcedOpen := true
    phase := .opened
    openedAt := some now.instant
    openedAtWall := some now.wall
    probeInFlight := false }.bumpGeneration

def forceClose (st : BreakerState) : BreakerState :=
  if !st.forcedOpen && st.phase = .closed then st
  else { st with forcedOpen := false }.close

/-! ## Claims against the timeout enforcers -/

def onClaimResult (st : BreakerState) (policy : CircuitBreakerPolicy) (outcome : AttemptOutcome)
    (token : DispatchToken) (claim : ClaimKey) (now : Now) :
    BreakerState × Option CircuitTransition :=
  match st.inFlightClaims claim with
  | some ⟨entryToken, generation, .provisional deciding⟩ =>
    (st.setClaim claim ⟨entryToken, generation, .held outcome token deciding⟩, none)
  | some ⟨_, _, .timedOut⟩ => (((st.removeClaim claim).applyCancelled token now).1, none)
  | _ => (st.removeClaim claim).applyResult policy outcome token now

def onClaimLost (st : BreakerState) (policy : CircuitBreakerPolicy) (token : DispatchToken)
    (claim : ClaimKey) (lostToTimeout : Bool) (now : Now) :
    BreakerState × Option CircuitTransition :=
  let settle (deciding : Nat) (entryToken : Option DispatchToken) (generation : Nat) :=
    if lostToTimeout then
      (st.setClaim claim ⟨entryToken, generation, .lostPending deciding⟩, none)
    else
      (((st.setClaim claim ⟨entryToken, generation, .ended deciding⟩).applyCancelled token now).1,
        none)
  match st.inFlightClaims claim with
  | some ⟨entryToken, generation, .provisional deciding⟩ => settle deciding entryToken generation
  | some ⟨entryToken, generation, .held _ _ deciding⟩ => settle deciding entryToken generation
  | some ⟨_, _, .timedOut⟩ => (((st.removeClaim claim).applyCancelled token now).1, none)
  | _ =>
    if lostToTimeout then (st.removeClaim claim).countRemoteTimeout policy token now
    else (((st.removeClaim claim).applyCancelled token now).1, none)

def beginClaim (st : BreakerState) (claim : ClaimKey) (token : DispatchToken) : BreakerState :=
  match st.inFlightClaims claim with
  | some entry => st.setClaim claim { entry with token := some token }
  | none => st.setClaim claim ⟨some token, token.generation, .running⟩

def endClaim (st : BreakerState) (claim : ClaimKey) : BreakerState :=
  match st.inFlightClaims claim with
  | none | some ⟨_, _, .held _ _ _⟩ | some ⟨_, _, .lostPending _⟩ | some ⟨_, _, .ended _⟩ => st
  | some ⟨token, generation, .provisional deciding⟩ =>
    st.setClaim claim ⟨token, generation, .ended deciding⟩
  | some ⟨_, _, .running⟩ | some ⟨_, _, .timedOut⟩ => st.removeClaim claim

def markClaimTimedOut (st : BreakerState) (claim : ClaimKey) : BreakerState :=
  let entry := (st.inFlightClaims claim).getD ⟨none, st.generation, .running⟩
  st.setClaim claim { entry with state := entry.state.mark }

/-- What a confirm leaves of the entry: a registered claim that has not reported
stays as timed out, every other entry is removed. -/
def confirmEntry (st : BreakerState) (claim : ClaimKey) (entry : InFlightClaim) : BreakerState :=
  match entry.state, entry.token with
  | .running, some _ | .provisional _, some _ => st.setClaim claim { entry with state := .timedOut }
  | _, _ => st.removeClaim claim

def confirmClaimTimedOut (st : BreakerState) (policy : CircuitBreakerPolicy) (claim : ClaimKey)
    (counted : Bool) (now : Now) : BreakerState × Option CircuitTransition :=
  match st.inFlightClaims claim with
  | none => (st, none)
  | some entry =>
    if entry.state = .timedOut then (st, none)
    else
      let st := st.confirmEntry claim entry
      let (st, released) := match entry.token with
        | some token => st.applyCancelled token now
        | none => (st, false)
      if released then (st, some .tripped)
      else
        let generation := (entry.token.map DispatchToken.generation).getD entry.generation
        if !counted || generation ≠ st.generation then (st, none)
        else st.applyExternalFailure policy now

def unmarkClaimTimedOut (st : BreakerState) (policy : CircuitBreakerPolicy) (claim : ClaimKey)
    (now : Now) : BreakerState × Option CircuitTransition :=
  match st.inFlightClaims claim with
  | none => (st, none)
  | some entry => match entry.state with
    | .held outcome token deciding =>
      if deciding > 1 then
        (st.setClaim claim { entry with state := .held outcome token (deciding - 1) }, none)
      else (st.removeClaim claim).applyResult policy outcome token now
    | .provisional deciding =>
      if deciding > 1 then
        (st.setClaim claim { entry with state := .provisional (deciding - 1) }, none)
      else if entry.token.isNone then (st.removeClaim claim, none)
      else (st.setClaim claim { entry with state := .running }, none)
    | .lostPending deciding =>
      if deciding > 1 then
        (st.setClaim claim { entry with state := .lostPending (deciding - 1) }, none)
      else match entry.token with
        | some token => (st.removeClaim claim).countRemoteTimeout policy token now
        | none => (st.removeClaim claim, none)
    | .ended deciding =>
      if deciding > 1 then
        (st.setClaim claim { entry with state := .ended (deciding - 1) }, none)
      else (st.removeClaim claim, none)
    | .running | .timedOut => (st, none)

end BreakerState

/-! ## The registry -/

/-- `CircuitBreakerRegistry`: one breaker per activity with a declared policy. -/
structure Registry where
  policies : String → Option CircuitBreakerPolicy
  states : String → Option BreakerState

namespace Registry

/-- `CircuitBreakerRegistry::new` seeds one default state per policy. -/
def new (policies : String → Option CircuitBreakerPolicy) : Registry where
  policies := policies
  states := fun name => (policies name).map fun _ => .default

/-- The lookup every tracked method starts with: policy, then state. A name
without either returns `untracked` and changes nothing. -/
def track {α : Type} (reg : Registry) (name : String) (untracked : α)
    (call : CircuitBreakerPolicy → BreakerState → BreakerState × α) : Registry × α :=
  match reg.policies name, reg.states name with
  | some policy, some st =>
    let (st, reply) := call policy st
    ({ reg with states := Function.update reg.states name (some st) }, reply)
  | _, _ => (reg, untracked)

def onDispatch (reg : Registry) (name : String) (now : Now) : Registry × DispatchDecision :=
  reg.track name (.allow ⟨0, false⟩) fun policy st => st.onDispatch policy now

def onResult (reg : Registry) (name : String) (outcome : AttemptOutcome)
    (token : DispatchToken) (now : Now) : Registry × Option CircuitTransition :=
  reg.track name none fun policy st => st.onResult policy outcome token now

def onExternalFailure (reg : Registry) (name : String) (now : Now) :
    Registry × Option CircuitTransition :=
  reg.track name none fun policy st => st.onExternalFailure policy now

def onCancelled (reg : Registry) (name : String) (token : DispatchToken) (now : Now) : Registry :=
  (reg.track name () fun _ st => (st.onCancelled token now, ())).1

def onClaimResult (reg : Registry) (name : String) (outcome : AttemptOutcome)
    (token : DispatchToken) (claim : ClaimKey) (now : Now) : Registry × Option CircuitTransition :=
  reg.track name none fun policy st => st.onClaimResult policy outcome token claim now

def onClaimLost (reg : Registry) (name : String) (token : DispatchToken) (claim : ClaimKey)
    (lostToTimeout : Bool) (now : Now) : Registry × Option CircuitTransition :=
  reg.track name none fun policy st => st.onClaimLost policy token claim lostToTimeout now

def beginClaim (reg : Registry) (name : String) (claim : ClaimKey) (token : DispatchToken) :
    Registry :=
  (reg.track name () fun _ st => (st.beginClaim claim token, ())).1

def endClaim (reg : Registry) (name : String) (claim : ClaimKey) : Registry :=
  (reg.track name () fun _ st => (st.endClaim claim, ())).1

def markClaimTimedOut (reg : Registry) (name : String) (claim : ClaimKey) : Registry :=
  (reg.track name () fun _ st => (st.markClaimTimedOut claim, ())).1

def confirmClaimTimedOut (reg : Registry) (name : String) (claim : ClaimKey) (counted : Bool)
    (now : Now) : Registry × Option CircuitTransition :=
  reg.track name none fun policy st => st.confirmClaimTimedOut policy claim counted now

def unmarkClaimTimedOut (reg : Registry) (name : String) (claim : ClaimKey) (now : Now) :
    Registry × Option CircuitTransition :=
  reg.track name none fun policy st => st.unmarkClaimTimedOut policy claim now

/-- The operator actions look no policy up: an unknown name gets a default state. -/
def operate (reg : Registry) (name : String) (act : BreakerState → BreakerState) : Registry :=
  { reg with
    states := Function.update reg.states name (some (act ((reg.states name).getD .default))) }

def forceOpen (reg : Registry) (name : String) (now : Now) : Registry :=
  reg.operate name fun st => st.forceOpen now

def forceClose (reg : Registry) (name : String) : Registry :=
  reg.operate name BreakerState.forceClose

/-- **Lookup.** A tracked call runs the breaker's own transition on the state
of its activity and leaves every other activity alone. -/
theorem track_states {α : Type} (reg : Registry) (name other : String) (untracked : α)
    (call : CircuitBreakerPolicy → BreakerState → BreakerState × α)
    (policy : CircuitBreakerPolicy) (st : BreakerState)
    (hpolicy : reg.policies name = some policy) (hst : reg.states name = some st) :
    (reg.track name untracked call).2 = (call policy st).2 ∧
      (reg.track name untracked call).1.states other =
        if other = name then some (call policy st).1 else reg.states other := by
  simp [track, hpolicy, hst, Function.update_apply]

theorem track_untracked {α : Type} (reg : Registry) (name : String) (untracked : α)
    (call : CircuitBreakerPolicy → BreakerState → BreakerState × α)
    (h : reg.policies name = none) : reg.track name untracked call = (reg, untracked) := by
  simp [track, h]

end Registry
end Harvest.Breaker
