import Harvest.Event
import Mathlib.Tactic.SplitIfs

/-!
# What a pending activity is blocked on

Model of the activity part of `stall_diagnosis.rs`: the facts of one task row, the verdicts of a
diagnosis with their health, the ladder that finds the verdict of a row, and the second ladder that
only ranks it.

Proved here:
* `circuitPhase_of_blocks`: a breaker that blocks has a phase.
* `activityPrecedenceForFacts_eq`: the two ladders agree on every row.
* `health_of_precedence`: from rank six on a row is not healthy, and below it is.
-/

namespace Harvest.Diagnosis

/-! ## Facts and verdicts -/

inductive ExecutionHealth
  | healthy
  | stalled
  | blockedExternal
  | terminal
  | degraded
deriving DecidableEq, Repr

inductive BlockingCircuitPhase
  | opened
  | halfOpen
deriving DecidableEq, Repr

/-- The root cause that a run is blocked on. -/
inductive BlockedOn
  | healthyInProgress
  | awaitingSignal (signalName : String) (since : Option DateTime)
  | sleepingTimer (firesAt : DateTime)
  | pendingChild (childExecId childState : String)
  | activityRetrying (activityName : Option String) (attempt : Int) (lastError : Option String)
      (nextAttemptAt : Option DateTime)
  | activityDeferred (activityName : Option String) (nextAttemptAt : DateTime)
  | activityNoWorker (queue : String) (activityName : Option String)
  | activityCircuitOpen (activityName : String) (phase : BlockingCircuitPhase) (forcedOpen : Bool)
      (cooldownUntil : Option DateTime)
  | activityRateLimited (key : String) (activityName : Option String)
  | activityRateLimitBucketMissing (key : String) (activityName : Option String)
  | activityConcurrencyDeferred (key : String) (activityName : Option String)
  | activityQueuePaused (queue : String) (activityName : Option String)
  | activityPaused (activityName : String)
  | timerOverdue (firesAt : DateTime) (overdueBySeconds : Int)
  | awaitingExternalHandoff (token : String) (activityName : Option String)
  | paused (actor : Option String) (since : Option DateTime)
  | nonDeterminismBlocked (since : DateTime) (reason : Option String) (blockCount : Int)
  | awaitingReplayWait (waitKind : String) (name : Option String) (since : Option DateTime)
  | workflowNoWorker (queue : String)
  | workflowQueuePaused (queue : String)
  | noPendingWork
deriving DecidableEq, Repr

/-- The health that a cause implies. -/
def BlockedOn.health : BlockedOn → ExecutionHealth
  | healthyInProgress | sleepingTimer .. | pendingChild .. | activityRetrying ..
  | activityDeferred .. | activityRateLimited .. | activityConcurrencyDeferred ..
  | activityCircuitOpen _ .halfOpen .. => .healthy
  | awaitingSignal .. | awaitingExternalHandoff .. | awaitingReplayWait .. | paused ..
  | activityQueuePaused .. | activityPaused .. | workflowQueuePaused .. => .blockedExternal
  | activityCircuitOpen _ .opened false _ => .degraded
  | activityNoWorker .. | activityRateLimitBucketMissing .. | workflowNoWorker ..
  | timerOverdue .. | nonDeterminismBlocked .. | activityCircuitOpen .. | noPendingWork => .stalled

/-- The row of one pending activity task. -/
structure PendingActivityFacts where
  activityName : Option String
  queue : String
  taskState : String
  attempt : Int
  lastError : Option String
  scheduledAt : DateTime
  rateLimitKey : Option String
  concurrencyKey : Option String
  queuePaused : Bool
  activityPaused : Bool
  hasLiveWorker : Bool
  claimantIsLive : Option Bool
  circuitPhase : Option BlockingCircuitPhase
  circuitCooldownUntil : Option DateTime
  circuitForcedOpen : Bool
  rateLimitSaturated : Bool
  rateLimitBucketMissing : Bool
  concurrencySaturated : Bool

/-! ## The ladders -/

/-- Whether the breaker blocks the dispatch. An organic trip whose cooldown clears by then does
not. -/
def activityCircuitCurrentlyBlocks (facts : PendingActivityFacts) (now : DateTime) : Bool :=
  match facts.circuitPhase with
  | none => false
  | some .halfOpen => true
  | some .opened =>
    let effectiveDispatchInstant := max facts.scheduledAt now
    let organicCooldownClearsByDispatch := ! facts.circuitForcedOpen &&
      facts.circuitCooldownUntil.any fun deadline => deadline ≤ effectiveDispatchInstant
    ! organicCooldownClearsByDispatch

/-- How hard an impediment is to clear. -/
def activityPrecedence : BlockedOn → ℕ
  | .activityQueuePaused .. => 11
  | .activityPaused .. => 10
  | .activityNoWorker .. => 9
  | .activityRateLimitBucketMissing .. => 8
  | .activityCircuitOpen _ .opened true _ => 7
  | .activityCircuitOpen _ .opened false _ => 6
  | .activityCircuitOpen .. => 5
  | .activityConcurrencyDeferred .. => 4
  | .activityRateLimited .. => 3
  | .activityRetrying .. => 2
  | .activityDeferred .. => 1
  | _ => 0

/-- The rank of a row, without its verdict. -/
def activityPrecedenceForFacts (facts : PendingActivityFacts) (now : DateTime) : ℕ :=
  if facts.taskState ≠ "PENDING" then
    if facts.claimantIsLive.getD facts.hasLiveWorker then 0 else 9
  else if facts.queuePaused then 11
  else if facts.activityPaused && facts.activityName.isSome then 10
  else if ! facts.hasLiveWorker then 9
  else if facts.rateLimitBucketMissing && facts.rateLimitKey.isSome then 8
  else if activityCircuitCurrentlyBlocks facts now && facts.activityName.isSome then
    if facts.circuitPhase = some .opened then if facts.circuitForcedOpen then 7 else 6 else 5
  else if now < facts.scheduledAt then if facts.lastError.isSome then 2 else 1
  else if facts.concurrencySaturated && facts.concurrencyKey.isSome then 4
  else if facts.rateLimitSaturated && facts.rateLimitKey.isSome then 3
  else 0

/-- The rungs of a due row: the concurrency key, then the rate limit. -/
def classifyDue (facts : PendingActivityFacts) : BlockedOn :=
  match facts.concurrencySaturated, facts.concurrencyKey with
  | true, some key => .activityConcurrencyDeferred key facts.activityName
  | _, _ =>
    match facts.rateLimitSaturated, facts.rateLimitKey with
    | true, some key => .activityRateLimited key facts.activityName
    | _, _ => .healthyInProgress

/-- The rungs from the breaker on. -/
def classifyDispatch (facts : PendingActivityFacts) (now : DateTime) : BlockedOn :=
  match activityCircuitCurrentlyBlocks facts now, facts.circuitPhase, facts.activityName with
  | true, some phase, some name =>
    .activityCircuitOpen name phase (phase = .opened && facts.circuitForcedOpen)
      (match phase with
        | .opened => facts.circuitCooldownUntil
        | .halfOpen => none)
  | _, _, _ =>
    if now < facts.scheduledAt then
      if facts.lastError.isSome then
        .activityRetrying facts.activityName facts.attempt facts.lastError (some facts.scheduledAt)
      else .activityDeferred facts.activityName facts.scheduledAt
    else classifyDue facts

/-- The rungs of a row that a worker can claim: first the bucket that does not exist. -/
def classifyClaimable (facts : PendingActivityFacts) (now : DateTime) : BlockedOn :=
  match facts.rateLimitBucketMissing, facts.rateLimitKey with
  | true, some key => .activityRateLimitBucketMissing key facts.activityName
  | _, _ => classifyDispatch facts now

/-- The verdict of one row. -/
def classifyPendingActivity (facts : PendingActivityFacts) (now : DateTime) : BlockedOn :=
  if facts.taskState ≠ "PENDING" then
    if facts.claimantIsLive.getD facts.hasLiveWorker then .healthyInProgress
    else .activityNoWorker facts.queue facts.activityName
  else if facts.queuePaused then .activityQueuePaused facts.queue facts.activityName
  else
    match facts.activityPaused, facts.activityName with
    | true, some name => .activityPaused name
    | _, _ =>
      if ! facts.hasLiveWorker then .activityNoWorker facts.queue facts.activityName
      else classifyClaimable facts now

/-! ## The two ladders agree -/

variable {facts : PendingActivityFacts} {now : DateTime}

theorem circuitPhase_of_blocks (h : activityCircuitCurrentlyBlocks facts now = true) :
    ∃ phase, facts.circuitPhase = some phase := by
  unfold activityCircuitCurrentlyBlocks at h
  cases hphase : facts.circuitPhase with
  | none =>
    rw [hphase] at h
    cases h
  | some phase => exact ⟨phase, rfl⟩

theorem precedence_classifyDue (facts : PendingActivityFacts) :
    activityPrecedence (classifyDue facts) =
      if facts.concurrencySaturated && facts.concurrencyKey.isSome then 4
      else if facts.rateLimitSaturated && facts.rateLimitKey.isSome then 3
      else 0 := by
  have hrate : activityPrecedence (match facts.rateLimitSaturated, facts.rateLimitKey with
      | true, some key => .activityRateLimited key facts.activityName
      | _, _ => .healthyInProgress) =
      if facts.rateLimitSaturated && facts.rateLimitKey.isSome then 3 else 0 := by
    cases facts.rateLimitSaturated with
    | false => rfl
    | true => cases facts.rateLimitKey with
      | none => rfl
      | some key => rfl
  rw [← hrate]
  unfold classifyDue
  cases facts.concurrencySaturated with
  | false => rfl
  | true => cases facts.concurrencyKey with
    | none => rfl
    | some key => rfl

theorem precedence_classifyDispatch (facts : PendingActivityFacts) (now : DateTime) :
    activityPrecedence (classifyDispatch facts now) =
      if activityCircuitCurrentlyBlocks facts now && facts.activityName.isSome then
        if facts.circuitPhase = some .opened then if facts.circuitForcedOpen then 7 else 6 else 5
      else if now < facts.scheduledAt then if facts.lastError.isSome then 2 else 1
      else activityPrecedence (classifyDue facts) := by
  have hlater : activityPrecedence (if now < facts.scheduledAt then
        if facts.lastError.isSome then
          .activityRetrying facts.activityName facts.attempt facts.lastError (some facts.scheduledAt)
        else .activityDeferred facts.activityName facts.scheduledAt
      else classifyDue facts) =
      if now < facts.scheduledAt then if facts.lastError.isSome then 2 else 1
      else activityPrecedence (classifyDue facts) := by
    split_ifs
    · rfl
    · rfl
    · rfl
  rw [← hlater]
  unfold classifyDispatch
  cases hblocks : activityCircuitCurrentlyBlocks facts now with
  | false => rfl
  | true =>
    obtain ⟨phase, hphase⟩ := circuitPhase_of_blocks hblocks
    rw [hphase]
    cases facts.activityName with
    | none => rfl
    | some name =>
      cases phase with
      | halfOpen => rfl
      | opened =>
        cases facts.circuitForcedOpen with
        | false => rfl
        | true => rfl

theorem precedence_classifyClaimable (facts : PendingActivityFacts) (now : DateTime) :
    activityPrecedence (classifyClaimable facts now) =
      if facts.rateLimitBucketMissing && facts.rateLimitKey.isSome then 8
      else activityPrecedence (classifyDispatch facts now) := by
  unfold classifyClaimable
  cases facts.rateLimitBucketMissing with
  | false => rfl
  | true => cases facts.rateLimitKey with
    | none => rfl
    | some key => rfl

/-- **The two ladders agree** on every row and at every time. -/
theorem activityPrecedenceForFacts_eq (facts : PendingActivityFacts) (now : DateTime) :
    activityPrecedenceForFacts facts now =
      activityPrecedence (classifyPendingActivity facts now) := by
  unfold activityPrecedenceForFacts classifyPendingActivity
  rw [← precedence_classifyDue, ← precedence_classifyDispatch, ← precedence_classifyClaimable]
  by_cases hstate : facts.taskState ≠ "PENDING"
  · rw [if_pos hstate, if_pos hstate]
    split_ifs
    · rfl
    · rfl
  · rw [if_neg hstate, if_neg hstate]
    by_cases hqueue : facts.queuePaused = true
    · rw [if_pos hqueue, if_pos hqueue]
      rfl
    · rw [if_neg hqueue, if_neg hqueue]
      have hclaim : (if ! facts.hasLiveWorker then 9
          else activityPrecedence (classifyClaimable facts now)) =
          activityPrecedence (if ! facts.hasLiveWorker then
            .activityNoWorker facts.queue facts.activityName else classifyClaimable facts now) := by
        split_ifs
        · rfl
        · rfl
      rw [hclaim]
      cases facts.activityPaused with
      | false => rfl
      | true => cases facts.activityName with
        | none => rfl
        | some name => rfl

/-! ## Rank and health -/

/-- The verdict is one that a row can get. -/
def BlockedOn.OfActivity : BlockedOn → Prop
  | healthyInProgress | activityRetrying .. | activityDeferred .. | activityNoWorker ..
  | activityCircuitOpen .. | activityRateLimited .. | activityRateLimitBucketMissing ..
  | activityConcurrencyDeferred .. | activityQueuePaused .. | activityPaused .. => True
  | _ => False

theorem classifyDue_ofActivity (facts : PendingActivityFacts) : (classifyDue facts).OfActivity := by
  unfold classifyDue
  split
  · trivial
  · split
    · trivial
    · trivial

theorem classifyDispatch_ofActivity (facts : PendingActivityFacts) (now : DateTime) :
    (classifyDispatch facts now).OfActivity := by
  unfold classifyDispatch
  split
  · trivial
  · split_ifs
    · trivial
    · trivial
    · exact classifyDue_ofActivity facts

theorem classifyPendingActivity_ofActivity (facts : PendingActivityFacts) (now : DateTime) :
    (classifyPendingActivity facts now).OfActivity := by
  unfold classifyPendingActivity
  split_ifs
  · trivial
  · trivial
  · trivial
  · split
    · trivial
    · trivial
  · split
    · trivial
    · unfold classifyClaimable
      split
      · trivial
      · exact classifyDispatch_ofActivity facts now

/-- **Rank and health**: from rank six on the verdict of a row is not healthy, below it is. -/
theorem health_of_precedence {verdict : BlockedOn} (h : verdict.OfActivity) :
    verdict.health ≠ .healthy ↔ 6 ≤ activityPrecedence verdict := by
  cases verdict with
  | activityCircuitOpen name phase forcedOpen cooldownUntil =>
    cases phase with
    | halfOpen => simp [BlockedOn.health, activityPrecedence]
    | opened =>
      cases forcedOpen with
      | false => simp [BlockedOn.health, activityPrecedence]
      | true => simp [BlockedOn.health, activityPrecedence]
  | healthyInProgress | activityRetrying | activityDeferred | activityNoWorker
  | activityRateLimited | activityRateLimitBucketMissing | activityConcurrencyDeferred
  | activityQueuePaused | activityPaused => simp [BlockedOn.health, activityPrecedence]
  | _ => exact h.elim

end Harvest.Diagnosis
