import Harvest.Diagnosis.Activity
import Harvest.Lib.Select
import Mathlib.Data.List.Basic

/-!
# The diagnosis of an execution

Model of `classify_execution` in `stall_diagnosis.rs`: one verdict for all the facts of a run. A
pending activity comes before the other waits, and of several activities the worst one counts.

Proved here:
* `worstActivityIndex_spec`: the fold finds the first row with the greatest rank.
* `hardImpediment_not_healthy`: a workflow task that cannot be claimed is not healthy.
* `a_fan_out_reports_its_worst_activity`: what a run with pending activities reports.
-/

namespace Harvest.Diagnosis

/-! ## Facts of a run -/

structure ExternalHandoffFacts where
  token : String
  activityName : Option String

structure PendingChildFacts where
  childExecId : String
  childState : String

structure AwaitedSignalFacts where
  signalName : String
  since : Option DateTime

structure NdBlockFacts where
  blockedAt : DateTime
  reason : Option String
  blockCount : Int

structure PendingTimerFacts where
  firesAt : DateTime

/-- The task row of the run itself. -/
structure WorkflowTaskFacts where
  state : String
  hasWorker : Bool
  queueName : String
  scheduledAt : DateTime
  queuePaused : Bool
  hasLiveWorker : Bool
  claimantIsLive : Option Bool
  createdAt : Option DateTime
  timerFiresAt : Option DateTime

structure ReplayWaitFacts where
  waitKind : String
  name : Option String
  since : Option DateTime

structure DiagnosisInputs where
  isTerminal : Bool
  isPaused : Bool
  pauseActor : Option String
  pausedSince : Option DateTime
  activities : List PendingActivityFacts
  externalHandoffs : List ExternalHandoffFacts
  children : List PendingChildFacts
  awaitedSignals : List AwaitedSignalFacts
  timers : List PendingTimerFacts
  replayWaits : List ReplayWaitFacts
  workflowTask : Option WorkflowTaskFacts
  ndBlock : Option NdBlockFacts

/-! ## The workflow task and its timers -/

/-- What stops the workflow task from being claimed at all. -/
def workflowTaskHardImpediment (facts : WorkflowTaskFacts) : Option BlockedOn :=
  if facts.hasWorker then
    if ! facts.claimantIsLive.getD facts.hasLiveWorker then some (.workflowNoWorker facts.queueName)
    else none
  else if facts.state ≠ "PENDING" then none
  else if facts.queuePaused then some (.workflowQueuePaused facts.queueName)
  else if ! facts.hasLiveWorker then some (.workflowNoWorker facts.queueName)
  else none

def classifyWorkflowTask (facts : WorkflowTaskFacts) : Option BlockedOn :=
  match workflowTaskHardImpediment facts with
  | some hard => some hard
  | none =>
    if facts.hasWorker then some .healthyInProgress
    else if facts.state ≠ "PENDING" then none
    else some .healthyInProgress

/-- `TimeDelta::num_seconds`, which rounds to zero. -/
def numSeconds (nanos : Int) : Int := nanos.tdiv 1000000000

/-- `TIMER_OVERDUE_GRACE_SECONDS` -/
def timerOverdueGraceSeconds : Int := 60

/-- `TIMER_OWNERSHIP_TOLERANCE_SECONDS` -/
def timerOwnershipToleranceSeconds : Int := 2

/-- `WAKE_REPEND_MIN_GAP_SECONDS` -/
def wakeRependMinGapSeconds : Int := -2

/-- The wake of the workflow task is overdue. Without a task this is so. -/
def workflowWakeWasMissed (task : Option WorkflowTaskFacts) (now : DateTime) : Bool :=
  task.all fun task => ! task.hasWorker && task.state = "PENDING" &&
    timerOverdueGraceSeconds ≤ numSeconds (now - task.scheduledAt)

def timerOwnsTheWake (scheduledAt firesAt : DateTime) : Bool :=
  (numSeconds (scheduledAt - firesAt)).natAbs ≤ timerOwnershipToleranceSeconds.natAbs

def wakeSourceRependedThisRow (task : WorkflowTaskFacts) : Bool :=
  task.createdAt.any fun createdAt =>
    wakeRependMinGapSeconds ≤ numSeconds (createdAt - task.scheduledAt)

def isTheMissedTimerWake (timer : PendingTimerFacts) (task : Option WorkflowTaskFacts)
    (now : DateTime) : Bool :=
  timerOverdueGraceSeconds ≤ numSeconds (now - timer.firesAt) &&
    task.all fun task => task.scheduledAt = timer.firesAt ||
      ((task.timerFiresAt = some timer.firesAt ||
        timerOwnsTheWake task.scheduledAt timer.firesAt) && ! wakeSourceRependedThisRow task)

/-- The first of the earliest timers. -/
def earliestTimer (timers : List PendingTimerFacts) : Option PendingTimerFacts :=
  Lib.minBy (fun a b => a.firesAt ≤ b.firesAt) timers

/-! ## The verdict of a run -/

/-- One row of the fold: a later row wins only with a greater rank. -/
def keepWorst (now : DateTime) (worst : Option (ℕ × ℕ)) :
    PendingActivityFacts × ℕ → Option (ℕ × ℕ)
  | (facts, i) =>
    let candidatePrecedence := activityPrecedenceForFacts facts now
    match worst with
    | some (best, currentPrecedence) =>
      if candidatePrecedence ≤ currentPrecedence then some (best, currentPrecedence)
      else some (i, candidatePrecedence)
    | none => some (i, candidatePrecedence)

def worstActivityIndex (activities : List PendingActivityFacts) (now : DateTime) :
    Option (ℕ × ℕ) :=
  activities.zipIdx.foldl (keepWorst now) none

/-- The activity verdict that is taken: the one of the winning row. -/
def activityVerdict (activities : List PendingActivityFacts) (now : DateTime) : Option BlockedOn :=
  (worstActivityIndex activities now).bind fun (i, _) =>
    (activities[i]?).map fun facts => classifyPendingActivity facts now

/-- The ladder below the activities. -/
def classifyWaits (inputs : DiagnosisInputs) (now : DateTime) : BlockedOn :=
  let overdue := if workflowWakeWasMissed inputs.workflowTask now then
      earliestTimer (inputs.timers.filter fun timer =>
        isTheMissedTimerWake timer inputs.workflowTask now)
    else none
  match inputs.workflowTask.bind workflowTaskHardImpediment, overdue, inputs.externalHandoffs,
      inputs.children, inputs.awaitedSignals with
  | some hard, _, _, _, _ => hard
  | none, some timer, _, _, _ => .timerOverdue timer.firesAt (numSeconds (now - timer.firesAt))
  | none, none, handoff :: _, _, _ => .awaitingExternalHandoff handoff.token handoff.activityName
  | none, none, [], child :: _, _ => .pendingChild child.childExecId child.childState
  | none, none, [], [], signal :: _ => .awaitingSignal signal.signalName signal.since
  | none, none, [], [], [] =>
    match earliestTimer inputs.timers, inputs.workflowTask.bind classifyWorkflowTask,
        inputs.replayWaits with
    | some timer, _, _ => .sleepingTimer timer.firesAt
    | none, some verdict, _ => verdict
    | none, none, wait :: _ => .awaitingReplayWait wait.waitKind wait.name wait.since
    | none, none, [] => .noPendingWork

/-- The root cause of a run, none for a terminal one. -/
def classifyExecution (inputs : DiagnosisInputs) (now : DateTime) : Option BlockedOn :=
  if inputs.isTerminal then none
  else if inputs.isPaused then some (.paused inputs.pauseActor inputs.pausedSince)
  else
    match inputs.ndBlock with
    | some nd => some (.nonDeterminismBlocked nd.blockedAt nd.reason nd.blockCount)
    | none =>
      match activityVerdict inputs.activities now with
      | some verdict =>
        -- a frozen workflow task is worse than an activity that clears by itself
        match inputs.workflowTask.bind workflowTaskHardImpediment with
        | some hard => if verdict.health = .degraded then some hard else some verdict
        | none => some verdict
      | none => some (classifyWaits inputs now)

/-! ## The worst activity -/

variable {now : DateTime}

/-- The row comes first among those of the greatest rank. -/
def FirstWorst (now : DateTime) (activities : List PendingActivityFacts)
    (row : PendingActivityFacts) (i : ℕ) : Prop :=
  ∃ before after, activities = before ++ row :: after ∧ before.length = i ∧
    (∀ other ∈ before, activityPrecedenceForFacts other now < activityPrecedenceForFacts row now) ∧
    ∀ other ∈ after, activityPrecedenceForFacts other now ≤ activityPrecedenceForFacts row now

/-- **The fold** finds the first row with the greatest rank. -/
theorem worstActivityIndex_spec {activities : List PendingActivityFacts} (hne : activities ≠ []) :
    ∃ row i, worstActivityIndex activities now = some (i, activityPrecedenceForFacts row now) ∧
      FirstWorst now activities row i := by
  induction activities using List.reverseRecOn with
  | nil => exact absurd rfl hne
  | append_singleton rows last ih =>
    have hfold : worstActivityIndex (rows ++ [last]) now =
        keepWorst now (worstActivityIndex rows now) (last, rows.length) := by
      unfold worstActivityIndex
      rw [List.zipIdx_append, List.foldl_append, Nat.zero_add]
      rfl
    rw [hfold]
    by_cases hempty : rows = []
    · subst hempty
      have hnone : worstActivityIndex [] now = none := rfl
      rw [hnone, keepWorst]
      exact ⟨last, 0, rfl, [], [], List.nil_append _, rfl, fun _ h => absurd h List.not_mem_nil,
        fun _ h => absurd h List.not_mem_nil⟩
    · obtain ⟨row, i, hworst, before, after, rfl, hlength, hbefore, hafter⟩ := ih hempty
      rw [hworst, keepWorst]
      split_ifs with hle
      · -- the last row is not worse
        refine ⟨row, i, rfl, before, after ++ [last], by simp, hlength, hbefore, fun other hother => ?_⟩
        rcases List.mem_append.mp hother with hold | hnew
        · exact hafter other hold
        · exact List.mem_singleton.mp hnew ▸ hle
      · refine ⟨last, _, rfl, before ++ row :: after, [], rfl, rfl, fun other hother => ?_,
          fun _ h => absurd h List.not_mem_nil⟩
        have hlt := not_le.mp hle
        rcases List.mem_append.mp hother with hold | hnew
        · exact (hbefore other hold).trans hlt
        · rcases List.mem_cons.mp hnew with rfl | hnew
          · exact hlt
          · exact (hafter other hnew).trans_lt hlt

theorem FirstWorst.le {activities : List PendingActivityFacts} {row other : PendingActivityFacts}
    {i : ℕ} (h : FirstWorst now activities row i) (hother : other ∈ activities) :
    activityPrecedenceForFacts other now ≤ activityPrecedenceForFacts row now := by
  obtain ⟨before, after, rfl, -, hbefore, hafter⟩ := h
  rcases List.mem_append.mp hother with hold | hnew
  · exact (hbefore other hold).le
  · rcases List.mem_cons.mp hnew with rfl | hnew
    · exact le_rfl
    · exact hafter other hnew

theorem activityVerdict_spec {activities : List PendingActivityFacts} (hne : activities ≠ []) :
    ∃ row i, FirstWorst now activities row i ∧
      activityVerdict activities now = some (classifyPendingActivity row now) := by
  obtain ⟨row, i, hworst, hfirst⟩ := @worstActivityIndex_spec now activities hne
  refine ⟨row, i, hfirst, ?_⟩
  obtain ⟨before, after, rfl, rfl, -, -⟩ := hfirst
  unfold activityVerdict
  rw [hworst]
  simp

/-- A workflow task that cannot be claimed is not healthy. -/
theorem hardImpediment_not_healthy {facts : WorkflowTaskFacts} {hard : BlockedOn}
    (h : workflowTaskHardImpediment facts = some hard) : hard.health ≠ .healthy := by
  unfold workflowTaskHardImpediment at h
  split_ifs at h
  · exact Option.some.inj h ▸ nofun
  · exact Option.some.inj h ▸ nofun
  · exact Option.some.inj h ▸ nofun

/-- **A fan-out reports its worst activity.** The two ladders agree on every row. For a live run that
is neither paused nor blocked and has pending activities, the activity verdict is that of the first
row with the greatest rank, and a row that is not healthy makes the report not healthy. -/
theorem a_fan_out_reports_its_worst_activity :
    (∀ facts now, activityPrecedenceForFacts facts now =
      activityPrecedence (classifyPendingActivity facts now)) ∧
    ∀ (inputs : DiagnosisInputs) (now : DateTime), inputs.isTerminal = false →
      inputs.isPaused = false → inputs.ndBlock = none → inputs.activities ≠ [] →
      (∃ before row after, inputs.activities = before ++ row :: after ∧
        (∀ other ∈ before, activityPrecedence (classifyPendingActivity other now) <
          activityPrecedence (classifyPendingActivity row now)) ∧
        (∀ other ∈ after, activityPrecedence (classifyPendingActivity other now) ≤
          activityPrecedence (classifyPendingActivity row now)) ∧
        activityVerdict inputs.activities now = some (classifyPendingActivity row now)) ∧
      ∃ reported, classifyExecution inputs now = some reported ∧
        ((∃ row ∈ inputs.activities, (classifyPendingActivity row now).health ≠ .healthy) →
          reported.health ≠ .healthy) := by
  refine ⟨activityPrecedenceForFacts_eq, fun inputs now hlive hunpaused hunblocked hne => ?_⟩
  obtain ⟨row, i, hfirst, hverdict⟩ := @activityVerdict_spec now inputs.activities hne
  constructor
  · obtain ⟨before, after, hsplit, -, hbefore, hafter⟩ := hfirst
    simp only [activityPrecedenceForFacts_eq] at hbefore hafter
    exact ⟨before, row, after, hsplit, hbefore, hafter, hverdict⟩
  · -- a row that is not healthy has a rank that the winning row has too
    have hworse : (∃ other ∈ inputs.activities,
        (classifyPendingActivity other now).health ≠ .healthy) →
        (classifyPendingActivity row now).health ≠ .healthy := by
      rintro ⟨other, hother, hsick⟩
      have hle := hfirst.le hother
      rw [activityPrecedenceForFacts_eq, activityPrecedenceForFacts_eq] at hle
      rw [health_of_precedence (classifyPendingActivity_ofActivity _ _)] at hsick ⊢
      exact hsick.trans hle
    unfold classifyExecution
    rw [hlive, hunpaused, hunblocked, hverdict]
    dsimp only
    rw [if_neg Bool.false_ne_true, if_neg Bool.false_ne_true]
    cases hhard : inputs.workflowTask.bind workflowTaskHardImpediment with
    | none => exact ⟨_, rfl, hworse⟩
    | some hard =>
      obtain ⟨task, -, htask⟩ := Option.bind_eq_some_iff.mp hhard
      dsimp only
      split_ifs
      · exact ⟨hard, rfl, fun _ => hardImpediment_not_healthy htask⟩
      · exact ⟨_, rfl, hworse⟩

/-- A row that is due and that nothing impedes. -/
def dueRow : PendingActivityFacts where
  activityName := some "charge"
  queue := "payments"
  taskState := "PENDING"
  attempt := 1
  lastError := none
  scheduledAt := 0
  rateLimitKey := none
  concurrencyKey := none
  queuePaused := false
  activityPaused := false
  hasLiveWorker := true
  claimantIsLive := none
  circuitPhase := none
  circuitCooldownUntil := none
  circuitForcedOpen := false
  rateLimitSaturated := false
  rateLimitBucketMissing := false
  concurrencySaturated := false

/-- A run with a healthy row, a row without a worker and an open breaker. -/
def fanOut : DiagnosisInputs where
  isTerminal := false
  isPaused := false
  pauseActor := none
  pausedSince := none
  activities := [dueRow, { dueRow with hasLiveWorker := false },
    { dueRow with circuitPhase := some .opened }]
  externalHandoffs := []
  children := []
  awaitedSignals := []
  timers := []
  replayWaits := []
  workflowTask := none
  ndBlock := none

/-- The row without a worker is reported. -/
theorem a_fan_out_reports_the_row_without_a_worker :
    classifyExecution fanOut 5 = some (.activityNoWorker "payments" (some "charge")) ∧
      ∃ reported, classifyExecution fanOut 5 = some reported ∧ reported.health ≠ .healthy := by
  refine ⟨by decide, ?_⟩
  obtain ⟨reported, hreported, hsick⟩ :=
    (a_fan_out_reports_its_worst_activity.2 fanOut 5 rfl rfl rfl nofun).2
  refine ⟨reported, hreported, hsick ⟨{ dueRow with hasLiveWorker := false }, ?_, by decide⟩⟩
  exact List.mem_cons_of_mem _ List.mem_cons_self

end Harvest.Diagnosis
