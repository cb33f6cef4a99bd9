import Harvest.Lib.Capped
import Harvest.RetryBudget.Session
import Mathlib.Tactic.Linarith
import Mathlib.Tactic.Positivity
import Mathlib.Tactic.Ring

/-!
# The tokens of a retry budget

What the tokens of a bucket say about the retries that it admitted.

Proved here:
* `Balance.access`, `Balance.call`: what a refill and a call do to the balance of a bucket.
* `the_budget_bounds_the_retries`: tokens and admitted retries in every run.
-/

namespace Harvest.RetryBudget

open Lib (exec Legal)

/-! ## The balance of one bucket -/

/-- What a call adds to the admitted retries that were not released. -/
def Call.netRetries : Call → Bucket → ℚ
  | .admitAttempt _ true, bucket => if 1 - spendEpsilon ≤ bucket.tokens then 1 else 0
  | .release .spent, _ => -1
  | _, _ => 0

/-- What a call adds to the first attempts that started. -/
def Call.newFirsts : Call → ℕ
  | .commit .pendingDeposit => 1
  | _ => 0

/-- The tokens are in their range, and with the retries they are paid for by the full bucket, the
time since the start and the first attempts. -/
structure Balance (policy : RetryBudgetPolicy) (start : ℕ) (bucket : Bucket) (net : ℚ)
    (firsts : ℕ) : Prop where
  low : -spendEpsilon ≤ bucket.tokens
  high : bucket.tokens ≤ policy.maxTokens
  started : start ≤ bucket.refilledAt
  paid : net + bucket.tokens ≤ policy.maxTokens +
    policy.minRetriesPerSec * (((bucket.refilledAt - start : ℕ) : ℚ) / second) +
    policy.ratio * firsts

theorem spendEpsilon_pos : 0 < spendEpsilon := by norm_num [spendEpsilon]

namespace Balance

variable {policy : RetryBudgetPolicy} {start now : ℕ} {bucket : Bucket} {net : ℚ} {firsts : ℕ}

theorem full (policy : RetryBudgetPolicy) (now : ℕ) :
    Balance policy now (.full policy now) 0 0 := by
  have hmax := policy.one_le_maxTokens
  refine ⟨?_, le_rfl, le_rfl, ?_⟩
  · change -spendEpsilon ≤ policy.maxTokens
    linarith [spendEpsilon_pos]
  · simp [Bucket.full]

theorem refillAmount_nonneg (policy : RetryBudgetPolicy) (refilledAt now : ℕ) :
    0 ≤ Bucket.refillAmount policy refilledAt now := by
  have hrate := policy.rate_nonneg
  unfold Bucket.refillAmount
  positivity

/-- **A refill** adds no more than what time pays for. -/
theorem access (h : Balance policy start bucket net firsts) (now : ℕ) :
    Balance policy start (bucket.access policy now) net firsts := by
  have hamount := refillAmount_nonneg policy bucket.refilledAt now
  have hmax := policy.one_le_maxTokens
  have htime : (((max bucket.refilledAt now - start : ℕ) : ℚ)) =
      ((bucket.refilledAt - start : ℕ) : ℚ) + ((now - bucket.refilledAt : ℕ) : ℚ) := by
    have hstarted := h.started
    have hnat : max bucket.refilledAt now - start =
        (bucket.refilledAt - start) + (now - bucket.refilledAt) := by omega
    rw [hnat, Nat.cast_add]
  refine ⟨?_, min_le_right _ _, h.started.trans (le_max_left _ _), ?_⟩
  · refine le_min ?_ ?_
    · linarith [h.low]
    · linarith [spendEpsilon_pos]
  · change net + min _ _ ≤ policy.maxTokens +
      policy.minRetriesPerSec * (((max bucket.refilledAt now - start : ℕ) : ℚ) / second) +
      policy.ratio * firsts
    have hcut := min_le_left (bucket.tokens + Bucket.refillAmount policy bucket.refilledAt now)
      policy.maxTokens
    have hpaid := h.paid
    rw [htime]
    unfold Bucket.refillAmount at hcut ⊢
    rw [add_div, mul_add]
    linarith [mul_comm policy.minRetriesPerSec (((now - bucket.refilledAt : ℕ) : ℚ) / second)]

/-- A bucket with the same tokens and refill time. -/
theorem congr (h : Balance policy start bucket net firsts) {bucket' : Bucket}
    (htokens : bucket'.tokens = bucket.tokens) (htime : bucket'.refilledAt = bucket.refilledAt) :
    Balance policy start bucket' net firsts := by
  obtain ⟨hlow, hhigh, hstarted, hpaid⟩ := h
  refine ⟨?_, ?_, ?_, ?_⟩
  · rwa [htokens]
  · rwa [htokens]
  · rwa [htime]
  · rwa [htokens, htime]

end Balance

/-! ## Calls that leave the tokens alone -/

namespace Bucket

variable {policy : RetryBudgetPolicy} {bucket : Bucket}

theorem rollBack_keeps (fuel : ℕ) (bucket : Bucket) :
    (rollBack fuel bucket).tokens = bucket.tokens ∧
      (rollBack fuel bucket).refilledAt = bucket.refilledAt := by
  induction fuel generalizing bucket with
  | zero => exact ⟨rfl, rfl⟩
  | succ fuel ih =>
    unfold rollBack
    split
    · exact ⟨rfl, rfl⟩
    · exact ih _

theorem cancel_keeps (reservation : SlotReservation) (now : ℕ) (bucket : Bucket) :
    (bucket.cancel reservation now).tokens = bucket.tokens ∧
      (bucket.cancel reservation now).refilledAt = bucket.refilledAt := by
  unfold cancel
  split_ifs
  · exact ⟨rfl, rfl⟩
  · exact rollBack_keeps _ _

theorem reserveSlot_keeps (overflow : ℕ) (policy : RetryBudgetPolicy) (now : ℕ)
    (bucket : Bucket) :
    (bucket.reserveSlot overflow policy now).2.tokens = bucket.tokens ∧
      (bucket.reserveSlot overflow policy now).2.refilledAt = bucket.refilledAt := by
  unfold reserveSlot
  dsimp only
  split_ifs
  · exact ⟨rfl, rfl⟩
  · exact ⟨rfl, rfl⟩

theorem rewake_keeps (overflow : ℕ) (policy : RetryBudgetPolicy)
    (reservation : Option SlotReservation) (now : ℕ) (bucket : Bucket) :
    (bucket.rewake overflow policy reservation now).2.tokens = bucket.tokens ∧
      (bucket.rewake overflow policy reservation now).2.refilledAt = bucket.refilledAt := by
  unfold rewake
  cases reservation with
  | none => exact reserveSlot_keeps _ _ _ _
  | some old =>
    obtain ⟨htokens, htime⟩ := cancel_keeps old now bucket
    obtain ⟨htokens', htime'⟩ := reserveSlot_keeps overflow policy now (bucket.cancel old now)
    exact ⟨htokens'.trans htokens, htime'.trans htime⟩

/-- A retry is admitted when the bucket holds a token, up to the tolerance. -/
theorem admitAttempt_retry (overflow : ℕ) (policy : RetryBudgetPolicy) (now : ℕ) (bucket : Bucket) :
    (1 - spendEpsilon ≤ bucket.tokens ∧ bucket.admitAttempt overflow policy true now =
      (.admitted .spent (bucket.tokens - 1), { bucket with tokens := bucket.tokens - 1 })) ∨
    (bucket.tokens < 1 - spendEpsilon ∧ ∃ retryAfter available reservation,
      (bucket.admitAttempt overflow policy true now).1 = .deferred retryAfter available reservation ∧
      (bucket.admitAttempt overflow policy true now).2 = (bucket.reserveSlot overflow policy now).2) := by
  have hretry : ¬ (! true) = true := by decide
  unfold admitAttempt
  dsimp only
  rw [if_neg hretry]
  split_ifs with h
  · exact .inl ⟨h, rfl⟩
  · exact .inr ⟨not_le.mp h, _, _, _, rfl, rfl⟩

end Bucket

/-- **A call** keeps the balance. -/
theorem Balance.call {policy : RetryBudgetPolicy} {start : ℕ} {bucket : Bucket} {net : ℚ}
    {firsts : ℕ} (h : Balance policy start bucket net firsts) (now : ℕ) (call : Call) :
    Balance policy start (call.onBucket policy now bucket) (net + call.netRetries bucket)
        (firsts + call.newFirsts) ∧
      (call.onBucket policy now bucket).refilledAt = bucket.refilledAt := by
  obtain ⟨hlow, hhigh, hstarted, hpaid⟩ := h
  have hidle : Balance policy start bucket (net + 0) (firsts + 0) := by
    rw [add_zero, Nat.add_zero]
    exact ⟨hlow, hhigh, hstarted, hpaid⟩
  have hmax := policy.one_le_maxTokens
  cases call with
  | admitAttempt overflow isRetry =>
    cases isRetry with
    | false => exact ⟨hidle, rfl⟩
    | true =>
      change Balance policy start (bucket.admitAttempt overflow policy true now).2
        (net + if 1 - spendEpsilon ≤ bucket.tokens then 1 else 0) (firsts + 0) ∧
        (bucket.admitAttempt overflow policy true now).2.refilledAt = bucket.refilledAt
      rcases bucket.admitAttempt_retry overflow policy now with ⟨hfund, hadmission⟩ | ⟨hfund, -, -, -, -, hadmission⟩
      · rw [hadmission, if_pos hfund]
        refine ⟨⟨?_, ?_, hstarted, ?_⟩, rfl⟩
        · change -spendEpsilon ≤ bucket.tokens - 1
          linarith
        · change bucket.tokens - 1 ≤ policy.maxTokens
          linarith
        · change net + 1 + (bucket.tokens - 1) ≤ _
          rw [Nat.add_zero]
          linarith
      · rw [hadmission, if_neg (not_le.mpr hfund)]
        obtain ⟨htokens, htime⟩ := Bucket.reserveSlot_keeps overflow policy now bucket
        exact ⟨hidle.congr htokens htime, htime⟩
  | commit ticket =>
    cases ticket with
    | spent => exact ⟨hidle, rfl⟩
    | pendingDeposit =>
      have hratio := policy.ratio_nonneg
      refine ⟨⟨?_, min_le_right _ _, hstarted, ?_⟩, rfl⟩
      · refine le_min ?_ ?_
        · linarith
        · linarith [spendEpsilon_pos]
      · change net + 0 + min (bucket.tokens + policy.ratio) policy.maxTokens ≤
          policy.maxTokens + _ + policy.ratio * ((firsts + 1 : ℕ) : ℚ)
        have hcut := min_le_left (bucket.tokens + policy.ratio) policy.maxTokens
        rw [Nat.cast_add, Nat.cast_one, mul_add, mul_one]
        change net + 0 + _ ≤ policy.maxTokens +
          policy.minRetriesPerSec * (((bucket.refilledAt - start : ℕ) : ℚ) / second) + _
        linarith
  | release ticket =>
    cases ticket with
    | pendingDeposit => exact ⟨hidle, rfl⟩
    | spent =>
      refine ⟨⟨?_, min_le_right _ _, hstarted, ?_⟩, rfl⟩
      · refine le_min ?_ ?_
        · linarith
        · linarith [spendEpsilon_pos]
      · change net + -1 + min (bucket.tokens + 1) policy.maxTokens ≤ policy.maxTokens +
          policy.minRetriesPerSec * (((bucket.refilledAt - start : ℕ) : ℚ) / second) +
          policy.ratio * ((firsts + 0 : ℕ) : ℚ)
        have hcut := min_le_left (bucket.tokens + 1) policy.maxTokens
        rw [Nat.add_zero]
        linarith
  | available => exact ⟨hidle, rfl⟩
  | cancelDeferral reservation =>
    obtain ⟨htokens, htime⟩ := Bucket.cancel_keeps reservation now bucket
    exact ⟨hidle.congr htokens htime, htime⟩
  | wakeDelay overflow wakeAt reservation =>
    obtain ⟨htokens, htime⟩ := Bucket.rewake_keeps overflow policy reservation now bucket
    exact ⟨hidle.congr htokens htime, htime⟩

/-! ## The balance of a session -/

namespace Session

variable {activityName : String} {policy : RetryBudgetPolicy} {s : Session}

/-- What one call that takes the bucket counts. -/
theorem step_counts (hpolicy : s.registry.config.policyFor activityName = some policy) {act : Act}
    (htakes : takesBucket act = true) :
    ((step activityName s act).retries : ℚ) - (step activityName s act).released =
        (s.retries : ℚ) - s.released +
          act.1.netRetries ((s.found activityName policy act.2).access policy act.2) ∧
      (step activityName s act).firsts = s.firsts + act.1.newFirsts := by
  obtain ⟨call, now⟩ := act
  unfold step
  rw [if_pos htakes]
  cases call with
  | admitAttempt overflow isRetry =>
    dsimp only
    rw [RetryBudgetRegistry.admitAttempt, withBucket_of_policy hpolicy]
    dsimp only [Option.getD_some]
    cases isRetry with
    | false => exact ⟨(add_zero _).symm, rfl⟩
    | true =>
      change _ = _ + (if 1 - spendEpsilon ≤ ((s.found activityName policy now).access policy now).tokens
        then (1 : ℚ) else 0) ∧ _
      rcases ((s.found activityName policy now).access policy now).admitAttempt_retry overflow policy now with
        ⟨hfund, hadmission⟩ | ⟨hfund, retryAfter, available, reservation, hadmission, -⟩
      · rw [if_pos hfund]
        unfold found at hadmission
        rw [hadmission]
        refine ⟨?_, rfl⟩
        change ((s.retries + 1 : ℕ) : ℚ) - s.released = _
        push_cast
        ring
      · rw [if_neg (not_le.mpr hfund)]
        unfold found at hadmission
        rw [hadmission]
        exact ⟨(add_zero _).symm, rfl⟩
  | commit ticket =>
    cases ticket with
    | pendingDeposit => exact ⟨(add_zero _).symm, rfl⟩
    | spent => exact ⟨(add_zero _).symm, rfl⟩
  | release ticket =>
    cases ticket with
    | pendingDeposit => exact ⟨(add_zero _).symm, rfl⟩
    | spent =>
      refine ⟨?_, rfl⟩
      change (s.retries : ℚ) - ((s.released + 1 : ℕ) : ℚ) = (s.retries : ℚ) - s.released + -1
      push_cast
      ring
  | available => exact ⟨(add_zero _).symm, rfl⟩
  | cancelDeferral reservation => exact ⟨(add_zero _).symm, rfl⟩
  | wakeDelay overflow wakeAt reservation => exact ⟨(add_zero _).symm, rfl⟩

theorem latest_append {seen : List ℕ} (now : ℕ) :
    (seen ++ [now]).foldl max 0 = max (seen.foldl max 0) now := by
  rw [List.foldl_append]
  rfl

/-- What holds between calls. -/
structure Tallied (activityName : String) (policy : RetryBudgetPolicy) (s : Session) : Prop where
  policyFor : s.registry.config.policyFor activityName = some policy
  fresh : s.registry.buckets activityName = none →
    s.seen = [] ∧ s.retries = 0 ∧ s.released = 0 ∧ s.firsts = 0
  balance : ∀ bucket, s.registry.buckets activityName = some bucket →
    s.seen ≠ [] ∧ bucket.refilledAt = s.latest ∧
      Balance policy s.start bucket ((s.retries : ℚ) - s.released) s.firsts

theorem Tallied.step (h : Tallied activityName policy s) {act : Act} (hallowed : s.Allowed act) :
    Tallied activityName policy (step activityName s act) := by
  cases htakes : takesBucket act with
  | false =>
    obtain ⟨hregistry, hseen, hretries, hreleased, hfirsts, -⟩ :=
      @step_of_no_access activityName s act htakes hallowed
    refine ⟨?_, fun hnone => ?_, fun bucket hbucket => ?_⟩
    · rw [hregistry]
      exact h.policyFor
    · rw [hseen, hretries, hreleased, hfirsts]
      exact h.fresh (hregistry ▸ hnone)
    · unfold latest start
      rw [hseen, hretries, hreleased, hfirsts]
      exact h.balance bucket (hregistry ▸ hbucket)
  | true =>
    obtain ⟨hbucket, hconfig, hseen⟩ := step_bucket h.policyFor htakes
    obtain ⟨hnet, hfirsts⟩ := step_counts h.policyFor htakes
    refine ⟨hconfig ▸ h.policyFor, fun hnone => ?_, fun bucket hsome => ?_⟩
    · rw [hbucket] at hnone
      cases hnone
    · rw [hbucket] at hsome
      obtain rfl := Option.some.inj hsome
      unfold latest start
      rw [hseen, hnet, hfirsts, latest_append]
      -- the bucket before the call, new or not
      have hbefore : (s.found activityName policy act.2).refilledAt ⊔ act.2 = s.latest ⊔ act.2 ∧
          Balance policy ((s.seen ++ [act.2]).headD 0) (s.found activityName policy act.2)
            ((s.retries : ℚ) - s.released) s.firsts := by
        unfold found
        cases hfound : s.registry.buckets activityName with
        | none =>
          obtain ⟨hempty, hretries, hreleased, hnofirsts⟩ := h.fresh hfound
          unfold latest
          rw [hempty, hretries, hreleased, hnofirsts, Nat.cast_zero, sub_zero]
          exact ⟨(max_self act.2).trans (Nat.zero_max act.2).symm, Balance.full policy act.2⟩
        | some bucket =>
          obtain ⟨hne, htime, hbalance⟩ := h.balance bucket hfound
          have hhead : (s.seen ++ [act.2]).headD 0 = s.start := by
            unfold start
            cases hlist : s.seen with
            | nil => exact absurd hlist hne
            | cons => rfl
          rw [hhead]
          exact ⟨congrArg (· ⊔ act.2) htime, hbalance⟩
      obtain ⟨hbalance, htime⟩ := (hbefore.2.access act.2).call act.2 act.1
      exact ⟨by simp, htime.trans hbefore.1, hbalance⟩

theorem Tallied.new {config : RetryBudgetConfig} (h : config.policyFor activityName = some policy) :
    Tallied activityName policy (new config) :=
  ⟨h, fun _ => ⟨rfl, rfl, rfl, rfl⟩, nofun⟩

end Session

/-- **The retry budget bounds retries.** In every run of calls on one activity type, at any times,
the tokens are at least minus the tolerance and at most the maximum. The admitted retries that were
not released are at most the full bucket, the refill from the first to the latest time, the deposits
of the first attempts that started, and the tolerance. -/
theorem the_budget_bounds_the_retries (config : RetryBudgetConfig) (activityName : String)
    (policy : RetryBudgetPolicy) (hpolicy : config.policyFor activityName = some policy)
    (acts : List Act)
    (hlegal : Legal (Session.step activityName) Session.Allowed (Session.new config) acts) :
    let s := exec (Session.step activityName) (Session.new config) acts
    (∀ bucket, s.registry.buckets activityName = some bucket →
      -spendEpsilon ≤ bucket.tokens ∧ bucket.tokens ≤ policy.maxTokens) ∧
    (s.retries : ℚ) - s.released ≤ policy.maxTokens +
      policy.minRetriesPerSec * (((s.latest - s.start : ℕ) : ℚ) / second) +
      policy.ratio * s.firsts + spendEpsilon := by
  intro s
  have htallied : Session.Tallied activityName policy s :=
    Lib.invariant (fun s act h hallowed => h.step hallowed) (Session.Tallied.new hpolicy) hlegal
  refine ⟨fun bucket hbucket => ?_, ?_⟩
  · obtain ⟨-, -, hbalance⟩ := htallied.balance bucket hbucket
    exact ⟨hbalance.low, hbalance.high⟩
  · cases hfound : s.registry.buckets activityName with
    | none =>
      obtain ⟨hempty, hretries, hreleased, hfirsts⟩ := htallied.fresh hfound
      have hmax := policy.one_le_maxTokens
      unfold Session.latest Session.start
      rw [hempty, hretries, hreleased, hfirsts]
      simp only [List.foldl_nil, List.headD_nil, Nat.sub_self, Nat.cast_zero, zero_div, mul_zero,
        sub_self, add_zero]
      linarith [spendEpsilon_pos]
    | some bucket =>
      obtain ⟨-, htime, hbalance⟩ := htallied.balance bucket hfound
      have hpaid := hbalance.paid
      have hlow := hbalance.low
      rw [htime] at hpaid
      linarith

/-- The default policy for every type. -/
def defaultConfig : RetryBudgetConfig := ⟨some (.new (1 / 10) 10 1), fun _ => none⟩

/-- Two retries, one of which is released, and a first attempt that starts. -/
def shortRun : List Act :=
  [(.admitAttempt 0 true, 5), (.admitAttempt 0 false, second), (.commit .pendingDeposit, second),
    (.admitAttempt 0 true, 0), (.release .spent, 2 * second)]

/-- The bound on a concrete run: one retry, in two seconds and with one first attempt. -/
theorem the_budget_bounds_a_short_run :
    (exec (Session.step "charge") (Session.new defaultConfig) shortRun).retries = 2 ∧
    (exec (Session.step "charge") (Session.new defaultConfig) shortRun).released = 1 ∧
    ((2 : ℕ) : ℚ) - ((1 : ℕ) : ℚ) ≤ 10 + 1 * (((2 * second - 5 : ℕ) : ℚ) / second) +
      (1 / 10) * ((1 : ℕ) : ℚ) + spendEpsilon := by
  have hlegal : Legal (Session.step "charge") Session.Allowed (Session.new defaultConfig)
      shortRun := by
    refine ⟨trivial, trivial, ?_, trivial, ?_, trivial⟩
    · change TicketKind.pendingDeposit ∈ _
      decide +kernel
    · change TicketKind.spent ∈ _
      decide +kernel
  have hbound := (the_budget_bounds_the_retries defaultConfig "charge" (.new (1 / 10) 10 1) rfl
    shortRun hlegal).2
  have hretries : (exec (Session.step "charge") (Session.new defaultConfig) shortRun).retries = 2 := by
    decide +kernel
  have hreleased :
      (exec (Session.step "charge") (Session.new defaultConfig) shortRun).released = 1 := by
    decide +kernel
  have hfirsts : (exec (Session.step "charge") (Session.new defaultConfig) shortRun).firsts = 1 := by
    decide +kernel
  have hstart : (exec (Session.step "charge") (Session.new defaultConfig) shortRun).start = 5 := by
    decide +kernel
  have hlatest :
      (exec (Session.step "charge") (Session.new defaultConfig) shortRun).latest = 2 * second := by
    decide +kernel
  rw [hretries, hreleased, hfirsts, hstart, hlatest] at hbound
  refine ⟨hretries, hreleased, hbound.trans ?_⟩
  norm_num [RetryBudgetPolicy.new]

end Harvest.RetryBudget
