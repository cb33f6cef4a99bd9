import Harvest.RetryBudget.Tokens

/-!
# A spend and its release

What a run with an admitted retry and its release leaves, beside the same run without the two. The
refund is cut at the cap when it is made, and not at the moments when the cap would have cut the
token: so the two runs agree unless the cap cut the run without the pair and other retries have
spent from it since.

Proved here:
* `Session.Reads.step`, `Session.Reads.run`: the tokens of a session are a capped counter.
* `a_release_undoes_its_admission_iff`: when a release undoes its admission.
-/

namespace Harvest.RetryBudget

open Lib (exec CapOp refund_eq_iff)

/-! ## The meter of a bucket -/

/-- The tokens of a bucket and the time of its last refill. -/
structure Meter where
  tokens : ℚ
  refilledAt : ℕ

namespace Meter

def refill (policy : RetryBudgetPolicy) (now : ℕ) (m : Meter) : Meter where
  tokens := min (m.tokens + Bucket.refillAmount policy m.refilledAt now) policy.maxTokens
  refilledAt := max m.refilledAt now

/-- A retry can spend a token. -/
def funds (m : Meter) : Bool := 1 - spendEpsilon ≤ m.tokens

/-- What a call does to the tokens of a refilled bucket. -/
def callOps (policy : RetryBudgetPolicy) (m : Meter) : Call → List (CapOp ℚ)
  | .admitAttempt _ true => if m.funds then [.take 1] else []
  | .commit .pendingDeposit => [.add policy.ratio]
  | .release .spent => [.add 1]
  | _ => []

/-- The refill and the call. -/
def actOps (policy : RetryBudgetPolicy) (m : Meter) (act : Act) : List (CapOp ℚ) :=
  if Session.takesBucket act then
    .add (Bucket.refillAmount policy m.refilledAt act.2) :: (m.refill policy act.2).callOps policy act.1
  else []

def step (policy : RetryBudgetPolicy) (m : Meter) (act : Act) : Meter where
  tokens := CapOp.applyAll policy.maxTokens (m.actOps policy act) m.tokens
  refilledAt := if Session.takesBucket act then max m.refilledAt act.2 else m.refilledAt

/-- Whether an admission runs its attempt. -/
def decision (policy : RetryBudgetPolicy) (m : Meter) : Act → Option Bool
  | (.admitAttempt _ isRetry, now) => some (! isRetry || (m.refill policy now).funds)
  | _ => none

def decisions (policy : RetryBudgetPolicy) : Meter → List Act → List Bool
  | _, [] => []
  | m, act :: acts => (m.decision policy act).toList ++ decisions policy (m.step policy act) acts

/-- What the calls do to the tokens. -/
def ops (policy : RetryBudgetPolicy) : Meter → List Act → List (CapOp ℚ)
  | _, [] => []
  | m, act :: acts => m.actOps policy act ++ ops policy (m.step policy act) acts

variable {policy : RetryBudgetPolicy} {m m' : Meter}

/-- A refill on the way to a later one. -/
theorem refill_refill {time now : ℕ} (htime : time ≤ now) (m : Meter) :
    (m.refill policy time).refill policy now = m.refill policy now := by
  have hsum : Bucket.refillAmount policy m.refilledAt time +
      Bucket.refillAmount policy (max m.refilledAt time) now =
      Bucket.refillAmount policy m.refilledAt now := by
    have hnat : (time - m.refilledAt) + (now - max m.refilledAt time) = now - m.refilledAt := by
      omega
    unfold Bucket.refillAmount
    rw [← hnat, Nat.cast_add, add_div, add_mul]
  have hlater := Balance.refillAmount_nonneg policy (max m.refilledAt time) now
  have hmax : max (max m.refilledAt time) now = max m.refilledAt now := by omega
  unfold refill
  dsimp only
  rw [hmax, ← hsum, ← add_assoc]
  -- a first refill that is cut leaves the bucket full for the second
  rcases le_total (m.tokens + Bucket.refillAmount policy m.refilledAt time) policy.maxTokens with
    hfits | hcut
  · rw [min_eq_left hfits]
  · rw [min_eq_right hcut, min_eq_right (le_add_of_nonneg_right hlater),
      min_eq_right (le_add_of_le_of_nonneg hcut hlater)]

/-- The cap cuts something that the calls add, or the refill to the time after them. -/
def Overflows (policy : RetryBudgetPolicy) (m : Meter) (acts : List Act) (now : ℕ) : Prop :=
  CapOp.SomeSpills policy.maxTokens
    (m.ops policy acts ++
      [.add (Bucket.refillAmount policy (exec (step policy) m acts).refilledAt now)]) m.tokens

theorem exec_tokens (m : Meter) (acts : List Act) :
    (exec (step policy) m acts).tokens =
      CapOp.applyAll policy.maxTokens (m.ops policy acts) m.tokens := by
  induction acts generalizing m with
  | nil => rfl
  | cons act acts ih =>
    rw [Lib.exec_cons, ih, ops, CapOp.applyAll_append]
    rfl

/-- The times of the refills do not depend on the tokens. -/
theorem exec_refilledAt (h : m.refilledAt = m'.refilledAt) (acts : List Act) :
    (exec (step policy) m acts).refilledAt = (exec (step policy) m' acts).refilledAt := by
  induction acts generalizing m m' with
  | nil => exact h
  | cons act acts ih =>
    refine ih ?_
    unfold step
    dsimp only
    rw [h]

/-- One call that is decided alike. -/
theorem actOps_eq (h : m.refilledAt = m'.refilledAt) {act : Act}
    (hsame : m.decision policy act = m'.decision policy act) :
    m.actOps policy act = m'.actOps policy act := by
  obtain ⟨call, now⟩ := act
  unfold actOps
  rw [h]
  split_ifs
  · refine congrArg _ ?_
    cases call with
    | admitAttempt overflow isRetry =>
      cases isRetry with
      | false => rfl
      | true =>
        have hfunds : (m.refill policy now).funds = (m'.refill policy now).funds :=
          Option.some.inj hsame
        simp only [callOps, hfunds]
    | commit ticket => cases ticket <;> rfl
    | release ticket => cases ticket <;> rfl
    | _ => rfl
  · rfl

/-- **Runs that are decided alike** do the same to the tokens. -/
theorem ops_eq (h : m.refilledAt = m'.refilledAt) {acts : List Act}
    (hsame : m.decisions policy acts = m'.decisions policy acts) :
    m.ops policy acts = m'.ops policy acts := by
  induction acts generalizing m m' with
  | nil => rfl
  | cons act acts ih =>
    have hstep : (m.step policy act).refilledAt = (m'.step policy act).refilledAt := by
      unfold step
      dsimp only
      rw [h]
    rw [decisions, decisions] at hsame
    obtain ⟨hnow, hlater⟩ : m.decision policy act = m'.decision policy act ∧
        (m.step policy act).decisions policy acts = (m'.step policy act).decisions policy acts := by
      obtain ⟨call, now⟩ := act
      cases call with
      | admitAttempt overflow isRetry =>
        obtain ⟨hfirst, hrest⟩ := List.cons.inj hsame
        exact ⟨congrArg some hfirst, hrest⟩
      | _ => exact ⟨rfl, hsame⟩
    rw [ops, ops, actOps_eq h hnow, ih hstep hlater]

/-- The meter after a retry spent one token. -/
def spend (m : Meter) : Meter := ⟨m.tokens - 1, m.refilledAt⟩

theorem step_admitted {now : ℕ} (hfunds : (m.refill policy now).funds = true) (overflow : ℕ) :
    m.step policy (.admitAttempt overflow true, now) = (m.refill policy now).spend := by
  have hops : (m.refill policy now).callOps policy (.admitAttempt overflow true) = [.take 1] :=
    if_pos hfunds
  unfold step actOps
  dsimp only
  rw [hops]
  rfl

/-- **The refund of one token**, beside the meter that never spent it. -/
theorem refund_iff {acts : List Act} (hsame : m.spend.decisions policy acts = m.decisions policy acts)
    (now : ℕ) :
    min (((exec (step policy) m.spend acts).refill policy now).tokens + 1) policy.maxTokens =
        ((exec (step policy) m acts).refill policy now).tokens ↔
      ¬ m.Overflows policy acts now ∨
        ((exec (step policy) m acts).refill policy now).tokens = policy.maxTokens := by
  -- the two meters see the same operations
  have hdropped : ((exec (step policy) m acts).refill policy now).tokens =
      CapOp.applyAll policy.maxTokens (m.ops policy acts ++
        [.add (Bucket.refillAmount policy (exec (step policy) m acts).refilledAt now)]) m.tokens := by
    rw [CapOp.applyAll_append, ← exec_tokens]
    rfl
  have hkept : ((exec (step policy) m.spend acts).refill policy now).tokens =
      CapOp.applyAll policy.maxTokens (m.ops policy acts ++
        [.add (Bucket.refillAmount policy (exec (step policy) m acts).refilledAt now)])
        (m.tokens - 1) := by
    have hops := @ops_eq policy m.spend m rfl acts hsame
    have htime := @exec_refilledAt policy m.spend m rfl acts
    rw [CapOp.applyAll_append, ← hops, ← htime, show m.tokens - 1 = m.spend.tokens from rfl,
      ← exec_tokens]
    rfl
  have hcap : ((exec (step policy) m acts).refill policy now).tokens ≤ policy.maxTokens :=
    min_le_right _ _
  obtain ⟨-, hgap, hfits, hcut⟩ := @CapOp.applyAll_gap ℚ _ _ policy.maxTokens _ _ _ (m.ops policy acts ++
    [.add (Bucket.refillAmount policy (exec (step policy) m acts).refilledAt now)])
    (sub_le_self m.tokens zero_le_one)
  rw [← hdropped, ← hkept, sub_sub_cancel] at hgap hfits hcut
  rw [refund_eq_iff hcap hgap]
  refine or_congr_left ⟨fun heq hsome => ?_, hfits⟩
  exact (hcut hsome (sub_lt_self m.tokens zero_lt_one)).ne heq

end Meter

/-! ## The tokens of a session -/

namespace Session

variable (activityName : String)

/-- Whether the admission of the call runs its attempt. -/
def decision (s : Session) : Act → Option Bool
  | (.admitAttempt overflow isRetry, now) =>
    match (s.registry.admitAttempt activityName overflow isRetry now).1 with
    | .deferred .. => some false
    | _ => some true
  | _ => none

/-- The tokens that a call at that time finds. -/
def meter (s : Session) (policy : RetryBudgetPolicy) (now : ℕ) : Meter where
  tokens := ((s.found activityName policy now).access policy now).tokens
  refilledAt := ((s.found activityName policy now).access policy now).refilledAt

/-- The decisions of a run. -/
def decisions : Session → List Act → List Bool
  | _, [] => []
  | s, act :: acts =>
    (s.decision activityName act).toList ++ decisions (step activityName s act) acts

variable {activityName} {policy : RetryBudgetPolicy} {s : Session} {m : Meter} {time : ℕ}

/-- From that time on, calls find the tokens of the meter. -/
structure Reads (activityName : String) (policy : RetryBudgetPolicy) (s : Session) (m : Meter)
    (time : ℕ) : Prop where
  policyFor : s.registry.config.policyFor activityName = some policy
  tokens : ∀ now, time ≤ now →
    ((s.found activityName policy now).access policy now).tokens = (m.refill policy now).tokens
  refilledAt : ∀ now, time ≤ now →
    ((s.found activityName policy now).access policy now).refilledAt =
      (m.refill policy now).refilledAt

theorem Reads.of_bucket (hpolicy : s.registry.config.policyFor activityName = some policy)
    {bucket : Bucket} (hbucket : s.registry.buckets activityName = some bucket)
    (htokens : bucket.tokens = m.tokens) (htime : bucket.refilledAt = m.refilledAt) (time : ℕ) :
    Reads activityName policy s m time := by
  have hfound : ∀ now, s.found activityName policy now = bucket := by
    intro now
    unfold found
    rw [hbucket]
    rfl
  refine ⟨hpolicy, fun now _ => ?_, fun now _ => ?_⟩
  · rw [hfound]
    change min (bucket.tokens + Bucket.refillAmount policy bucket.refilledAt now) _ = _
    rw [htokens, htime]
    rfl
  · rw [hfound]
    exact congrArg (max · now) htime

/-- A new session: the first call finds a full bucket. -/
theorem Reads.new {config : RetryBudgetConfig} (hpolicy : config.policyFor activityName = some policy) :
    Reads activityName policy (new config) ⟨policy.maxTokens, 0⟩ 0 := by
  have hfull : ∀ since now, min (policy.maxTokens + Bucket.refillAmount policy since now)
      policy.maxTokens = policy.maxTokens := fun since now =>
    min_eq_right (le_add_of_nonneg_right (Balance.refillAmount_nonneg policy since now))
  refine ⟨hpolicy, fun now _ => ?_, fun now _ => ?_⟩
  · exact (hfull now now).trans (hfull 0 now).symm
  · exact (max_self now).trans (Nat.zero_max now).symm

theorem Reads.mono (h : Reads activityName policy s m time) {later : ℕ} (hle : time ≤ later) :
    Reads activityName policy s m later :=
  ⟨h.policyFor, fun now hnow => h.tokens now (hle.trans hnow),
    fun now hnow => h.refilledAt now (hle.trans hnow)⟩

/-- The meter can be refilled at once. -/
theorem Reads.refill (h : Reads activityName policy s m time) :
    Reads activityName policy s (m.refill policy time) time := by
  refine ⟨h.policyFor, fun now hnow => ?_, fun now hnow => ?_⟩
  · rw [Meter.refill_refill hnow]
    exact h.tokens now hnow
  · rw [Meter.refill_refill hnow]
    exact h.refilledAt now hnow

/-- What a call does to the tokens of the refilled bucket. -/
theorem onBucket_tokens (policy : RetryBudgetPolicy) (now : ℕ) (call : Call) {bucket : Bucket}
    (htokens : bucket.tokens = m.tokens) :
    (call.onBucket policy now bucket).tokens =
        CapOp.applyAll policy.maxTokens (m.callOps policy call) m.tokens ∧
      (call.onBucket policy now bucket).refilledAt = bucket.refilledAt := by
  cases call with
  | admitAttempt overflow isRetry =>
    cases isRetry with
    | false => exact ⟨htokens, rfl⟩
    | true =>
      have hops : m.callOps policy (.admitAttempt overflow true) =
          if 1 - spendEpsilon ≤ bucket.tokens then [.take 1] else [] := by
        simp only [Meter.callOps, Meter.funds, decide_eq_true_eq, htokens]
      change (bucket.admitAttempt overflow policy true now).2.tokens = _ ∧
        (bucket.admitAttempt overflow policy true now).2.refilledAt = _
      rw [hops]
      rcases bucket.admitAttempt_retry overflow policy now with
        ⟨hfund, hadmission⟩ | ⟨hfund, -, -, -, -, hadmission⟩
      · rw [hadmission, if_pos hfund]
        exact ⟨congrArg (· - 1) htokens, rfl⟩
      · rw [hadmission, if_neg (not_le.mpr hfund)]
        obtain ⟨hkept, htime⟩ := Bucket.reserveSlot_keeps overflow policy now bucket
        exact ⟨hkept.trans htokens, htime⟩
  | commit ticket =>
    cases ticket with
    | spent => exact ⟨htokens, rfl⟩
    | pendingDeposit => exact ⟨congrArg (fun x => min (x + policy.ratio) policy.maxTokens) htokens, rfl⟩
  | release ticket =>
    cases ticket with
    | pendingDeposit => exact ⟨htokens, rfl⟩
    | spent => exact ⟨congrArg (fun x => min (x + 1) policy.maxTokens) htokens, rfl⟩
  | available => exact ⟨htokens, rfl⟩
  | cancelDeferral reservation =>
    obtain ⟨hkept, htime⟩ := Bucket.cancel_keeps reservation now bucket
    exact ⟨hkept.trans htokens, htime⟩
  | wakeDelay overflow wakeAt reservation =>
    obtain ⟨hkept, htime⟩ := Bucket.rewake_keeps overflow policy reservation now bucket
    exact ⟨hkept.trans htokens, htime⟩

/-- **One call** of the session is one step of the meter. -/
theorem Reads.step (h : Reads activityName policy s m time) {act : Act} (htime : time ≤ act.2) :
    Reads activityName policy (step activityName s act) (m.step policy act) act.2 := by
  cases htakes : takesBucket act with
  | false =>
    have hregistry := @step_registry_of_no_access activityName s act htakes
    have hmeter : m.step policy act = m := by
      unfold Meter.step Meter.actOps
      rw [htakes]
      rfl
    rw [hmeter]
    refine ⟨hregistry ▸ h.policyFor, fun now hnow => ?_, fun now hnow => ?_⟩
    · unfold found
      rw [hregistry]
      exact h.tokens now (htime.trans hnow)
    · unfold found
      rw [hregistry]
      exact h.refilledAt now (htime.trans hnow)
  | true =>
    obtain ⟨hbucket, hconfig, -⟩ := step_bucket h.policyFor htakes
    obtain ⟨htokens, hrefilled⟩ := onBucket_tokens policy act.2 act.1 (h.tokens act.2 htime)
    refine Reads.of_bucket (hconfig ▸ h.policyFor) hbucket ?_ ?_ act.2
    · unfold Meter.step Meter.actOps
      rw [if_pos htakes]
      exact htokens
    · unfold Meter.step
      rw [if_pos htakes]
      exact hrefilled.trans (h.refilledAt act.2 htime)

/-- **A run** of the session is a run of the meter. -/
theorem Reads.run (h : Reads activityName policy s m time) {acts : List Act} {later : ℕ}
    (htimes : (time :: (acts.map Prod.snd ++ [later])).IsChain (· ≤ ·)) :
    Reads activityName policy (exec (Session.step activityName) s acts)
      (exec (Meter.step policy) m acts) later := by
  induction acts generalizing s m time with
  | nil => exact h.mono (List.isChain_cons_cons.mp htimes).1
  | cons act acts ih =>
    obtain ⟨hnow, hlater⟩ := List.isChain_cons_cons.mp htimes
    exact ih (h.step hnow) hlater

theorem Reads.decision (h : Reads activityName policy s m time) {act : Act} (htime : time ≤ act.2) :
    s.decision activityName act = m.decision policy act := by
  obtain ⟨call, now⟩ := act
  cases call with
  | admitAttempt overflow isRetry =>
    unfold Session.decision Meter.decision Meter.funds
    dsimp only
    rw [RetryBudgetRegistry.admitAttempt, withBucket_of_policy h.policyFor]
    dsimp only [Option.getD_some]
    rw [← h.tokens now htime]
    cases isRetry with
    | false => rfl
    | true =>
      rcases ((s.found activityName policy now).access policy now).admitAttempt_retry overflow policy
        now with ⟨hfund, hadmission⟩ | ⟨hfund, _, _, _, hadmission, -⟩
      · rw [decide_eq_true hfund]
        unfold found at hadmission
        rw [hadmission]
        rfl
      · rw [decide_eq_false (not_le.mpr hfund)]
        unfold found at hadmission
        rw [hadmission]
        rfl
  | _ => rfl

/-- The session decides as the meter does. -/
theorem Reads.decisions (h : Reads activityName policy s m time) {acts : List Act}
    (htimes : (time :: acts.map Prod.snd).IsChain (· ≤ ·)) :
    s.decisions activityName acts = m.decisions policy acts := by
  induction acts generalizing s m time with
  | nil => rfl
  | cons act acts ih =>
    obtain ⟨hnow, hlater⟩ := List.isChain_cons_cons.mp htimes
    rw [Session.decisions, Meter.decisions, h.decision hnow, ih (h.step hnow) hlater]

theorem Reads.release (h : Reads activityName policy s m time) :
    (s.registry.release activityName .spent time).1 =
      some (min ((m.refill policy time).tokens + 1) policy.maxTokens) := by
  rw [RetryBudgetRegistry.release, withBucket_of_policy h.policyFor, ← h.tokens time le_rfl]
  rfl

theorem Reads.available (h : Reads activityName policy s m time) :
    (s.registry.available activityName time).1 = some (m.refill policy time).tokens := by
  rw [RetryBudgetRegistry.available, withBucket_of_policy h.policyFor, ← h.tokens time le_rfl]
  rfl

theorem Reads.meter (h : Reads activityName policy s m time) :
    s.meter activityName policy time = m.refill policy time := by
  unfold Session.meter
  rw [h.tokens time le_rfl, h.refilledAt time le_rfl]

end Session

/-- **When a release undoes its admission.** A retry that is admitted at `t₁` and released at `t₂`,
in any run with non-decreasing times: when the calls between are decided alike without the pair, the
tokens after the release and all later decisions are those of the run without it exactly when the
cap cuts nothing of that run between `t₁` and `t₂`, or leaves it full at `t₂`. -/
theorem a_release_undoes_its_admission_iff (config : RetryBudgetConfig) (activityName : String)
    (policy : RetryBudgetPolicy) (hpolicy : config.policyFor activityName = some policy)
    (before between : List Act) (overflow t₁ t₂ : ℕ)
    (htimes : ((before ++ (.admitAttempt overflow true, t₁) :: between).map Prod.snd ++
      [t₂]).IsChain (· ≤ ·))
    (hadmitted : (exec (Session.step activityName) (.new config) before).decision activityName
      (.admitAttempt overflow true, t₁) = some true)
    (hsame : (exec (Session.step activityName) (.new config)
        (before ++ [(.admitAttempt overflow true, t₁)])).decisions activityName between =
      (exec (Session.step activityName) (.new config) before).decisions activityName between) :
    let kept := exec (Session.step activityName) (.new config)
      (before ++ (.admitAttempt overflow true, t₁) :: between)
    let dropped := exec (Session.step activityName) (.new config) (before ++ between)
    ((kept.registry.release activityName .spent t₂).1 =
          (dropped.registry.available activityName t₂).1 ∧
        ∀ after : List Act, (t₂ :: after.map Prod.snd).IsChain (· ≤ ·) →
          (kept.step activityName (.release .spent, t₂)).decisions activityName after =
            dropped.decisions activityName after) ↔
      ¬ ((exec (Session.step activityName) (.new config) before).meter activityName policy
          t₁).Overflows policy between t₂ ∨
        (dropped.registry.available activityName t₂).1 = some policy.maxTokens := by
  intro kept dropped
  rw [List.map_append, List.append_assoc] at htimes
  obtain ⟨hbefore, hbetween⟩ := List.isChain_split.mp htimes
  have hdecided : (t₁ :: between.map Prod.snd).IsChain (· ≤ ·) := by
    have hsplit : ((t₁ :: between.map Prod.snd) ++ [t₂]).IsChain (· ≤ ·) := hbetween
    exact hsplit.left_of_append
  -- the run before the pair
  have hfirst := (Session.Reads.new hpolicy).run (isChain_from_zero hbefore)
  have hnow : t₁ ≤ ((.admitAttempt overflow true, t₁) : Act).2 := le_rfl
  have hfunds := (hfirst.decision hnow).symm.trans hadmitted
  have hspent := hfirst.step hnow
  rw [Meter.step_admitted (Option.some.inj hfunds)] at hspent
  generalize exec (Meter.step policy) ⟨policy.maxTokens, 0⟩ before = m₀ at hfirst hspent
  have hread := hfirst.refill
  rw [hfirst.meter]
  -- the two runs between
  have hkept : Session.Reads activityName policy kept
      (exec (Meter.step policy) (m₀.refill policy t₁).spend between) t₂ := by
    have hrun := hspent.run hbetween
    rwa [← Lib.exec_cons, ← Lib.exec_append] at hrun
  have hdropped : Session.Reads activityName policy dropped
      (exec (Meter.step policy) (m₀.refill policy t₁) between) t₂ := by
    have hrun := hread.run hbetween
    rwa [← Lib.exec_append] at hrun
  have hmeters : (m₀.refill policy t₁).spend.decisions policy between =
      (m₀.refill policy t₁).decisions policy between := by
    rw [Lib.exec_append, Lib.exec_cons, Lib.exec_nil] at hsame
    rw [← hspent.decisions hdecided, ← hread.decisions hdecided]
    exact hsame
  rw [hkept.release, hdropped.available, Option.some.injEq, Option.some.injEq,
    ← Meter.refund_iff hmeters]
  refine ⟨And.left, fun htokens => ⟨htokens, fun after hafter => ?_⟩⟩
  -- equal tokens are one meter for what follows
  have hrelease : t₂ ≤ ((.release .spent, t₂) : Act).2 := le_rfl
  have hlater := hkept.step hrelease
  have hmeter : (exec (Meter.step policy) (m₀.refill policy t₁).spend between).step policy
      (.release .spent, t₂) =
      (exec (Meter.step policy) (m₀.refill policy t₁) between).refill policy t₂ :=
    congrArg₂ Meter.mk htokens (congrArg (max · t₂)
      (@Meter.exec_refilledAt policy (m₀.refill policy t₁).spend (m₀.refill policy t₁) rfl between))
  rw [hmeter] at hlater
  rw [hlater.decisions hafter, hdropped.refill.decisions hafter]

/-- Another retry, half a second after the first. -/
def otherRetry : List Act := [(.admitAttempt 0 true, second / 2)]

/-- **A release that gives too much back.** The first retry leaves room for the refill of half a
second, which the full bucket would have lost. -/
theorem a_release_keeps_what_the_cap_would_cut :
    (Session.new defaultConfig).decision "charge" (.admitAttempt 0 true, 0) = some true ∧
    (exec (Session.step "charge") (.new defaultConfig)
        [(.admitAttempt 0 true, 0)]).decisions "charge" otherRetry =
      (Session.new defaultConfig).decisions "charge" otherRetry ∧
    ((exec (Session.step "charge") (.new defaultConfig)
        ((.admitAttempt 0 true, 0) :: otherRetry)).registry.release "charge" .spent (second / 2)).1 =
      some (19 / 2) ∧
    ((exec (Session.step "charge") (.new defaultConfig)
        otherRetry).registry.available "charge" (second / 2)).1 = some 9 := by
  decide +kernel

/-- The same pair with no other retry between: the bucket is full again without it. -/
theorem a_release_undoes_a_lone_retry :
    ((exec (Session.step "charge") (.new defaultConfig)
        [(.admitAttempt 0 true, 0)]).registry.release "charge" .spent (second / 2)).1 =
      ((Session.new defaultConfig).registry.available "charge" (second / 2)).1 ∧
    ∀ after : List Act, (second / 2 :: after.map Prod.snd).IsChain (· ≤ ·) →
      ((exec (Session.step "charge") (.new defaultConfig) [(.admitAttempt 0 true, 0)]).step "charge"
        (.release .spent, second / 2)).decisions "charge" after =
      (Session.new defaultConfig).decisions "charge" after :=
  (a_release_undoes_its_admission_iff defaultConfig "charge" (.new (1 / 10) 10 1) rfl [] [] 0 0
    (second / 2) (by decide) (by decide +kernel) (by decide +kernel)).mpr (.inr (by decide +kernel))

end Harvest.RetryBudget
