import Harvest.Lib.Run
import Harvest.RetryBudget.Bucket

/-!
# Calls on one activity type

Runs of the registry's calls on one activity type. A session keeps, beside the registry, what its
callers hold: the tickets that are not settled, the reservations that were not given back, and what
was counted so far.

Proved here:
* `withBucket_of_policy`: a call on a type with a budget is a call on its refilled bucket.
* `step_bucket`, `step_of_no_access`: what one call does to the bucket of the type.
-/

namespace Harvest.RetryBudget

/-! ## Calls -/

/-- A call on the registry. The random delays are in the call. -/
inductive Call
  | admitAttempt (overflow : ℕ) (isRetry : Bool)
  | commit (ticket : TicketKind)
  | release (ticket : TicketKind)
  | available
  | cancelDeferral (reservation : SlotReservation)
  | wakeDelay (overflow wakeAt : ℕ) (reservation : Option SlotReservation)

/-- A call and the time that its caller read. -/
abbrev Act := Call × ℕ

structure Session where
  registry : RetryBudgetRegistry
  /-- The tickets that are neither committed nor released. -/
  tickets : List TicketKind
  /-- The reservations that were not given back. -/
  reserved : List SlotReservation
  /-- The admitted retries, the released ones, and the first attempts that started. -/
  retries : ℕ
  released : ℕ
  firsts : ℕ
  /-- The times at which calls took the bucket. -/
  seen : List ℕ

namespace Session

def new (config : RetryBudgetConfig) : Session := ⟨.new config, [], [], 0, 0, 0, []⟩

/-- The time of the first call that took the bucket. -/
def start (s : Session) : ℕ := s.seen.headD 0

/-- The latest time at which a call took the bucket. -/
def latest (s : Session) : ℕ := s.seen.foldl max 0

def noteAdmission (s : Session) : Admission → Session
  | .untracked => s
  | .admitted ticket _ =>
    { s with
      tickets := ticket :: s.tickets
      retries := if ticket = .spent then s.retries + 1 else s.retries }
  | .deferred _ _ reservation => { s with reserved := reservation.toList ++ s.reserved }

/-- Whether the call takes a bucket at that time. A wake-up that is far enough away does not. -/
def takesBucket : Act → Bool
  | (.wakeDelay _ wakeAt _, now) => wakeAt - now < minRetryBudgetDefer
  | _ => true

variable (activityName : String)

/-- One call on the type. -/
def step (s : Session) (act : Act) : Session :=
  let s := if takesBucket act then { s with seen := s.seen ++ [act.2] } else s
  match act with
  | (.admitAttempt overflow isRetry, now) =>
    let (admission, registry) := s.registry.admitAttempt activityName overflow isRetry now
    { s with registry := registry }.noteAdmission admission
  | (.commit ticket, now) =>
    { s with
      registry := (s.registry.commit activityName ticket now).2
      tickets := s.tickets.erase ticket
      firsts := if ticket = .pendingDeposit then s.firsts + 1 else s.firsts }
  | (.release ticket, now) =>
    { s with
      registry := (s.registry.release activityName ticket now).2
      tickets := s.tickets.erase ticket
      released := if ticket = .spent then s.released + 1 else s.released }
  | (.available, now) => { s with registry := (s.registry.available activityName now).2 }
  | (.cancelDeferral reservation, now) =>
    { s with
      registry := s.registry.cancelDeferral activityName reservation now
      reserved := s.reserved.erase reservation }
  | (.wakeDelay overflow wakeAt reservation, now) =>
    let ((_, fresh), registry) :=
      s.registry.wakeDelay activityName overflow wakeAt reservation now
    { s with
      registry := registry
      reserved := fresh.toList ++ reservation.elim s.reserved s.reserved.erase }

/-- A ticket is settled once, and a reservation is given back once. -/
def Allowed (s : Session) : Act → Prop
  | (.commit ticket, _) | (.release ticket, _) => ticket ∈ s.tickets
  | (.cancelDeferral reservation, _) => reservation ∈ s.reserved
  | (.wakeDelay _ _ reservation, _) => ∀ old ∈ reservation, old ∈ s.reserved
  | _ => True

end Session

/-- Times that do not go back start at zero or later. -/
theorem isChain_from_zero {times : List ℕ} (h : times.IsChain (· ≤ ·)) :
    (0 :: times).IsChain (· ≤ ·) := by
  cases times with
  | nil => exact .singleton 0
  | cons time times => exact List.isChain_cons_cons.mpr ⟨Nat.zero_le _, h⟩

/-! ## The bucket of the type -/

/-- What the call does to the refilled bucket. -/
def Call.onBucket (policy : RetryBudgetPolicy) (now : ℕ) : Call → Bucket → Bucket
  | .admitAttempt overflow isRetry, bucket => (bucket.admitAttempt overflow policy isRetry now).2
  | .commit ticket, bucket => (bucket.commit policy ticket).2
  | .release ticket, bucket => (bucket.release policy ticket).2
  | .available, bucket => bucket
  | .cancelDeferral reservation, bucket => bucket.cancel reservation now
  | .wakeDelay overflow _ reservation, bucket => (bucket.rewake overflow policy reservation now).2

namespace Session

variable {activityName : String} {policy : RetryBudgetPolicy} {s : Session}

/-- The bucket that a call at that time finds, before the refill. -/
def found (s : Session) (activityName : String) (policy : RetryBudgetPolicy) (now : ℕ) : Bucket :=
  (s.registry.buckets activityName).getD (.full policy now)

theorem withBucket_of_policy {T : Type} {registry : RetryBudgetRegistry}
    (hpolicy : registry.config.policyFor activityName = some policy) (now : ℕ)
    (f : RetryBudgetPolicy → Bucket → T × Bucket) :
    registry.withBucket activityName now f =
      let bucket := ((registry.buckets activityName).getD (.full policy now)).access policy now
      (some (f policy bucket).1, { registry with
        buckets := Function.update registry.buckets activityName (some (f policy bucket).2) }) := by
  unfold RetryBudgetRegistry.withBucket
  rw [hpolicy]

/-- **One call on the bucket.** -/
theorem step_bucket (hpolicy : s.registry.config.policyFor activityName = some policy) {act : Act}
    (htakes : takesBucket act = true) :
    (step activityName s act).registry.buckets activityName =
        some (act.1.onBucket policy act.2 ((s.found activityName policy act.2).access policy act.2)) ∧
      (step activityName s act).registry.config = s.registry.config ∧
      (step activityName s act).seen = s.seen ++ [act.2] := by
  obtain ⟨call, now⟩ := act
  unfold step
  rw [if_pos htakes]
  cases call with
  | admitAttempt overflow isRetry =>
    dsimp only
    rw [RetryBudgetRegistry.admitAttempt, withBucket_of_policy hpolicy]
    dsimp only [Option.getD_some]
    cases (Bucket.admitAttempt overflow policy isRetry now _).1 with
    | untracked => exact ⟨Function.update_self .., rfl, rfl⟩
    | admitted => exact ⟨Function.update_self .., rfl, rfl⟩
    | deferred => exact ⟨Function.update_self .., rfl, rfl⟩
  | commit ticket =>
    dsimp only
    rw [RetryBudgetRegistry.commit, withBucket_of_policy hpolicy]
    exact ⟨Function.update_self .., rfl, rfl⟩
  | release ticket =>
    dsimp only
    rw [RetryBudgetRegistry.release, withBucket_of_policy hpolicy]
    exact ⟨Function.update_self .., rfl, rfl⟩
  | available =>
    dsimp only
    rw [RetryBudgetRegistry.available, withBucket_of_policy hpolicy]
    exact ⟨Function.update_self .., rfl, rfl⟩
  | cancelDeferral reservation =>
    dsimp only
    rw [RetryBudgetRegistry.cancelDeferral, withBucket_of_policy hpolicy]
    exact ⟨Function.update_self .., rfl, rfl⟩
  | wakeDelay overflow wakeAt reservation =>
    have hnear : ¬ minRetryBudgetDefer ≤ wakeAt - now := not_le.mpr (of_decide_eq_true htakes)
    dsimp only
    rw [RetryBudgetRegistry.wakeDelay, if_neg hnear, withBucket_of_policy hpolicy]
    exact ⟨Function.update_self .., rfl, rfl⟩

theorem step_registry_of_no_access {act : Act} (htakes : takesBucket act = false) :
    (step activityName s act).registry = s.registry := by
  obtain ⟨call, now⟩ := act
  cases call with
  | wakeDelay overflow wakeAt reservation =>
    have hfar : minRetryBudgetDefer ≤ wakeAt - now := not_lt.mp (of_decide_eq_false htakes)
    unfold step
    rw [htakes, if_neg Bool.false_ne_true]
    dsimp only
    rw [RetryBudgetRegistry.wakeDelay, if_pos hfar]
  | _ => cases htakes

/-- A call that takes no bucket changes nothing but the order of the reservations. -/
theorem step_of_no_access {act : Act} (htakes : takesBucket act = false)
    (hallowed : s.Allowed act) :
    (step activityName s act).registry = s.registry ∧ (step activityName s act).seen = s.seen ∧
      (step activityName s act).retries = s.retries ∧
      (step activityName s act).released = s.released ∧
      (step activityName s act).firsts = s.firsts ∧
      (step activityName s act).reserved.Perm s.reserved := by
  refine ⟨step_registry_of_no_access htakes, ?_⟩
  obtain ⟨call, now⟩ := act
  cases call with
  | wakeDelay overflow wakeAt reservation =>
    have hfar : minRetryBudgetDefer ≤ wakeAt - now := not_lt.mp (of_decide_eq_false htakes)
    unfold step
    rw [htakes, if_neg Bool.false_ne_true]
    dsimp only
    rw [RetryBudgetRegistry.wakeDelay, if_pos hfar]
    refine ⟨rfl, rfl, rfl, rfl, ?_⟩
    cases reservation with
    | none => exact .refl _
    | some old => exact (List.perm_cons_erase (hallowed old rfl)).symm
  | _ => cases htakes

end Session

end Harvest.RetryBudget
