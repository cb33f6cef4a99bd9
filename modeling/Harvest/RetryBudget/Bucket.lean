import Mathlib.Algebra.Order.Floor.Semiring
import Mathlib.Data.List.Basic
import Mathlib.Data.Rat.Floor
import Mathlib.Logic.Function.Basic

/-!
# The retry budget of an activity type

Model of `retry_budget.rs`: a token bucket for each activity type, the tickets of admitted
attempts, and the wake-up slots of deferred retries. Times and durations are nanoseconds; tokens
are exact. The random delay of a retry that gets no slot is a parameter.
-/

namespace Harvest.RetryBudget

/-! ## Data -/

/-- Nanoseconds of a second. -/
def second : ℕ := 1000000000

/-- `MIN_RETRY_BUDGET_DEFER` -/
def minRetryBudgetDefer : ℕ := 50000000

/-- `MAX_RETRY_BUDGET_DEFER` -/
def maxRetryBudgetDefer : ℕ := 60 * second

/-- `SPEND_EPSILON` -/
def spendEpsilon : ℚ := 1 / 1000000000

structure RetryBudgetPolicy where
  ratio : ℚ
  maxTokens : ℚ
  minRetriesPerSec : ℚ
  ratio_nonneg : 0 ≤ ratio
  one_le_maxTokens : 1 ≤ maxTokens
  rate_nonneg : 0 ≤ minRetriesPerSec

/-- The constructor rules, which `sanitize` applies again. -/
def RetryBudgetPolicy.new (ratio maxTokens minRetriesPerSec : ℚ) : RetryBudgetPolicy where
  ratio := max ratio 0
  maxTokens := max maxTokens 1
  minRetriesPerSec := max minRetriesPerSec 0
  ratio_nonneg := le_max_right _ _
  one_le_maxTokens := le_max_right _ _
  rate_nonneg := le_max_right _ _

structure RetryBudgetConfig where
  defaultPolicy : Option RetryBudgetPolicy
  overrides : String → Option (Option RetryBudgetPolicy)

def RetryBudgetConfig.policyFor (config : RetryBudgetConfig) (activityName : String) :
    Option RetryBudgetPolicy :=
  (config.overrides activityName).getD config.defaultPolicy

inductive TicketKind
  /-- A first attempt. Its deposit counts only when the ticket commits. -/
  | pendingDeposit
  /-- A retry spent one token. -/
  | spent
deriving DecidableEq, Repr

/-- A wake-up slot that one deferral reserved. -/
structure SlotReservation where
  slot : ℕ
  previous : ℕ
deriving DecidableEq, Repr

structure Bucket where
  tokens : ℚ
  refilledAt : ℕ
  nextSlot : ℕ
  cancelled : List SlotReservation

inductive Admission
  | untracked
  | admitted (ticket : TicketKind) (available : ℚ)
  | deferred (retryAfter : ℕ) (available : ℚ) (reservation : Option SlotReservation)

/-! ## The bucket -/

/-- The nearest natural number, the even one of two. -/
def roundHalfEven (value : ℚ) : ℕ :=
  let down := ⌊value⌋₊
  if value - down < 1 / 2 then down
  else if 1 / 2 < value - down then down + 1
  else if down % 2 = 0 then down
  else down + 1

/-- Seconds as a duration, at most `maxRetryBudgetDefer`. A negative number has no duration. -/
def secs (value : ℚ) : ℕ :=
  if value < 0 then maxRetryBudgetDefer
  else min (roundHalfEven (value * second)) maxRetryBudgetDefer

/-- `Vec::swap_remove`: the last element takes the place of the removed one. -/
def swapRemove {α : Type} (xs : List α) (i : ℕ) : List α :=
  match xs.getLast? with
  | none => []
  | some last => (xs.set i last).dropLast

namespace Bucket

def full (policy : RetryBudgetPolicy) (now : ℕ) : Bucket where
  tokens := policy.maxTokens
  refilledAt := now
  nextSlot := now
  cancelled := []

/-- What time adds up to `now`, before the cap. -/
def refillAmount (policy : RetryBudgetPolicy) (refilledAt now : ℕ) : ℚ :=
  ((now - refilledAt : ℕ) : ℚ) / second * policy.minRetriesPerSec

/-- Adds the time refill since the last call. The time can be earlier than that. -/
def refill (policy : RetryBudgetPolicy) (now : ℕ) (bucket : Bucket) : Bucket :=
  { bucket with
    tokens := min (bucket.tokens + refillAmount policy bucket.refilledAt now) policy.maxTokens
    refilledAt := max bucket.refilledAt now }

/-- The loop of `cancel`: rolls the tail back through cancelled slots. Each turn removes one. -/
def rollBack : ℕ → Bucket → Bucket
  | 0, bucket => bucket
  | fuel + 1, bucket =>
    match bucket.cancelled.findIdx? fun r => r.slot = bucket.nextSlot with
    | none => bucket
    | some i =>
      rollBack fuel { bucket with
        nextSlot := (bucket.cancelled[i]?).elim bucket.nextSlot SlotReservation.previous
        cancelled := swapRemove bucket.cancelled i }

/-- Gives back a slot that no deferral uses. A slot that has passed is not stored. -/
def cancel (reservation : SlotReservation) (now : ℕ) (bucket : Bucket) : Bucket :=
  if reservation.slot ≤ now then bucket
  else
    rollBack (bucket.cancelled.length + 1)
      { bucket with cancelled := bucket.cancelled ++ [reservation] }

/-- The time until the next token, and the time between two tokens. -/
def untilToken (policy : RetryBudgetPolicy) (tokens : ℚ) : ℕ :=
  if 0 < policy.minRetriesPerSec then secs (max (1 - tokens) 0 / policy.minRetriesPerSec)
  else maxRetryBudgetDefer

/-- The refill interval, at most `maxRetryBudgetDefer`. -/
def interval (policy : RetryBudgetPolicy) : ℕ :=
  if 0 < policy.minRetriesPerSec then secs (1 / policy.minRetriesPerSec)
  else maxRetryBudgetDefer

/-- The slot that the next deferral at `now` would wake at. -/
def wakeSlot (policy : RetryBudgetPolicy) (now : ℕ) (bucket : Bucket) : ℕ :=
  let ready := now + untilToken policy bucket.tokens
  let slot :=
    if now < bucket.nextSlot then max ready (bucket.nextSlot + interval policy) else ready
  max slot (now + minRetryBudgetDefer)

/-- Gives a deferred retry a wake-up slot and returns the delay to it. A slot that is too late is
not reserved; `overflow` is the random delay of that retry. -/
def reserveSlot (overflow : ℕ) (policy : RetryBudgetPolicy) (now : ℕ) (bucket : Bucket) :
    (ℕ × Option SlotReservation) × Bucket :=
  let slot := bucket.wakeSlot policy now
  if maxRetryBudgetDefer ≤ slot - now then ((overflow, none), bucket)
  else
    ((slot - now, some ⟨slot, bucket.nextSlot⟩), { bucket with nextSlot := slot })

/-- What every call does first: the refill, and the cancelled slots that have passed are dropped. -/
def access (policy : RetryBudgetPolicy) (now : ℕ) (bucket : Bucket) : Bucket :=
  let bucket := bucket.refill policy now
  { bucket with cancelled := bucket.cancelled.filter fun r => now < r.slot }

end Bucket

/-! ## The registry -/

structure RetryBudgetRegistry where
  config : RetryBudgetConfig
  buckets : String → Option Bucket

namespace RetryBudgetRegistry

def new (config : RetryBudgetConfig) : RetryBudgetRegistry := ⟨config, fun _ => none⟩

/-- Runs `f` on the refilled bucket of the type, if it has a budget. -/
def withBucket {T : Type} (registry : RetryBudgetRegistry) (activityName : String) (now : ℕ)
    (f : RetryBudgetPolicy → Bucket → T × Bucket) : Option T × RetryBudgetRegistry :=
  match registry.config.policyFor activityName with
  | none => (none, registry)
  | some policy =>
    let bucket := (registry.buckets activityName).getD (.full policy now)
    let (out, bucket) := f policy (bucket.access policy now)
    (some out, { registry with
      buckets := Function.update registry.buckets activityName (some bucket) })

end RetryBudgetRegistry

namespace Bucket

variable (overflow : ℕ) (policy : RetryBudgetPolicy)

/-- The body of `admit`. -/
def admitAttempt (isRetry : Bool) (now : ℕ) (bucket : Bucket) : Admission × Bucket :=
  if ! isRetry then (.admitted .pendingDeposit bucket.tokens, bucket)
  else if 1 - spendEpsilon ≤ bucket.tokens then
    (.admitted .spent (bucket.tokens - 1), { bucket with tokens := bucket.tokens - 1 })
  else
    let ((retryAfter, reservation), bucket) := bucket.reserveSlot overflow policy now
    (.deferred retryAfter bucket.tokens reservation, bucket)

/-- The body of `commit`. -/
def commit (ticket : TicketKind) (bucket : Bucket) : ℚ × Bucket :=
  let bucket :=
    if ticket = .pendingDeposit then
      { bucket with tokens := min (bucket.tokens + policy.ratio) policy.maxTokens }
    else bucket
  (bucket.tokens, bucket)

/-- The body of `release`. -/
def release (ticket : TicketKind) (bucket : Bucket) : ℚ × Bucket :=
  let bucket :=
    if ticket = .spent then
      { bucket with tokens := min (bucket.tokens + 1) policy.maxTokens }
    else bucket
  (bucket.tokens, bucket)

/-- The body of `wake_delay`, once the slot is too close. -/
def rewake (reservation : Option SlotReservation) (now : ℕ) (bucket : Bucket) :
    (ℕ × Option SlotReservation) × Bucket :=
  (reservation.elim bucket fun old => bucket.cancel old now).reserveSlot overflow policy now

end Bucket

namespace RetryBudgetRegistry

variable (registry : RetryBudgetRegistry) (activityName : String)

def admitAttempt (overflow : ℕ) (isRetry : Bool) (now : ℕ) : Admission × RetryBudgetRegistry :=
  let (admission, registry) := registry.withBucket activityName now fun policy bucket =>
    bucket.admitAttempt overflow policy isRetry now
  (admission.getD .untracked, registry)

def commit (ticket : TicketKind) (now : ℕ) : Option ℚ × RetryBudgetRegistry :=
  registry.withBucket activityName now fun policy bucket => bucket.commit policy ticket

def release (ticket : TicketKind) (now : ℕ) : Option ℚ × RetryBudgetRegistry :=
  registry.withBucket activityName now fun policy bucket => bucket.release policy ticket

def available (now : ℕ) : Option ℚ × RetryBudgetRegistry :=
  registry.withBucket activityName now fun _ bucket => (bucket.tokens, bucket)

def cancelDeferral (reservation : SlotReservation) (now : ℕ) : RetryBudgetRegistry :=
  (registry.withBucket activityName now fun _ bucket => ((), bucket.cancel reservation now)).2

/-- The delay to write, and the reservation after it. -/
def wakeDelay (overflow : ℕ) (wakeAt : ℕ) (reservation : Option SlotReservation) (now : ℕ) :
    (ℕ × Option SlotReservation) × RetryBudgetRegistry :=
  if minRetryBudgetDefer ≤ wakeAt - now then ((wakeAt - now, reservation), registry)
  else
    let (fresh, registry) := registry.withBucket activityName now fun policy bucket =>
      bucket.rewake overflow policy reservation now
    (fresh.getD (minRetryBudgetDefer, reservation), registry)

end RetryBudgetRegistry

end Harvest.RetryBudget
