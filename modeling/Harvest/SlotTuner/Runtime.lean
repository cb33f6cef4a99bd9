import Harvest.Lib.Run
import Harvest.SlotTuner.Pool
import Mathlib.Algebra.GroupWithZero.Nat

/-!
# The runtime of a tuned slot type

Model of `TunedSlotRuntime` in `slot_tuner.rs`. The tuner withholds permits of the dispatch
semaphore to keep the permits of dispatch at a live target. A call of `resize_toward` or
`release_all_withheld` is a sequence of points; between two of them dispatch and the background
tasks go on. Each point does one access to what is shared: the semaphore, the live target, a
background task.

The band of a runtime is fixed by `new` and stands as a parameter.

Proved here:
* `Band.clamp_mem`, `initialTarget_eq`: the targets are clamped to the band.
* `sum_takeReleases`: what a grow takes from the withheld permits.
-/

namespace Harvest.SlotTuner

open Lib

/-! ## The band -/

/-- `[min_slots, max_slots]` as `effective_band` leaves it. -/
structure Band where
  minSlots : ℕ
  maxSlots : ℕ
  le : minSlots ≤ maxSlots

def effectiveBand (minSlots maxSlots : ℕ) : Band :=
  if h : minSlots ≤ maxSlots then ⟨minSlots, maxSlots, h⟩ else ⟨maxSlots, maxSlots, Nat.le_refl _⟩

def initialTarget (configuredMax minSlots maxSlots : ℕ) : ℕ :=
  let band := effectiveBand minSlots maxSlots
  if configuredMax < band.minSlots then band.minSlots
  else if configuredMax > band.maxSlots then band.maxSlots
  else configuredMax

/-- `desired.clamp(self.min_slots, self.max_slots)` -/
def Band.clamp (band : Band) (desired : ℕ) : ℕ :=
  if desired < band.minSlots then band.minSlots
  else if desired > band.maxSlots then band.maxSlots
  else desired

def Band.Mem (band : Band) (target : ℕ) : Prop :=
  band.minSlots ≤ target ∧ target ≤ band.maxSlots

theorem Band.clamp_mem (band : Band) (desired : ℕ) : band.Mem (band.clamp desired) := by
  have hle := band.le
  unfold Mem clamp
  split
  · omega
  · split <;> omega

@[simp] theorem maxSlots_effectiveBand (minSlots maxSlots : ℕ) :
    (effectiveBand minSlots maxSlots).maxSlots = maxSlots := by
  unfold effectiveBand
  split <;> rfl

theorem effectiveBand_self (band : Band) : effectiveBand band.minSlots band.maxSlots = band := by
  simp [effectiveBand, band.le]

/-- The initial target is the configured value, clamped. -/
theorem initialTarget_eq (band : Band) (configuredMax : ℕ) :
    initialTarget configuredMax band.minSlots band.maxSlots = band.clamp configuredMax := by
  rw [initialTarget, effectiveBand_self]
  rfl

/-! ## The runtime -/

/-- `withheld` has the sizes of the permits, the last pushed last; a handle is the number of its
task. -/
structure TunedSlotRuntime where
  liveTarget : ℕ
  withheld : List ℕ
  desiredTarget : ℕ
  pendingShrink : Option ℕ

def TunedSlotRuntime.withheldPermits (runtime : TunedSlotRuntime) : ℕ := runtime.withheld.sum

/-- `TunedSlotRuntime::new`, with what it leaves of the semaphore. -/
def TunedSlotRuntime.new (semaphore : Semaphore Owner) (configuredMax minSlots maxSlots : ℕ) :
    TunedSlotRuntime × Semaphore Owner :=
  let band := effectiveBand minSlots maxSlots
  let target := initialTarget configuredMax band.minSlots band.maxSlots
  let toWithhold := band.maxSlots - target
  let fallback := (⟨semaphore.free, [], semaphore.free, none⟩, semaphore)
  -- `u32::try_from(to_withhold)`
  if toWithhold < 2 ^ 32 then
    if toWithhold = 0 then (⟨target, [], target, none⟩, semaphore)
    else
      match semaphore.tryAcquireMany toWithhold with
      | some semaphore => (⟨target, [toWithhold], target, none⟩, semaphore)
      | none => fallback
  else fallback

/-- `OwnedSemaphorePermit::split`: the permit that is split off, and what is left. -/
def splitPermit (permits n : ℕ) : Option (ℕ × ℕ) :=
  if n ≤ permits then some (n, permits - n) else none

/-- The loop of a grow over the withheld permits, the last pushed first: what stays withheld, the
permits to release and how many are still missing. -/
def takeReleases : List ℕ → ℕ → List ℕ → List ℕ × List ℕ × ℕ
  | [], remaining, toRelease => ([], toRelease, remaining)
  | held :: withheld, remaining, toRelease =>
    if remaining = 0 then (held :: withheld, toRelease, remaining)
    else if held ≤ remaining then takeReleases withheld (remaining - held) (toRelease ++ [held])
    else
      match splitPermit held remaining with
      | some (release, rest) => (rest :: withheld, toRelease ++ [release], 0)
      | none => (held :: withheld, toRelease, remaining)

/-- What is taken and what stays make up what was there, and what was asked for is taken or still
missing. -/
theorem sum_takeReleases {stack toRelease withheld' toRelease' : List ℕ} {remaining remaining' : ℕ}
    (h : takeReleases stack remaining toRelease = (withheld', toRelease', remaining')) :
    withheld'.sum + toRelease'.sum = stack.sum + toRelease.sum ∧
      remaining' + toRelease'.sum = remaining + toRelease.sum := by
  induction stack generalizing remaining toRelease with
  | nil =>
    cases h
    simp
  | cons held stack ih =>
    rw [takeReleases] at h
    split at h
    next =>
      cases h
      simp
    next =>
      split at h
      next hle =>
        obtain ⟨hstays, htaken⟩ := ih h
        simp only [List.sum_append, List.sum_cons, List.sum_nil] at hstays htaken ⊢
        omega
      next hlt =>
        have hsplit : splitPermit held remaining = some (remaining, held - remaining) :=
          if_pos (by omega)
        rw [hsplit] at h
        cases h
        simp only [List.sum_append, List.sum_cons, List.sum_nil]
        omega

/-! ## Calls -/

/-- `settle_pending_shrink` runs before and after the adjustment. -/
inductive Round
  | before
  | after
deriving DecidableEq, Repr

/-- Where a call of `resize_toward` is. -/
inductive ResizePoint
  /-- `self.pending_shrink.take()` -/
  | settle (round : Round)
  /-- `handle.is_finished()` -/
  | check (round : Round) (handle : ℕ)
  /-- `handle.await` -/
  | reap (round : Round) (handle : ℕ)
  /-- a permit is in hand; `self.live_target() > desired` -/
  | reaped (round : Round)
  /-- the permit is dropped -/
  | giveBack (round : Round)
  /-- the permit is withheld; `fetch_sub(1)` -/
  | lower (round : Round)
  /-- `desired >= self.live_target()` -/
  | queued (round : Round) (handle : ℕ)
  /-- `handle.abort()` -/
  | abort (round : Round) (handle : ℕ)
  /-- the handle is dropped -/
  | detach (round : Round) (handle : ℕ)
  /-- `desired` against `current` -/
  | adjust
  /-- `fetch_add(released)` -/
  | raise (released : ℕ) (toRelease : List ℕ)
  /-- `drop(to_release)`, permit by permit -/
  | free (toRelease : List ℕ)
  /-- the test of the shrink loop -/
  | shrink
  /-- `try_acquire_owned()` -/
  | withhold
  /-- the permit is withheld; `fetch_sub(1)` -/
  | shrunk
  /-- the background acquire is spawned -/
  | spawn
deriving DecidableEq, Repr

/-- Where a call of `release_all_withheld` is. -/
inductive ReleasePoint
  | take
  | abort (handle : ℕ)
  | detach (handle : ℕ)
  /-- `live_target.store(max_slots)` -/
  | store
  /-- `withheld.clear()`, permit by permit -/
  | clear
  | desired
deriving DecidableEq, Repr

inductive Call
  | idle
  | resizeToward (desired : ℕ) (point : ResizePoint)
  | releaseAllWithheld (point : ReleasePoint)
deriving DecidableEq, Repr

/-- What follows `settle_pending_shrink`. -/
def Round.next : Round → ResizePoint
  | .before => .adjust
  | .after => .spawn

structure World where
  pool : Pool
  runtime : TunedSlotRuntime
  call : Call

/-- A fresh semaphore with `max_slots` permits and the runtime over it. -/
def World.new (configuredMax minSlots maxSlots : ℕ) : World :=
  let (runtime, semaphore) :=
    TunedSlotRuntime.new (.new maxSlots) configuredMax minSlots maxSlots
  ⟨⟨semaphore, 0, ∅, 0⟩, runtime, .idle⟩

def World.resizeStep (w : World) (desired : ℕ) : ResizePoint → World
  | .settle round =>
    match w.runtime.pendingShrink with
    | none => { w with call := .resizeToward desired round.next }
    | some handle =>
      { w with
        runtime := { w.runtime with pendingShrink := none }
        call := .resizeToward desired (.check round handle) }
  | .check round handle =>
    if w.pool.isFinished handle then { w with call := .resizeToward desired (.reap round handle) }
    else { w with call := .resizeToward desired (.queued round handle) }
  | .reap round handle =>
    match w.pool.reap handle with
    | some (pool, true) => { w with pool := pool, call := .resizeToward desired (.reaped round) }
    | some (pool, false) => { w with pool := pool, call := .resizeToward desired round.next }
    | none => w
  | .reaped round =>
    if w.runtime.liveTarget > desired then
      { w with
        runtime := { w.runtime with withheld := w.runtime.withheld ++ [1] }
        call := .resizeToward desired (.lower round) }
    else { w with call := .resizeToward desired (.giveBack round) }
  | .giveBack round =>
    { w with pool := w.pool.release 1, call := .resizeToward desired round.next }
  | .lower round =>
    { w with
      runtime := { w.runtime with liveTarget := w.runtime.liveTarget - 1 }
      call := .resizeToward desired round.next }
  | .queued round handle =>
    if desired ≥ w.runtime.liveTarget then
      { w with call := .resizeToward desired (.abort round handle) }
    else
      { w with
        runtime := { w.runtime with pendingShrink := some handle }
        call := .resizeToward desired round.next }
  | .abort round handle =>
    { w with
      pool := w.pool.abort handle
      call := .resizeToward desired (.detach round handle) }
  | .detach round handle =>
    { w with pool := w.pool.detach handle, call := .resizeToward desired round.next }
  | .adjust =>
    let current := w.runtime.liveTarget
    if desired > current then
      let (withheld, toRelease, remaining) :=
        takeReleases w.runtime.withheld.reverse (desired - current) []
      let released := (desired - current) - remaining
      { w with
        runtime := { w.runtime with withheld := withheld.reverse }
        call := .resizeToward desired (.raise released toRelease) }
    else if desired < current then { w with call := .resizeToward desired .shrink }
    else { w with call := .resizeToward desired (.settle .after) }
  | .raise released toRelease =>
    { w with
      runtime := { w.runtime with liveTarget := w.runtime.liveTarget + released }
      call := .resizeToward desired (.free toRelease) }
  | .free [] => { w with call := .resizeToward desired (.settle .after) }
  | .free (permit :: toRelease) =>
    { w with
      pool := w.pool.release permit
      call := .resizeToward desired (.free toRelease) }
  | .shrink =>
    if w.runtime.liveTarget > desired then { w with call := .resizeToward desired .withhold }
    else { w with call := .resizeToward desired (.settle .after) }
  | .withhold =>
    match w.pool.tryAcquire with
    | some pool =>
      { w with
        pool := pool
        runtime := { w.runtime with withheld := w.runtime.withheld ++ [1] }
        call := .resizeToward desired .shrunk }
    | none => { w with call := .resizeToward desired (.settle .after) }
  | .shrunk =>
    { w with
      runtime := { w.runtime with liveTarget := w.runtime.liveTarget - 1 }
      call := .resizeToward desired .shrink }
  | .spawn =>
    if w.runtime.liveTarget > desired ∧ w.runtime.pendingShrink = none then
      { w with
        pool := w.pool.spawn
        runtime := { w.runtime with pendingShrink := some w.pool.nextTask }
        call := .idle }
    else { w with call := .idle }

def World.releaseStep (band : Band) (w : World) : ReleasePoint → World
  | .take =>
    match w.runtime.pendingShrink with
    | none => { w with call := .releaseAllWithheld .store }
    | some handle =>
      { w with
        runtime := { w.runtime with pendingShrink := none }
        call := .releaseAllWithheld (.abort handle) }
  | .abort handle =>
    { w with pool := w.pool.abort handle, call := .releaseAllWithheld (.detach handle) }
  | .detach handle =>
    { w with pool := w.pool.detach handle, call := .releaseAllWithheld .store }
  | .store =>
    { w with
      runtime := { w.runtime with liveTarget := band.maxSlots }
      call := .releaseAllWithheld .clear }
  | .clear =>
    match w.runtime.withheld with
    | [] => { w with call := .releaseAllWithheld .desired }
    | permit :: withheld =>
      { w with
        pool := w.pool.release permit
        runtime := { w.runtime with withheld := withheld } }
  | .desired =>
    { w with
      runtime := { w.runtime with desiredTarget := band.maxSlots }
      call := .idle }

inductive Event
  | resizeToward (desired : ℕ)
  | releaseAllWithheld
  /-- the call that runs takes its next step -/
  | advance
  | others (event : Pool.Event)
deriving DecidableEq, Repr

def World.step (band : Band) (w : World) : Event → World
  | .resizeToward desired =>
    let desired := band.clamp desired
    { w with
      runtime := { w.runtime with desiredTarget := desired }
      call := .resizeToward desired (.settle .before) }
  | .releaseAllWithheld => { w with call := .releaseAllWithheld .take }
  | .advance =>
    match w.call with
    | .idle => w
    | .resizeToward desired point => w.resizeStep desired point
    | .releaseAllWithheld point => w.releaseStep band point
  | .others event => { w with pool := w.pool.step event }

/-- The calls take `&mut self`: one runs at a time. -/
def World.Allows (w : World) : Event → Prop
  | .resizeToward _ | .releaseAllWithheld => w.call = .idle
  | .advance => True
  | .others event => w.pool.Allows event

end Harvest.SlotTuner
