import Harvest.SlotTuner.Runtime

/-!
# Slot tuning conserves permits

Dispatch, the background tasks and the points of the running call take their steps in any order. No
permit is lost or made, dispatch stays within the live target at every step, and at most one
background acquire is under way that was not aborted.

Proved here:
* `Conserves.step`, `Conserves.exec`: the invariant of a step and of a run.
* `Conserves.dispatchHolds_le`: the permits of dispatch are within the live target.
* `Conserves.free_add_dispatchHolds`: with nothing withheld and no background task, dispatch has
  what is not free.
* `releaseAllWithheld_returns`: `release_all_withheld` comes to its end.
-/

namespace Harvest.SlotTuner

open Lib

/-! ## The invariant -/

/-- The permits a call has in hand: they are neither withheld nor back in the semaphore. -/
def Call.inHand : Call → ℕ
  | .resizeToward _ (.reaped _) | .resizeToward _ (.giveBack _) => 1
  | .resizeToward _ (.raise _ toRelease) | .resizeToward _ (.free toRelease) => toRelease.sum
  | _ => 0

/-- The handle of the background acquire, which a call may have taken out of the runtime. -/
def Call.handle (pendingShrink : Option ℕ) : Call → Option ℕ
  | .resizeToward _ (.check _ handle) | .resizeToward _ (.reap _ handle)
  | .resizeToward _ (.queued _ handle) | .resizeToward _ (.abort _ handle)
  | .resizeToward _ (.detach _ handle) => some handle
  | .releaseAllWithheld (.abort handle) | .releaseAllWithheld (.detach handle) => some handle
  | _ => pendingShrink

/-- Withheld permits and live target make up `max_slots`. -/
def Balanced (band : Band) (runtime : TunedSlotRuntime) : Prop :=
  runtime.withheldPermits + runtime.liveTarget = band.maxSlots

/-- Withheld permits against the live target: a shrink withholds first and lowers the target then,
a grow takes the permits out first and raises the target then. -/
def ResizePoint.Law (band : Band) (pool : Pool) (runtime : TunedSlotRuntime) (desired : ℕ) :
    ResizePoint → Prop
  | .raise released toRelease =>
    runtime.withheldPermits + runtime.liveTarget + released = band.maxSlots ∧
      released = toRelease.sum
  | .lower _ | .shrunk =>
    runtime.withheldPermits + runtime.liveTarget = band.maxSlots + 1 ∧ desired < runtime.liveTarget
  | .withhold => Balanced band runtime ∧ desired < runtime.liveTarget
  | .detach _ handle =>
    Balanced band runtime ∧ (pool.Live handle → pool.isFinished handle = true)
  | _ => Balanced band runtime

/-- The live target is raised to the maximum before the withheld permits are dropped. -/
def ReleasePoint.Law (band : Band) (pool : Pool) (runtime : TunedSlotRuntime) :
    ReleasePoint → Prop
  | .clear => runtime.liveTarget = band.maxSlots
  | .desired => runtime.liveTarget = band.maxSlots ∧ runtime.withheld = []
  | .detach handle =>
    Balanced band runtime ∧ (pool.Live handle → pool.isFinished handle = true)
  | _ => Balanced band runtime

def Call.Law (band : Band) (pool : Pool) (runtime : TunedSlotRuntime) : Call → Prop
  | .idle => Balanced band runtime
  | .resizeToward desired point => band.Mem desired ∧ point.Law band pool runtime desired
  | .releaseAllWithheld point => point.Law band pool runtime

structure Conserves (band : Band) (w : World) : Prop where
  wf : w.pool.Wf
  permits : w.pool.total + w.runtime.withheldPermits + w.call.inHand = band.maxSlots
  law : w.call.Law band w.pool w.runtime
  range : band.Mem w.runtime.liveTarget
  handle : ∀ i, w.pool.Live i → w.call.handle w.runtime.pendingShrink = some i

variable {band : Band} {pool pool' : Pool} {runtime : TunedSlotRuntime} {call : Call} {desired : ℕ}

/-- A step of dispatch or of a background task. -/
theorem Conserves.of_quiet (hquiet : pool.Quiet pool') (h : Conserves band ⟨pool, runtime, call⟩) :
    Conserves band ⟨pool', runtime, call⟩ := by
  have hended : ∀ handle, (pool.Live handle → pool.isFinished handle = true) →
      pool'.Live handle → pool'.isFinished handle = true :=
    fun handle hfinished hlive =>
      hquiet.finished handle hlive (hfinished (hquiet.live handle hlive))
  refine ⟨hquiet.wf h.wf, ?_, ?_, h.range, fun i hi => h.handle i (hquiet.live i hi)⟩
  · have hpermits := h.permits
    dsimp only at hpermits ⊢
    rw [hquiet.total]
    exact hpermits
  · have hlaw := h.law
    cases call with
    | idle => exact hlaw
    | resizeToward desired point =>
      refine ⟨hlaw.1, ?_⟩
      cases point with
      | detach round handle => exact ⟨hlaw.2.1, hended handle hlaw.2.2⟩
      | _ => exact hlaw.2
    | releaseAllWithheld point =>
      cases point with
      | detach handle => exact ⟨hlaw.1, hended handle hlaw.2⟩
      | _ => exact hlaw

/-- Once the handle is dropped, no acquire is left that was not aborted. -/
private theorem not_live_of_detach {handle : ℕ}
    (hended : pool.Live handle → pool.isFinished handle = true)
    (hhandle : ∀ i, pool.Live i → some handle = some i) (i : ℕ) :
    ¬ (pool.detach handle).Live i := by
  intro hi
  obtain rfl : handle = i :=
    Option.some.inj (hhandle i ((Pool.quiet_detach pool handle).live i hi))
  exact Pool.not_live_detach hended hi

/-- `settle_pending_shrink` is through. -/
private theorem Conserves.next (round : Round) (hdesired : band.Mem desired) (hwf : pool.Wf)
    (hpermits : pool.total + runtime.withheldPermits = band.maxSlots)
    (hlaw : Balanced band runtime) (hrange : band.Mem runtime.liveTarget)
    (hhandle : ∀ i, pool.Live i → runtime.pendingShrink = some i) :
    Conserves band ⟨pool, runtime, .resizeToward desired round.next⟩ := by
  cases round with
  | before => exact ⟨hwf, hpermits, ⟨hdesired, hlaw⟩, hrange, hhandle⟩
  | after => exact ⟨hwf, hpermits, ⟨hdesired, hlaw⟩, hrange, hhandle⟩

/-! ## The points of `resize_toward` -/

section Resize

variable {round : Round} {handle : ℕ}

/-- The live target follows a permit that was withheld. -/
private theorem lowered
    (hlaw : runtime.withheldPermits + runtime.liveTarget = band.maxSlots + 1)
    (habove : desired < runtime.liveTarget) (hdesired : band.Mem desired)
    (hrange : band.Mem runtime.liveTarget) :
    Balanced band { runtime with liveTarget := runtime.liveTarget - 1 } ∧
      band.Mem (runtime.liveTarget - 1) := by
  obtain ⟨hmin, -⟩ := hdesired
  obtain ⟨-, hmax⟩ := hrange
  refine ⟨?_, by omega, by omega⟩
  have hafter : runtime.withheldPermits + (runtime.liveTarget - 1) = band.maxSlots := by omega
  exact hafter

/-- What is reaped is in hand, and no acquire is left. -/
private theorem Conserves.reap
    (h : Conserves band ⟨pool, runtime, .resizeToward desired (.reap round handle)⟩) :
    Conserves band (World.resizeStep ⟨pool, runtime, .resizeToward desired (.reap round handle)⟩
      desired (.reap round handle)) := by
  obtain ⟨hwf, hpermits, ⟨hdesired, hlaw⟩, hrange, hhandle⟩ := h
  have hsame : ∀ i, pool.Live i → i = handle :=
    fun i hi => (Option.some.inj (hhandle i hi)).symm
  unfold World.resizeStep
  dsimp only [Call.inHand] at hpermits ⊢
  cases hreap : pool.reap handle with
  | none => exact ⟨hwf, hpermits, ⟨hdesired, hlaw⟩, hrange, hhandle⟩
  | some result =>
    obtain ⟨pool', permit⟩ := result
    obtain ⟨htotal, hlive, hwf'⟩ := Pool.of_reap hreap
    have hnone : ∀ i, ¬ pool'.Live i := fun i hi => (hlive i hi).1 (hsame i (hlive i hi).2)
    cases permit with
    | true =>
      refine ⟨hwf' hwf, ?_, ⟨hdesired, hlaw⟩, hrange, fun i hi => absurd hi (hnone i)⟩
      dsimp only [Call.inHand, Bool.toNat_true] at htotal ⊢
      omega
    | false =>
      refine .next round hdesired (hwf' hwf) ?_ hlaw hrange fun i hi => absurd hi (hnone i)
      dsimp only [Bool.toNat_false] at htotal
      omega

/-- A grow takes the missing permits out of the withheld ones. -/
private theorem Conserves.adjust
    (h : Conserves band ⟨pool, runtime, .resizeToward desired .adjust⟩) :
    Conserves band (World.resizeStep ⟨pool, runtime, .resizeToward desired .adjust⟩ desired
      .adjust) := by
  obtain ⟨hwf, hpermits, ⟨hdesired, hlaw⟩, hrange, hhandle⟩ := h
  unfold World.resizeStep
  dsimp only [Call.inHand] at hpermits ⊢
  split
  next hgrow =>
    rcases htake : takeReleases runtime.withheld.reverse (desired - runtime.liveTarget) [] with
      ⟨withheld, toRelease, remaining⟩
    obtain ⟨hstays, htaken⟩ := sum_takeReleases htake
    have hbalanced : runtime.withheld.sum + runtime.liveTarget = band.maxSlots := hlaw
    have htotal : pool.total + runtime.withheld.sum = band.maxSlots := hpermits
    rw [List.sum_reverse, List.sum_nil] at hstays
    rw [List.sum_nil] at htaken
    refine ⟨hwf, ?_, ⟨hdesired, ?_, ?_⟩, hrange, hhandle⟩
    all_goals
      dsimp only [Call.inHand, TunedSlotRuntime.withheldPermits]
      try rw [List.sum_reverse]
      omega
  next =>
    split
    next => exact ⟨hwf, hpermits, ⟨hdesired, hlaw⟩, hrange, hhandle⟩
    next => exact ⟨hwf, hpermits, ⟨hdesired, hlaw⟩, hrange, hhandle⟩

/-- A free permit is withheld before the live target is lowered. -/
private theorem Conserves.withhold
    (h : Conserves band ⟨pool, runtime, .resizeToward desired .withhold⟩) :
    Conserves band (World.resizeStep ⟨pool, runtime, .resizeToward desired .withhold⟩ desired
      .withhold) := by
  obtain ⟨hwf, hpermits, ⟨hdesired, hlaw, habove⟩, hrange, hhandle⟩ := h
  unfold World.resizeStep
  dsimp only [Call.inHand] at hpermits ⊢
  cases hacquire : pool.tryAcquire with
  | none => exact ⟨hwf, hpermits, ⟨hdesired, hlaw⟩, hrange, hhandle⟩
  | some pool' =>
    obtain ⟨htotal, htasks, hwf'⟩ := Pool.of_tryAcquire hacquire
    have hbalanced : runtime.withheld.sum + runtime.liveTarget = band.maxSlots := hlaw
    have hbefore : pool.total + runtime.withheld.sum = band.maxSlots := hpermits
    refine ⟨hwf' hwf, ?_, ⟨hdesired, ?_, habove⟩, hrange, fun i hi => hhandle i ?_⟩
    · dsimp only [Call.inHand, TunedSlotRuntime.withheldPermits]
      rw [List.sum_append, List.sum_singleton]
      omega
    · dsimp only [TunedSlotRuntime.withheldPermits]
      rw [List.sum_append, List.sum_singleton]
      omega
    · dsimp only at hi
      rw [Pool.Live, htasks] at hi
      exact hi

/-- A background acquire is spawned only when there is no other. -/
private theorem Conserves.spawn
    (h : Conserves band ⟨pool, runtime, .resizeToward desired .spawn⟩) :
    Conserves band (World.resizeStep ⟨pool, runtime, .resizeToward desired .spawn⟩ desired
      .spawn) := by
  obtain ⟨hwf, hpermits, ⟨-, hlaw⟩, hrange, hhandle⟩ := h
  unfold World.resizeStep
  dsimp only [Call.inHand] at hpermits ⊢
  split
  next hshort =>
    refine ⟨hwf.spawn, ?_, hlaw, hrange, fun i hi => ?_⟩
    · dsimp only [Call.inHand]
      rw [Pool.total_spawn hwf]
      exact hpermits
    · rcases Pool.Live.of_spawn hi with rfl | hlive
      · rfl
      · have hother : runtime.pendingShrink = some i := hhandle i hlive
        rw [hshort.2] at hother
        cases hother
  next => exact ⟨hwf, hpermits, hlaw, hrange, hhandle⟩

theorem Conserves.resizeStep {point : ResizePoint}
    (h : Conserves band ⟨pool, runtime, .resizeToward desired point⟩) :
    Conserves band (World.resizeStep ⟨pool, runtime, .resizeToward desired point⟩ desired
      point) := by
  have hconserves := h
  obtain ⟨hwf, hpermits, ⟨hdesired, hlaw⟩, hrange, hhandle⟩ := h
  cases point with
  | settle round =>
    unfold World.resizeStep
    dsimp only
    cases hpending : runtime.pendingShrink with
    | none => exact .next round hdesired hwf hpermits hlaw hrange hhandle
    | some handle =>
      refine ⟨hwf, hpermits, ⟨hdesired, hlaw⟩, hrange, fun i hi => ?_⟩
      exact hpending.symm.trans (hhandle i hi)
  | check round handle =>
    unfold World.resizeStep
    dsimp only
    split
    · exact ⟨hwf, hpermits, ⟨hdesired, hlaw⟩, hrange, hhandle⟩
    · exact ⟨hwf, hpermits, ⟨hdesired, hlaw⟩, hrange, hhandle⟩
  | reap round handle => exact hconserves.reap
  | reaped round =>
    unfold World.resizeStep
    dsimp only
    have hbalanced : runtime.withheld.sum + runtime.liveTarget = band.maxSlots := hlaw
    have htotal : pool.total + runtime.withheld.sum + 1 = band.maxSlots := hpermits
    split
    next habove =>
      refine ⟨hwf, ?_, ⟨hdesired, ?_, habove⟩, hrange, hhandle⟩
      all_goals
        dsimp only [Call.inHand, TunedSlotRuntime.withheldPermits]
        rw [List.sum_append, List.sum_singleton]
        omega
    next => exact ⟨hwf, hpermits, ⟨hdesired, hlaw⟩, hrange, hhandle⟩
  | giveBack round =>
    refine .next round hdesired (hwf.release 1) ?_ hlaw hrange hhandle
    rw [Pool.total_release, Nat.add_right_comm]
    exact hpermits
  | lower round =>
    obtain ⟨hlaw, habove⟩ := hlaw
    obtain ⟨hbalanced, hrange'⟩ := lowered hlaw habove hdesired hrange
    exact .next round hdesired hwf hpermits hbalanced hrange' hhandle
  | queued round handle =>
    unfold World.resizeStep
    dsimp only
    split
    · exact ⟨hwf, hpermits, ⟨hdesired, hlaw⟩, hrange, hhandle⟩
    · exact .next round hdesired hwf hpermits hlaw hrange hhandle
  | abort round handle =>
    have habort := Pool.quiet_abort pool handle
    refine ⟨habort.wf hwf, ?_, ⟨hdesired, hlaw, Pool.isFinished_of_live_abort⟩, hrange,
      fun i hi => hhandle i (habort.live i hi)⟩
    dsimp only [World.resizeStep]
    rw [habort.total]
    exact hpermits
  | detach round handle =>
    have hdetach := Pool.quiet_detach pool handle
    obtain ⟨hlaw, hended⟩ := hlaw
    refine .next round hdesired (hdetach.wf hwf) ?_ hlaw hrange
      fun i hi => absurd hi (not_live_of_detach hended hhandle i)
    rw [hdetach.total]
    exact hpermits
  | adjust => exact hconserves.adjust
  | raise released toRelease =>
    obtain ⟨hlaw, hreleased⟩ := hlaw
    have hbefore : runtime.withheldPermits + runtime.liveTarget + released = band.maxSlots := hlaw
    have hbalanced : runtime.withheldPermits + (runtime.liveTarget + released) = band.maxSlots := by
      omega
    have hrange' : band.Mem (runtime.liveTarget + released) :=
      ⟨Nat.le_add_right_of_le hrange.1, by omega⟩
    exact ⟨hwf, hpermits, ⟨hdesired, hbalanced⟩, hrange', hhandle⟩
  | free toRelease =>
    cases toRelease with
    | nil => exact ⟨hwf, hpermits, ⟨hdesired, hlaw⟩, hrange, hhandle⟩
    | cons permit toRelease =>
      refine ⟨hwf.release permit, ?_, ⟨hdesired, hlaw⟩, hrange, hhandle⟩
      dsimp only [World.resizeStep, Call.inHand] at hpermits ⊢
      rw [Pool.total_release]
      rw [List.sum_cons] at hpermits
      omega
  | shrink =>
    unfold World.resizeStep
    dsimp only
    split
    next habove => exact ⟨hwf, hpermits, ⟨hdesired, hlaw, habove⟩, hrange, hhandle⟩
    next => exact ⟨hwf, hpermits, ⟨hdesired, hlaw⟩, hrange, hhandle⟩
  | withhold => exact hconserves.withhold
  | shrunk =>
    obtain ⟨hlaw, habove⟩ := hlaw
    obtain ⟨hbalanced, hrange'⟩ := lowered hlaw habove hdesired hrange
    exact ⟨hwf, hpermits, ⟨hdesired, hbalanced⟩, hrange', hhandle⟩
  | spawn => exact hconserves.spawn

end Resize

/-! ## The points of `release_all_withheld` -/

theorem Conserves.releaseStep {point : ReleasePoint}
    (h : Conserves band ⟨pool, runtime, .releaseAllWithheld point⟩) :
    Conserves band (World.releaseStep band ⟨pool, runtime, .releaseAllWithheld point⟩ point) := by
  obtain ⟨hwf, hpermits, hlaw, hrange, hhandle⟩ := h
  cases point with
  | take =>
    unfold World.releaseStep
    dsimp only
    cases hpending : runtime.pendingShrink with
    | none => exact ⟨hwf, hpermits, hlaw, hrange, hhandle⟩
    | some handle =>
      refine ⟨hwf, hpermits, hlaw, hrange, fun i hi => ?_⟩
      exact hpending.symm.trans (hhandle i hi)
  | abort handle =>
    have habort := Pool.quiet_abort pool handle
    refine ⟨habort.wf hwf, ?_, ⟨hlaw, Pool.isFinished_of_live_abort⟩, hrange,
      fun i hi => hhandle i (habort.live i hi)⟩
    dsimp only [World.releaseStep]
    rw [habort.total]
    exact hpermits
  | detach handle =>
    have hdetach := Pool.quiet_detach pool handle
    obtain ⟨hlaw, hended⟩ := hlaw
    refine ⟨hdetach.wf hwf, ?_, hlaw, hrange,
      fun i hi => absurd hi (not_live_of_detach hended hhandle i)⟩
    dsimp only [World.releaseStep]
    rw [hdetach.total]
    exact hpermits
  | store => exact ⟨hwf, hpermits, rfl, ⟨band.le, Nat.le_refl _⟩, hhandle⟩
  | clear =>
    unfold World.releaseStep
    dsimp only
    cases hwithheld : runtime.withheld with
    | nil => exact ⟨hwf, hpermits, ⟨hlaw, hwithheld⟩, hrange, hhandle⟩
    | cons permit withheld =>
      refine ⟨hwf.release permit, ?_, hlaw, hrange, hhandle⟩
      dsimp only [Call.inHand, TunedSlotRuntime.withheldPermits] at hpermits ⊢
      rw [hwithheld, List.sum_cons] at hpermits
      rw [Pool.total_release]
      omega
  | desired =>
    obtain ⟨hlive, hnil⟩ := hlaw
    refine ⟨hwf, hpermits, ?_, hrange, hhandle⟩
    have hsum : runtime.withheld.sum = 0 := by
      dsimp only at hnil
      rw [hnil, List.sum_nil]
    have hbalanced : runtime.withheld.sum + runtime.liveTarget = band.maxSlots := by
      rw [hsum, Nat.zero_add]
      exact hlive
    exact hbalanced

/-! ## Runs -/

variable {w : World}

/-- **What one step keeps.** -/
theorem Conserves.step (event : Event) (h : Conserves band w) (hallowed : w.Allows event) :
    Conserves band (w.step band event) := by
  obtain ⟨pool, runtime, call⟩ := w
  cases event with
  | resizeToward desired =>
    obtain rfl : call = .idle := hallowed
    exact ⟨h.wf, h.permits, ⟨band.clamp_mem desired, h.law⟩, h.range, h.handle⟩
  | releaseAllWithheld =>
    obtain rfl : call = .idle := hallowed
    exact ⟨h.wf, h.permits, h.law, h.range, h.handle⟩
  | advance =>
    cases call with
    | idle => exact h
    | resizeToward desired point => exact h.resizeStep
    | releaseAllWithheld point => exact h.releaseStep
  | others event => exact h.of_quiet (Pool.quiet_step pool event hallowed)

/-- `TunedSlotRuntime::new` over a fresh semaphore, its fallback included. -/
theorem new_spec (configuredMax minSlots maxSlots : ℕ) :
    let result := TunedSlotRuntime.new (.new maxSlots) configuredMax minSlots maxSlots
    result.2.permits + result.1.withheldPermits = maxSlots ∧
      (∀ i, result.2.pending (.background i) = 0) ∧
      Balanced (effectiveBand minSlots maxSlots) result.1 ∧
      (effectiveBand minSlots maxSlots).Mem result.1.liveTarget := by
  obtain ⟨band, hband⟩ : ∃ band, effectiveBand minSlots maxSlots = band := ⟨_, rfl⟩
  obtain rfl : band.maxSlots = maxSlots := by rw [← hband, maxSlots_effectiveBand]
  have hmem := band.clamp_mem configuredMax
  have hle : band.clamp configuredMax ≤ band.maxSlots := hmem.2
  unfold TunedSlotRuntime.new
  simp only [hband, initialTarget_eq, Balanced, TunedSlotRuntime.withheldPermits]
  split
  next =>
    split
    next hzero =>
      refine ⟨by simp, fun i => Semaphore.pending_new _ _, ?_, hmem⟩
      dsimp only
      rw [List.sum_nil]
      omega
    next =>
      split
      next semaphore hacquire =>
        have htotal := Semaphore.permits_of_tryAcquireMany hacquire
        rw [Semaphore.permits_new] at htotal
        refine ⟨?_, fun i => Semaphore.pending_of_tryAcquireMany hacquire _, ?_, hmem⟩
        · rw [List.sum_singleton, htotal]
        · dsimp only
          rw [List.sum_singleton]
          omega
      next =>
        exact ⟨by simp, fun i => Semaphore.pending_new _ _, Nat.zero_add _, band.le,
          Nat.le_refl _⟩
  next =>
    exact ⟨by simp, fun i => Semaphore.pending_new _ _, Nat.zero_add _, band.le, Nat.le_refl _⟩

theorem conserves_new (configuredMax minSlots maxSlots : ℕ) :
    Conserves (effectiveBand minSlots maxSlots) (World.new configuredMax minSlots maxSlots) := by
  have hspec := new_spec configuredMax minSlots maxSlots
  unfold World.new
  generalize TunedSlotRuntime.new (.new maxSlots) configuredMax minSlots maxSlots = result
    at hspec ⊢
  obtain ⟨runtime, semaphore⟩ := result
  obtain ⟨hpermits, hpending, hbalanced, hrange⟩ := hspec
  refine ⟨⟨fun _ _ => rfl, fun i => ?_⟩, ?_, hbalanced, hrange, ?_⟩
  · exact Nat.le_trans (Nat.le_of_eq (hpending i)) (Nat.zero_le _)
  · rw [maxSlots_effectiveBand]
    exact hpermits
  · rintro i ⟨task, hlookup, -⟩
    cases hlookup

/-- **What a run keeps.** -/
theorem Conserves.exec {events : List Event} (h : Conserves band w)
    (hrun : Legal (World.step band) World.Allows w events) :
    Conserves band (exec (World.step band) w events) :=
  invariant (fun _ event hw hallowed => hw.step event hallowed) h hrun

/-! ## What follows -/

/-- What is not withheld and not in hand is within the live target. -/
theorem Call.Law.covers (h : call.Law band pool runtime) :
    band.maxSlots ≤ runtime.withheldPermits + runtime.liveTarget + call.inHand := by
  cases call with
  | idle => exact Nat.le_of_eq h.symm
  | resizeToward desired point =>
    obtain ⟨-, hlaw⟩ := h
    cases point <;> simp only [ResizePoint.Law, Balanced, Call.inHand] at hlaw ⊢ <;> omega
  | releaseAllWithheld point =>
    cases point <;> simp only [Call.Law, ReleasePoint.Law, Balanced, Call.inHand] at h ⊢ <;> omega

/-- **Dispatch stays within the live target.** -/
theorem Conserves.dispatchHolds_le (h : Conserves band w) :
    w.pool.dispatchHolds ≤ w.runtime.liveTarget := by
  have hgranted : w.pool.semaphore.granted.countP Owner.isDispatch ≤
      w.pool.semaphore.granted.length := List.countP_le_length
  have hpermits := h.permits
  have hcovers := h.law.covers
  simp only [Pool.total, Semaphore.permits] at hpermits
  unfold Pool.dispatchHolds
  omega

/-- The background acquires that were not aborted. -/
def Pool.liveAcquires (p : Pool) : ℕ := tally (fun task => !task.aborted) p.tasks

/-- **At most one background acquire.** -/
theorem Conserves.liveAcquires_le_one (h : Conserves band w) : w.pool.liveAcquires ≤ 1 := by
  have hsame : ∀ i ∈ passing (fun task : Task => !task.aborted) w.pool.tasks,
      w.call.handle w.runtime.pendingShrink = some i := by
    intro i hi
    obtain ⟨task, hlookup, hlive⟩ := mem_passing.mp hi
    exact h.handle i ⟨task, hlookup, by simpa using hlive⟩
  have hnodup := nodup_passing (fun task : Task => !task.aborted) w.pool.tasks
  unfold Pool.liveAcquires
  rw [← length_passing]
  cases hkeys : passing (fun task : Task => !task.aborted) w.pool.tasks with
  | nil => exact Nat.zero_le 1
  | cons i rest =>
    cases rest with
    | nil => exact Nat.le_refl 1
    | cons j rest =>
      rw [hkeys] at hsame hnodup
      have heq : some i = some j := (hsame i (by simp)).symm.trans (hsame j (by simp))
      simp [Option.some.inj heq] at hnodup

/-- With nothing withheld and no background task, dispatch has what is not free. -/
theorem Conserves.free_add_dispatchHolds (h : Conserves band w) (hidle : w.call = .idle)
    (hwithheld : w.runtime.withheld = []) (htasks : ∀ i, w.pool.tasks.lookup i = none) :
    w.pool.semaphore.free + w.pool.dispatchHolds = band.maxSlots := by
  have hnone : tally Task.holdsPermit w.pool.tasks = 0 := by
    rw [← length_passing, List.length_eq_zero_iff, List.eq_nil_iff_forall_not_mem]
    intro i hi
    obtain ⟨task, hlookup, -⟩ := mem_passing.mp hi
    rw [htasks i] at hlookup
    cases hlookup
  have hgranted : w.pool.semaphore.granted.countP Owner.isDispatch =
      w.pool.semaphore.granted.length := by
    rw [List.countP_eq_length]
    intro owner howner
    cases owner with
    | dispatch i => rfl
    | background i =>
      have hwaits := h.wf.waits i
      have hpos := List.count_pos_iff.mpr howner
      simp only [Pool.waiting, htasks i, Option.any_none, Bool.toNat_false, Semaphore.pending]
        at hwaits
      omega
  have hpermits := h.permits
  simp only [Pool.total, Semaphore.permits, TunedSlotRuntime.withheldPermits, hwithheld, hidle,
    hnone, List.sum_nil, Call.inHand] at hpermits
  unfold Pool.dispatchHolds
  omega

/-! ## After `release_all_withheld` -/

/-- The call runs, or is over and no other was made. -/
def Released (runtime : TunedSlotRuntime) : Call → Prop
  | .idle => runtime.withheld = [] ∧ runtime.pendingShrink = none
  | .resizeToward _ _ => False
  | .releaseAllWithheld .take => True
  | .releaseAllWithheld .desired => runtime.withheld = [] ∧ runtime.pendingShrink = none
  | .releaseAllWithheld _ => runtime.pendingShrink = none

theorem Released.step {event : Event} (hevent : ∀ desired, event ≠ .resizeToward desired)
    (h : Released w.runtime w.call) :
    Released (w.step band event).runtime (w.step band event).call := by
  obtain ⟨pool, runtime, call⟩ := w
  cases event with
  | resizeToward desired => exact absurd rfl (hevent desired)
  | releaseAllWithheld => exact trivial
  | others event => exact h
  | advance =>
    cases call with
    | idle => exact h
    | resizeToward desired point => exact h.elim
    | releaseAllWithheld point =>
      cases point with
      | take =>
        simp only [World.step, World.releaseStep]
        cases hpending : runtime.pendingShrink with
        | none => exact hpending
        | some handle => exact rfl
      | abort handle => exact h
      | detach handle => exact h
      | store => exact h
      | clear =>
        simp only [World.step, World.releaseStep]
        cases hwithheld : runtime.withheld with
        | nil => exact ⟨hwithheld, h⟩
        | cons permit withheld => exact h
      | desired => exact h

theorem Released.exec {events : List Event} (hevents : ∀ desired, .resizeToward desired ∉ events)
    (h : Released w.runtime w.call) :
    Released (exec (World.step band) w events).runtime
      (exec (World.step band) w events).call := by
  induction events generalizing w with
  | nil => exact h
  | cons event events ih =>
    refine ih (fun desired hmem => hevents desired (List.mem_cons_of_mem _ hmem)) (h.step ?_)
    rintro desired rfl
    exact hevents desired List.mem_cons_self

/-- The points `release_all_withheld` still has to go through. -/
def pointsLeft (runtime : TunedSlotRuntime) : Call → ℕ
  | .releaseAllWithheld .take => runtime.withheld.length + 6
  | .releaseAllWithheld (.abort _) => runtime.withheld.length + 5
  | .releaseAllWithheld (.detach _) => runtime.withheld.length + 4
  | .releaseAllWithheld .store => runtime.withheld.length + 3
  | .releaseAllWithheld .clear => runtime.withheld.length + 2
  | .releaseAllWithheld .desired => 1
  | _ => 0

theorem pointsLeft_step {event : Event} (hresize : ∀ desired, event ≠ .resizeToward desired)
    (hrelease : event ≠ .releaseAllWithheld) (h : Released w.runtime w.call) :
    pointsLeft (w.step band event).runtime (w.step band event).call ≤
      pointsLeft w.runtime w.call - if event = .advance then 1 else 0 := by
  obtain ⟨pool, runtime, call⟩ := w
  cases event with
  | resizeToward desired => exact absurd rfl (hresize desired)
  | releaseAllWithheld => exact absurd rfl hrelease
  | others event => exact Nat.le_refl _
  | advance =>
    rw [if_pos rfl]
    cases call with
    | idle => exact Nat.zero_le _
    | resizeToward desired point => exact h.elim
    | releaseAllWithheld point =>
      cases point with
      | take =>
        simp only [World.step, World.releaseStep]
        split <;> simp only [pointsLeft] <;> omega
      | clear =>
        simp only [World.step, World.releaseStep]
        split
        next hnil => simp [pointsLeft, hnil]
        next permit withheld hcons => simp [pointsLeft, hcons]
      | abort handle | detach handle | store | desired =>
        simp only [World.step, World.releaseStep, pointsLeft]
        omega

/-- Each step of the call brings it nearer to its end, whatever the others do in between. -/
theorem pointsLeft_exec {events : List Event} (hresize : ∀ desired, .resizeToward desired ∉ events)
    (hrelease : .releaseAllWithheld ∉ events) (h : Released w.runtime w.call) :
    pointsLeft (exec (World.step band) w events).runtime (exec (World.step band) w events).call ≤
      pointsLeft w.runtime w.call - events.count .advance := by
  induction events generalizing w with
  | nil => exact Nat.le_refl _
  | cons event events ih =>
    have hresize' : ∀ desired, event ≠ .resizeToward desired := by
      rintro desired rfl
      exact hresize desired List.mem_cons_self
    have hrelease' : event ≠ .releaseAllWithheld := by
      rintro rfl
      exact hrelease List.mem_cons_self
    have hfirst : pointsLeft (w.step band event).runtime (w.step band event).call ≤ _ :=
      pointsLeft_step hresize' hrelease' h
    have hrest := ih (w := w.step band event)
      (fun desired hmem => hresize desired (List.mem_cons_of_mem _ hmem))
      (fun hmem => hrelease (List.mem_cons_of_mem _ hmem)) (h.step hresize')
    rw [List.count_cons, exec_cons]
    simp only [beq_iff_eq]
    omega

/-- **`release_all_withheld` returns.** -/
theorem releaseAllWithheld_returns {events : List Event}
    (hresize : ∀ desired, .resizeToward desired ∉ events) (hrelease : .releaseAllWithheld ∉ events)
    (hadvance : w.runtime.withheld.length + 6 ≤ events.count .advance) :
    (exec (World.step band) w (.releaseAllWithheld :: events)).call = .idle := by
  have hstart : Released (w.step band .releaseAllWithheld).runtime
      (w.step band .releaseAllWithheld).call := trivial
  have hreleased : Released _ (exec (World.step band) _ events).call := hstart.exec hresize
  have hleft : pointsLeft _ (exec (World.step band) _ events).call ≤ w.runtime.withheld.length + 6 -
      events.count .advance := pointsLeft_exec hresize hrelease hstart
  rw [exec_cons]
  generalize exec (World.step band) (w.step band .releaseAllWithheld) events = last
    at hreleased hleft ⊢
  obtain ⟨pool, runtime, call⟩ := last
  cases call with
  | idle => rfl
  | resizeToward desired point => exact hreleased.elim
  | releaseAllWithheld point =>
    exfalso
    cases point <;> simp only [pointsLeft] at hleft <;> omega

/-! ## The tuner as a whole -/

/-- **Slot tuning conserves permits**, over every run from a fresh semaphore: at every moment
dispatch holds at most the live target, which is in the band, and at most one background acquire is
not aborted; between calls the withheld permits and the live target make up `max_slots`; and after
`release_all_withheld`, once the aborted acquires are dropped, every permit is free or with
dispatch. -/
theorem slot_tuning_conserves_permits (configuredMax minSlots maxSlots : ℕ) (events : List Event)
    (hrun : Legal (World.step (effectiveBand minSlots maxSlots)) World.Allows
      (World.new configuredMax minSlots maxSlots) events) :
    let band := effectiveBand minSlots maxSlots
    let w := exec (World.step band) (World.new configuredMax minSlots maxSlots) events
    w.pool.dispatchHolds ≤ w.runtime.liveTarget ∧
      (w.call = .idle → w.runtime.withheldPermits + w.runtime.liveTarget = maxSlots) ∧
      (band.minSlots ≤ w.runtime.liveTarget ∧ w.runtime.liveTarget ≤ band.maxSlots) ∧
      w.pool.liveAcquires ≤ 1 ∧
      ∀ before after, events = before ++ .releaseAllWithheld :: after →
        (∀ desired, .resizeToward desired ∉ after) → w.call = .idle →
        (∀ i task, w.pool.tasks.lookup i = some task → task.aborted = false) →
        w.pool.semaphore.free + w.pool.dispatchHolds = maxSlots := by
  intro band w
  have hw : Conserves band w := (conserves_new configuredMax minSlots maxSlots).exec hrun
  have hmax : band.maxSlots = maxSlots := maxSlots_effectiveBand minSlots maxSlots
  refine ⟨hw.dispatchHolds_le, ?_, hw.range, hw.liveAcquires_le_one, ?_⟩
  · intro hidle
    have hlaw := hw.law
    rw [hidle] at hlaw
    exact hlaw.trans hmax
  · intro before after hevents hresize hidle hdropped
    have hreleased : Released w.runtime w.call := by
      have hlast : w = exec (World.step band) ((exec (World.step band)
          (World.new configuredMax minSlots maxSlots) before).step band .releaseAllWithheld)
          after := by
        rw [← exec_cons, ← exec_append, ← hevents]
      rw [hlast]
      exact Released.exec hresize trivial
    rw [hidle] at hreleased
    obtain ⟨hwithheld, hpending⟩ := hreleased
    rw [← hmax]
    refine hw.free_add_dispatchHolds hidle hwithheld fun i => ?_
    cases hlookup : w.pool.tasks.lookup i with
    | none => rfl
    | some task =>
      -- what is left was not aborted, and would be the acquire of a handle that is gone
      have hhandle := hw.handle i ⟨task, hlookup, hdropped i task hlookup⟩
      rw [hidle] at hhandle
      have hgone : some i = none := hhandle.symm.trans hpending
      cases hgone

instance (w : World) (event : Event) : Decidable (w.Allows event) :=
  match event with
  | .resizeToward _ | .releaseAllWithheld => inferInstanceAs (Decidable (w.call = .idle))
  | .advance => isTrue trivial
  | .others .dispatchRelease => inferInstanceAs (Decidable (0 < w.pool.inFlight))
  | .others (.dispatchAcquire _) | .others .dispatchTryAcquire | .others (.dispatchPoll _)
  | .others (.dispatchCancel _) | .others (.backgroundPoll _) | .others (.backgroundFail _) =>
    isTrue trivial

/-- Two slots are in use, a shrink to one waits for a permit and gets it, and a grow aborts it. -/
def abortedShrink : List Event :=
  [.others (.dispatchAcquire 0), .others (.dispatchPoll 0), .others .dispatchTryAcquire,
    .resizeToward 1] ++ List.replicate 6 .advance ++
  [.others (.backgroundPoll 0), .others .dispatchRelease, .resizeToward 2] ++
  List.replicate 8 .advance ++ [.others (.backgroundPoll 0)]

theorem an_aborted_shrink_gives_its_permit_back :
    let events := abortedShrink ++ .releaseAllWithheld :: List.replicate 4 .advance
    let w := exec (World.step (effectiveBand 1 2)) (World.new 2 1 2) events
    Legal (World.step (effectiveBand 1 2)) World.Allows (World.new 2 1 2) events ∧
      w.call = .idle ∧ w.pool.tasks.entries = [] ∧
      w.pool.semaphore.free + w.pool.dispatchHolds = 2 := by
  intro events w
  have hrun : Legal (World.step (effectiveBand 1 2)) World.Allows (World.new 2 1 2) events := by
    decide +kernel
  have hidle : w.call = .idle := by decide +kernel
  have htasks : w.pool.tasks.entries = [] := by decide +kernel
  refine ⟨hrun, hidle, htasks, ?_⟩
  obtain ⟨-, -, -, -, hreleased⟩ := slot_tuning_conserves_permits 2 1 2 events hrun
  refine hreleased abortedShrink (List.replicate 4 .advance) rfl ?_ hidle ?_
  · simp
  · intro i task hlookup
    have hmem := AList.mem_lookup_iff.mp hlookup
    have hnil : (⟨i, task⟩ : (_ : ℕ) × Task) ∈ w.pool.tasks.entries := hmem
    rw [htasks] at hnil
    exact absurd hnil List.not_mem_nil

end Harvest.SlotTuner
