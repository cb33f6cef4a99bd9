import Harvest.Lib.Semaphore
import Harvest.Lib.Tally

/-!
# The dispatch semaphore and its users

The semaphore of one slot type, the permits of the dispatch tasks and the background tasks that
`resize_toward` spawns in `slot_tuner.rs` to wait for a permit. A background task ends with a permit
or without one. An aborted one is dropped at its next poll, and so is what it holds.

Proved here:
* `quiet_step`: the steps of dispatch and of the background tasks keep the number of permits, spawn
  nothing and undo no end of a task.
* `total_release`, `total_of_tryAcquire`, `total_of_reap`: the permits that go to the tuner or come
  from it.
* `quiet_abort`, `quiet_detach`, `not_live_detach`: a cancelled acquire is aborted or gone.
-/

namespace Harvest.SlotTuner

open Lib

/-- Who acquires: a dispatch task, or a background task of the tuner. -/
inductive Owner
  | dispatch (task : ℕ)
  | background (task : ℕ)
deriving DecidableEq, Repr

def Owner.isDispatch : Owner → Bool
  | .dispatch _ => true
  | .background _ => false

/-- How far a background task is. -/
inductive Phase
  | spawned
  | waiting
  | finished (permit : Bool)
deriving DecidableEq, Repr

structure Task where
  phase : Phase
  aborted : Bool
deriving DecidableEq, Repr

/-- The task has ended, and its permit waits in the join handle. -/
def Task.holdsPermit (task : Task) : Bool := task.phase = .finished true

structure Pool where
  semaphore : Semaphore Owner
  inFlight : ℕ
  tasks : AList fun _ : ℕ => Task
  nextTask : ℕ

namespace Pool

/-! ## What the tuner does with the pool -/

def release (p : Pool) (n : ℕ) : Pool := { p with semaphore := p.semaphore.release n }

/-- `try_acquire_owned` -/
def tryAcquire (p : Pool) : Option Pool :=
  (p.semaphore.tryAcquireMany 1).map fun semaphore => { p with semaphore := semaphore }

/-- `spawn` of `semaphore.acquire_owned()`; the handle is `nextTask`. -/
def spawn (p : Pool) : Pool :=
  { p with
    tasks := p.tasks.insert p.nextTask ⟨.spawned, false⟩
    nextTask := p.nextTask + 1 }

/-- `JoinHandle::is_finished` -/
def isFinished (p : Pool) (i : ℕ) : Bool :=
  match p.tasks.lookup i with
  | some ⟨.finished _, _⟩ => true
  | _ => false

/-- `handle.await`, with the permit the task ended with; it suspends while the task runs. -/
def reap (p : Pool) (i : ℕ) : Option (Pool × Bool) :=
  match p.tasks.lookup i with
  | some ⟨.finished permit, _⟩ => some ({ p with tasks := p.tasks.erase i }, permit)
  | _ => none

/-- The task goes, and what it holds goes back. -/
def dropTask (p : Pool) (i : ℕ) : Pool :=
  match p.tasks.lookup i with
  | none => p
  | some task =>
    { p with
      semaphore :=
        match task.phase with
        | .spawned => p.semaphore
        | .waiting => p.semaphore.cancel (.background i)
        | .finished permit => p.semaphore.release permit.toNat
      tasks := p.tasks.erase i }

/-- `JoinHandle::abort`, without effect on a finished task. -/
def abort (p : Pool) (i : ℕ) : Pool :=
  match p.tasks.lookup i with
  | none | some ⟨.finished _, _⟩ => p
  | some task => { p with tasks := p.tasks.insert i { task with aborted := true } }

/-- The join handle is dropped, with the result of a finished task. -/
def detach (p : Pool) (i : ℕ) : Pool := if p.isFinished i then p.dropTask i else p

/-! ## What dispatch and the background tasks do -/

/-- The runtime polls a background task. -/
def poll (p : Pool) (i : ℕ) : Pool :=
  match p.tasks.lookup i with
  | none => p
  | some ⟨_, true⟩ => p.dropTask i
  | some ⟨.spawned, false⟩ =>
    let semaphore := p.semaphore.acquire (.background i)
    match semaphore.claim (.background i) with
    | some semaphore =>
      { p with
        semaphore := semaphore
        tasks := p.tasks.insert i ⟨.finished true, false⟩ }
    | none =>
      { p with
        semaphore := semaphore
        tasks := p.tasks.insert i ⟨.waiting, false⟩ }
  | some ⟨.waiting, false⟩ =>
    match p.semaphore.claim (.background i) with
    | some semaphore =>
      { p with
        semaphore := semaphore
        tasks := p.tasks.insert i ⟨.finished true, false⟩ }
    | none => p
  | some ⟨.finished _, false⟩ => p

/-- A background task ends without a permit: it panicked, or the semaphore is closed. -/
def fail (p : Pool) (i : ℕ) : Pool :=
  match p.tasks.lookup i with
  | some ⟨.spawned, false⟩ => { p with tasks := p.tasks.insert i ⟨.finished false, false⟩ }
  | some ⟨.waiting, false⟩ =>
    { p with
      semaphore := p.semaphore.cancel (.background i)
      tasks := p.tasks.insert i ⟨.finished false, false⟩ }
  | _ => p

inductive Event
  | dispatchAcquire (task : ℕ)
  | dispatchTryAcquire
  | dispatchPoll (task : ℕ)
  | dispatchCancel (task : ℕ)
  | dispatchRelease
  | backgroundPoll (task : ℕ)
  | backgroundFail (task : ℕ)
deriving DecidableEq, Repr

def step (p : Pool) : Event → Pool
  | .dispatchAcquire i => { p with semaphore := p.semaphore.acquire (.dispatch i) }
  | .dispatchTryAcquire =>
    match p.tryAcquire with
    | some p' => { p' with inFlight := p.inFlight + 1 }
    | none => p
  | .dispatchPoll i =>
    match p.semaphore.claim (.dispatch i) with
    | some semaphore => { p with semaphore := semaphore, inFlight := p.inFlight + 1 }
    | none => p
  | .dispatchCancel i => { p with semaphore := p.semaphore.cancel (.dispatch i) }
  | .dispatchRelease => { p.release 1 with inFlight := p.inFlight - 1 }
  | .backgroundPoll i => p.poll i
  | .backgroundFail i => p.fail i

/-- Only a permit that is held can be released. -/
def Allows (p : Pool) : Event → Prop
  | .dispatchRelease => 0 < p.inFlight
  | _ => True

/-! ## What there is to count -/

/-- The permits of dispatch, those given to it and not yet picked up included. -/
def dispatchHolds (p : Pool) : ℕ := p.inFlight + p.semaphore.granted.countP Owner.isDispatch

/-- All permits but those in the hands of the tuner. -/
def total (p : Pool) : ℕ := p.semaphore.permits + p.inFlight + tally Task.holdsPermit p.tasks

/-- A background acquire that was not aborted. -/
def Live (p : Pool) (i : ℕ) : Prop := ∃ task, p.tasks.lookup i = some task ∧ task.aborted = false

def waiting (p : Pool) (i : ℕ) : Bool :=
  (p.tasks.lookup i).any fun task => task.phase = .waiting

/-- The numbers of the tasks are not used again, and an acquire that is under way in the semaphore
belongs to a task that waits for it. -/
structure Wf (p : Pool) : Prop where
  fresh : ∀ i, p.nextTask ≤ i → p.tasks.lookup i = none
  waits : ∀ i, p.semaphore.pending (.background i) ≤ (p.waiting i).toNat

/-- What the steps of the others do to the pool, as far as the tuner sees it. -/
structure Quiet (p p' : Pool) : Prop where
  total : p'.total = p.total
  live : ∀ i, p'.Live i → p.Live i
  finished : ∀ i, p'.Live i → p.isFinished i = true → p'.isFinished i = true
  wf : p.Wf → p'.Wf

variable {p p' : Pool} {i : ℕ}

theorem Quiet.refl (p : Pool) : Quiet p p := ⟨rfl, fun _ h => h, fun _ _ h => h, fun h => h⟩

/-- A step that leaves the background tasks alone. -/
theorem Quiet.of_semaphore {semaphore : Semaphore Owner} {inFlight : ℕ}
    (htotal : semaphore.permits + inFlight = p.semaphore.permits + p.inFlight)
    (hpending : ∀ i, semaphore.pending (.background i) = p.semaphore.pending (.background i)) :
    Quiet p { p with semaphore := semaphore, inFlight := inFlight } where
  total := by rw [Pool.total, Pool.total, htotal]
  live := fun _ h => h
  finished := fun _ _ h => h
  wf := fun h => ⟨h.fresh, fun i => Nat.le_trans (Nat.le_of_eq (hpending i)) (h.waits i)⟩

/-- A step of one background task, which has the number `i`. -/
theorem Quiet.of_task {semaphore : Semaphore Owner} {tasks : AList fun _ : ℕ => Task} {task : Task}
    (hlookup : p.tasks.lookup i = some task)
    (htotal : semaphore.permits + tally Task.holdsPermit tasks =
      p.semaphore.permits + tally Task.holdsPermit p.tasks)
    (hothers : ∀ j ≠ i, tasks.lookup j = p.tasks.lookup j)
    (hpending : ∀ j ≠ i,
      semaphore.pending (.background j) = p.semaphore.pending (.background j))
    (haborted : ∀ task', tasks.lookup i = some task' → task'.aborted = false → task.aborted = false)
    (hfinished : ∀ task' permit, tasks.lookup i = some task' → task'.aborted = false →
      task.phase = .finished permit → task' = task)
    (hwaits : p.semaphore.pending (.background i) ≤ (p.waiting i).toNat →
      semaphore.pending (.background i) ≤
        ((tasks.lookup i).any fun task => task.phase = .waiting).toNat) :
    Quiet p { p with semaphore := semaphore, tasks := tasks } where
  total := by
    simp only [Pool.total]
    omega
  live := by
    rintro j ⟨task', hlookup', hlive⟩
    by_cases hj : j = i
    · subst hj
      exact ⟨task, hlookup, haborted task' hlookup' hlive⟩
    · exact ⟨task', (hothers j hj).symm.trans hlookup', hlive⟩
  finished := by
    rintro j ⟨task', hlookup', hlive⟩ hfin
    by_cases hj : j = i
    · subst hj
      obtain ⟨phase, aborted⟩ := task
      unfold isFinished at hfin ⊢
      simp only [hlookup] at hfin
      cases phase with
      | spawned => cases hfin
      | waiting => cases hfin
      | finished permit =>
        obtain rfl := hfinished task' permit hlookup' hlive rfl
        simp only [hlookup']
    · unfold isFinished at hfin ⊢
      simp only [hothers j hj]
      exact hfin
  wf := by
    intro hwf
    refine ⟨fun j hj => ?_, fun j => ?_⟩
    · have hne : j ≠ i := by
        rintro rfl
        rw [hwf.fresh j hj] at hlookup
        cases hlookup
      exact (hothers j hne).trans (hwf.fresh j hj)
    · by_cases hj : j = i
      · subst hj
        exact hwaits (hwf.waits j)
      · have := hwf.waits j
        unfold waiting at this ⊢
        simp only [hpending j hj, hothers j hj]
        exact this

/-! ## Background tasks -/

private theorem background_ne {i j : ℕ} (h : j ≠ i) : Owner.background i ≠ Owner.background j :=
  fun heq => h (Owner.background.inj heq).symm

/-- The phase of a task changes, and nothing but its own acquire in the semaphore. -/
theorem Quiet.of_phase {semaphore : Semaphore Owner} {phase phase' : Phase}
    {aborted aborted' : Bool} (hlookup : p.tasks.lookup i = some ⟨phase, aborted⟩)
    (hphase : ∀ permit, phase ≠ .finished permit) (haborted : aborted' = false → aborted = false)
    (htotal : semaphore.permits + (Task.holdsPermit ⟨phase', aborted'⟩).toNat =
      p.semaphore.permits)
    (hpending : ∀ j ≠ i,
      semaphore.pending (.background j) = p.semaphore.pending (.background j))
    (hwaits : p.semaphore.pending (.background i) ≤ (decide (phase = .waiting)).toNat →
      semaphore.pending (.background i) ≤ (decide (phase' = .waiting)).toNat) :
    Quiet p { p with
      semaphore := semaphore
      tasks := p.tasks.insert i ⟨phase', aborted'⟩ } := by
  have hbefore : (Task.holdsPermit ⟨phase, aborted⟩).toNat = 0 := by
    simp [Task.holdsPermit, hphase]
  have htally := tally_insert_of_lookup (p := Task.holdsPermit) hlookup ⟨phase', aborted'⟩
  refine .of_task hlookup (by omega) (fun j hj => AList.lookup_insert_ne hj) hpending ?_ ?_ ?_
  · intro task' hlookup' hlive
    rw [AList.lookup_insert] at hlookup'
    cases hlookup'
    exact haborted hlive
  · exact fun _ permit _ _ hfin => absurd hfin (hphase permit)
  · simpa [waiting, hlookup] using hwaits

theorem quiet_dropTask (p : Pool) (i : ℕ) : Quiet p (p.dropTask i) := by
  unfold dropTask
  cases hlookup : p.tasks.lookup i with
  | none => exact .refl p
  | some task =>
    obtain ⟨phase, aborted⟩ := task
    have htally := tally_erase_of_lookup (p := Task.holdsPermit) hlookup
    have hgone : (p.tasks.erase i).lookup i = none := AList.lookup_erase i p.tasks
    refine .of_task hlookup ?_ (fun j hj => AList.lookup_erase_ne hj) ?_ ?_ ?_ ?_
    · cases phase with
      | spawned => simpa [Task.holdsPermit] using htally
      | waiting => simpa [Task.holdsPermit] using htally
      | finished permit =>
        have hpermit : Task.holdsPermit ⟨.finished permit, aborted⟩ = permit := by
          simp [Task.holdsPermit]
        rw [hpermit] at htally
        simp only [Semaphore.permits_release]
        omega
    · intro j hj
      cases phase with
      | spawned => rfl
      | waiting => simp [Semaphore.pending_cancel, background_ne hj]
      | finished permit => simp
    · simp [hgone]
    · simp [hgone]
    · intro hwaits
      cases phase with
      | spawned => simpa [hgone, waiting, hlookup] using hwaits
      | waiting =>
        simp only [waiting, hlookup, Option.any_some, decide_true, Bool.toNat_true] at hwaits
        simp only [Semaphore.pending_cancel, if_true]
        omega
      | finished permit => simpa [hgone, waiting, hlookup] using hwaits

/-- A task that got its permit. -/
private theorem quiet_of_claim {semaphore semaphore' : Semaphore Owner} {phase : Phase}
    (hlookup : p.tasks.lookup i = some ⟨phase, false⟩)
    (hphase : ∀ permit, phase ≠ .finished permit)
    (hpermits : semaphore.permits = p.semaphore.permits)
    (hpending : semaphore.pending (.background i) ≤
      p.semaphore.pending (.background i) + (decide (phase = .spawned)).toNat)
    (hothers : ∀ j ≠ i,
      semaphore.pending (.background j) = p.semaphore.pending (.background j))
    (hclaim : semaphore.claim (.background i) = some semaphore') :
    Quiet p { p with
      semaphore := semaphore'
      tasks := p.tasks.insert i ⟨.finished true, false⟩ } := by
  have hone := Semaphore.permits_of_claim hclaim
  refine .of_phase hlookup hphase (fun _ => rfl) ?_ ?_ ?_
  · simp only [Task.holdsPermit, decide_true, Bool.toNat_true]
    omega
  · intro j hj
    rw [Semaphore.pending_of_claim hclaim, if_neg (background_ne hj), Nat.sub_zero, hothers j hj]
  · intro hwaits
    have hle : p.semaphore.pending (.background i) + (decide (phase = .spawned)).toNat ≤ 1 := by
      cases phase with
      | spawned => simpa using hwaits
      | waiting => simpa using hwaits
      | finished permit => exact absurd rfl (hphase permit)
    rw [Semaphore.pending_of_claim hclaim, if_pos rfl]
    omega

theorem quiet_poll (p : Pool) (i : ℕ) : Quiet p (p.poll i) := by
  unfold poll
  cases hlookup : p.tasks.lookup i with
  | none => exact .refl p
  | some task =>
    obtain ⟨phase, aborted⟩ := task
    cases aborted with
    | true => exact quiet_dropTask p i
    | false =>
      cases phase with
      | spawned =>
        have hothers : ∀ j ≠ i, (p.semaphore.acquire (.background i)).pending (.background j) =
            p.semaphore.pending (.background j) := by
          intro j hj
          rw [Semaphore.pending_acquire, if_neg (background_ne hj), Nat.add_zero]
        dsimp only
        cases hclaim : (p.semaphore.acquire (.background i)).claim (.background i) with
        | some semaphore =>
          refine quiet_of_claim hlookup (by rintro _ ⟨⟩) (Semaphore.permits_acquire _ _) ?_ hothers hclaim
          simp [Semaphore.pending_acquire]
        | none =>
          refine .of_phase hlookup (by rintro _ ⟨⟩) (fun _ => rfl) ?_ hothers ?_
          · simp [Task.holdsPermit]
          · intro hwaits
            simpa [Semaphore.pending_acquire] using hwaits
      | waiting =>
        dsimp only
        cases hclaim : p.semaphore.claim (.background i) with
        | some semaphore =>
          exact quiet_of_claim hlookup (by rintro _ ⟨⟩) rfl (Nat.le_add_right _ _) (fun _ _ => rfl) hclaim
        | none => exact .refl p
      | finished permit => exact .refl p

theorem quiet_fail (p : Pool) (i : ℕ) : Quiet p (p.fail i) := by
  unfold fail
  split
  next hlookup =>
    refine .of_phase hlookup (by rintro _ ⟨⟩) (fun _ => rfl) ?_ (fun _ _ => rfl) ?_
    · simp [Task.holdsPermit]
    · simp
  next hlookup =>
    refine .of_phase hlookup (by rintro _ ⟨⟩) (fun _ => rfl) ?_ (fun j hj => ?_) ?_
    · simp [Task.holdsPermit]
    · simp [Semaphore.pending_cancel, background_ne hj]
    · intro hwaits
      simp only [decide_true, Bool.toNat_true] at hwaits
      rw [Semaphore.pending_cancel, if_pos rfl]
      omega
  next => exact .refl p

/-- **Steps of dispatch and of the background tasks.** -/
theorem quiet_step (p : Pool) (event : Event) (hallowed : p.Allows event) :
    Quiet p (p.step event) := by
  cases event with
  | dispatchAcquire task =>
    exact .of_semaphore (by simp) fun i => by simp [Semaphore.pending_acquire]
  | dispatchTryAcquire =>
    unfold step tryAcquire
    cases h : p.semaphore.tryAcquireMany 1 with
    | some semaphore =>
      have hone := Semaphore.permits_of_tryAcquireMany h
      refine .of_semaphore ?_ fun i => Semaphore.pending_of_tryAcquireMany h _
      dsimp only
      omega
    | none => exact .refl p
  | dispatchPoll task =>
    unfold step
    dsimp only
    cases h : p.semaphore.claim (.dispatch task) with
    | some semaphore =>
      have hone := Semaphore.permits_of_claim h
      exact .of_semaphore (by omega) fun i => by simp [Semaphore.pending_of_claim h]
    | none => exact .refl p
  | dispatchCancel task =>
    exact .of_semaphore (by simp) fun i => by simp [Semaphore.pending_cancel]
  | dispatchRelease =>
    have hheld : 0 < p.inFlight := hallowed
    refine .of_semaphore ?_ fun i => Semaphore.pending_release _ _ _
    simp only [release, Semaphore.permits_release]
    omega
  | backgroundPoll task => exact quiet_poll p task
  | backgroundFail task => exact quiet_fail p task

/-! ## Operations of the tuner -/

@[simp] theorem total_release (p : Pool) (n : ℕ) : (p.release n).total = p.total + n := by
  simp only [total, release, Semaphore.permits_release]
  omega

theorem Wf.release (hwf : p.Wf) (n : ℕ) : (p.release n).Wf :=
  ⟨hwf.fresh, fun i => Nat.le_trans (Nat.le_of_eq (Semaphore.pending_release _ _ _)) (hwf.waits i)⟩

/-- A free permit goes to the tuner, and nothing else changes. -/
theorem of_tryAcquire (h : p.tryAcquire = some p') :
    p'.total + 1 = p.total ∧ p'.tasks = p.tasks ∧ (p.Wf → p'.Wf) := by
  unfold tryAcquire at h
  cases hacquire : p.semaphore.tryAcquireMany 1 with
  | none =>
    rw [hacquire] at h
    cases h
  | some semaphore =>
    rw [hacquire] at h
    cases h
    have hone := Semaphore.permits_of_tryAcquireMany hacquire
    refine ⟨?_, rfl, fun hwf => ⟨hwf.fresh, fun i => ?_⟩⟩
    · simp only [total]
      omega
    · have hsame := Semaphore.pending_of_tryAcquireMany hacquire (.background i)
      exact Nat.le_trans (Nat.le_of_eq hsame) (hwf.waits i)

/-- The permit of a finished task goes to the tuner, and the task is gone. -/
theorem of_reap {permit : Bool} (h : p.reap i = some (p', permit)) :
    p'.total + permit.toNat = p.total ∧ (∀ j, p'.Live j → j ≠ i ∧ p.Live j) ∧ (p.Wf → p'.Wf) := by
  unfold reap at h
  split at h
  next permit' aborted hlookup =>
    cases h
    have hpermit : Task.holdsPermit ⟨.finished permit, aborted⟩ = permit := by
      simp [Task.holdsPermit]
    have htally := tally_erase_of_lookup (p := Task.holdsPermit) hlookup
    rw [hpermit] at htally
    have hgone : (p.tasks.erase i).lookup i = none := AList.lookup_erase i p.tasks
    refine ⟨?_, ?_, fun hwf => ⟨fun j hj => ?_, fun j => ?_⟩⟩
    · simp only [total]
      omega
    · rintro j ⟨task, hlookup', hlive⟩
      by_cases hj : j = i
      · subst hj
        rw [hgone] at hlookup'
        cases hlookup'
      · exact ⟨hj, task, (AList.lookup_erase_ne hj).symm.trans hlookup', hlive⟩
    · by_cases hji : j = i
      · rw [hji, hgone]
      · exact (AList.lookup_erase_ne hji).trans (hwf.fresh j hj)
    · have hwaits := hwf.waits j
      unfold waiting at hwaits ⊢
      by_cases hji : j = i
      · subst hji
        simp only [hlookup, hgone] at hwaits ⊢
        exact hwaits
      · simp only [AList.lookup_erase_ne hji]
        exact hwaits
  next => cases h

theorem total_spawn (hwf : p.Wf) : p.spawn.total = p.total := by
  have hnone := hwf.fresh p.nextTask (Nat.le_refl _)
  have htally := tally_insert_of_none (p := Task.holdsPermit) hnone ⟨.spawned, false⟩
  simp only [total, spawn, htally]
  rfl

theorem Live.of_spawn (h : p.spawn.Live i) : i = p.nextTask ∨ p.Live i := by
  obtain ⟨task, hlookup, hlive⟩ := h
  by_cases hi : i = p.nextTask
  · exact .inl hi
  · exact .inr ⟨task, (AList.lookup_insert_ne hi).symm.trans hlookup, hlive⟩

theorem Wf.spawn (hwf : p.Wf) : p.spawn.Wf := by
  refine ⟨fun i hi => ?_, fun i => ?_⟩
  · have hlt : p.nextTask < i := hi
    exact (AList.lookup_insert_ne (by omega)).trans (hwf.fresh i (by omega))
  · have hwaits := hwf.waits i
    unfold waiting at hwaits ⊢
    simp only [Pool.spawn]
    by_cases hi : i = p.nextTask
    · subst hi
      rw [hwf.fresh _ (Nat.le_refl _)] at hwaits
      simpa using hwaits
    · rw [AList.lookup_insert_ne hi]
      exact hwaits

theorem quiet_abort (p : Pool) (i : ℕ) : Quiet p (p.abort i) := by
  unfold abort
  split
  next => exact .refl p
  next => exact .refl p
  next task hunfinished hlookup =>
    obtain ⟨phase, aborted⟩ := task
    have hphase : ∀ permit, phase ≠ .finished permit := by
      rintro permit rfl
      exact hunfinished permit aborted rfl
    refine .of_phase hlookup hphase nofun ?_ (fun _ _ => rfl) (fun h => h)
    simp [Task.holdsPermit, hphase]

/-- What `abort` leaves alive has ended. -/
theorem isFinished_of_live_abort (h : (p.abort i).Live i) : (p.abort i).isFinished i = true := by
  obtain ⟨task, hlookup, hlive⟩ := h
  unfold abort at hlookup ⊢
  split at hlookup
  next hnone =>
    rw [hnone] at hlookup
    cases hlookup
  next hfinished =>
    simp only [hfinished, isFinished]
  next =>
    rw [AList.lookup_insert] at hlookup
    cases hlookup
    cases hlive

theorem quiet_detach (p : Pool) (i : ℕ) : Quiet p (p.detach i) := by
  unfold detach
  split
  · exact quiet_dropTask p i
  · exact .refl p

theorem not_live_dropTask (p : Pool) (i : ℕ) : ¬ (p.dropTask i).Live i := by
  rintro ⟨task, hlookup, -⟩
  unfold dropTask at hlookup
  cases hbefore : p.tasks.lookup i with
  | none =>
    simp only [hbefore] at hlookup
    cases hlookup
  | some task' =>
    simp only [hbefore, AList.lookup_erase] at hlookup
    cases hlookup

/-- Once the handle is dropped, the cancelled acquire is aborted or gone. -/
theorem not_live_detach (hfinished : p.Live i → p.isFinished i = true) :
    ¬ (p.detach i).Live i := by
  unfold detach
  split
  next => exact not_live_dropTask p i
  next hrunning => exact fun hlive => hrunning (hfinished hlive)

end Pool

end Harvest.SlotTuner
