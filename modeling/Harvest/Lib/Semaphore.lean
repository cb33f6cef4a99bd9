import Mathlib.Data.List.Count

/-!
# A fair counting semaphore

Permits are free or given out. An acquire that finds no free permit waits in a queue; a released
permit goes to the oldest waiter, and becomes free only when nobody waits. A permit given to a
waiter is kept for it until the waiter claims it or is dropped.

Proved here:
* `permits_release`, `permits_acquire`, `permits_cancel`, `permits_of_claim`,
  `permits_of_tryAcquireMany`: where the permits go.
* `pending_release`, `pending_acquire`, `pending_cancel`, `pending_of_claim`: how many acquires of
  an owner are under way.
-/

namespace Harvest.Lib

/-- Nobody waits while a permit is free. -/
structure Semaphore (ω : Type*) where
  free : ℕ
  queue : List ω
  granted : List ω
  fair : 0 < free → queue = []

namespace Semaphore

variable {ω : Type*}

/-- A semaphore with `n` free permits. -/
def new (n : ℕ) : Semaphore ω := ⟨n, [], [], fun _ => rfl⟩

/-- Drops `n` permits: the oldest waiters get them, the rest becomes free. -/
def release (s : Semaphore ω) (n : ℕ) : Semaphore ω where
  free := s.free + (n - s.queue.length)
  queue := s.queue.drop n
  granted := s.granted ++ s.queue.take n
  fair := by
    intro hfree
    rcases Nat.eq_zero_or_pos s.free with hzero | hpos
    · exact List.drop_eq_nil_of_le (by omega)
    · rw [s.fair hpos, List.drop_nil]

/-- Takes `n` free permits, or none. -/
def tryAcquireMany (s : Semaphore ω) (n : ℕ) : Option (Semaphore ω) :=
  if n ≤ s.free then
    some { s with
      free := s.free - n
      fair := fun h => s.fair (Nat.lt_of_lt_of_le h (Nat.sub_le _ _)) }
  else none

/-- Takes a free permit, or joins the queue. -/
def acquire (s : Semaphore ω) (who : ω) : Semaphore ω :=
  if h : 0 < s.free then
    { s with
      free := s.free - 1
      granted := s.granted ++ [who]
      fair := fun _ => s.fair h }
  else
    { s with
      queue := s.queue ++ [who]
      fair := fun h' => absurd h' h }

/-- The permits that are free or wait for their owner. -/
def permits (s : Semaphore ω) : ℕ := s.free + s.granted.length

@[simp] theorem permits_new (n : ℕ) : (new n : Semaphore ω).permits = n := by simp [permits, new]

@[simp] theorem permits_release (s : Semaphore ω) (n : ℕ) :
    (s.release n).permits = s.permits + n := by
  simp only [permits, release, List.length_append, List.length_take]
  omega

theorem permits_of_tryAcquireMany {s s' : Semaphore ω} {n : ℕ}
    (h : s.tryAcquireMany n = some s') : s'.permits + n = s.permits := by
  unfold tryAcquireMany at h
  split at h
  next hle =>
    cases h
    simp only [permits]
    omega
  next => cases h

@[simp] theorem permits_acquire (s : Semaphore ω) (who : ω) :
    (s.acquire who).permits = s.permits := by
  unfold acquire
  split
  next h =>
    simp only [permits, List.length_append, List.length_singleton]
    omega
  next => rfl

variable [DecidableEq ω]

/-- The owner takes the permit it was given. -/
def claim (s : Semaphore ω) (who : ω) : Option (Semaphore ω) :=
  if who ∈ s.granted then some { s with granted := s.granted.erase who } else none

/-- An acquire is dropped: a permit it was given goes back, otherwise it leaves the queue. -/
def cancel (s : Semaphore ω) (who : ω) : Semaphore ω :=
  match s.claim who with
  | some s' => s'.release 1
  | none =>
    { s with
      queue := s.queue.erase who
      fair := fun h => by rw [s.fair h, List.erase_nil] }

theorem permits_of_claim {s s' : Semaphore ω} {who : ω} (h : s.claim who = some s') :
    s'.permits + 1 = s.permits := by
  unfold claim at h
  split at h
  next hmem =>
    cases h
    have hlen := List.length_erase_of_mem hmem
    have hpos := List.length_pos_of_mem hmem
    simp only [permits]
    omega
  next => cases h

@[simp] theorem permits_cancel (s : Semaphore ω) (who : ω) :
    (s.cancel who).permits = s.permits := by
  unfold cancel
  cases h : s.claim who with
  | some s' => rw [permits_release, permits_of_claim h]
  | none => rfl

/-! ## Acquires under way -/

/-- The acquires of an owner that wait or were given a permit. -/
def pending (s : Semaphore ω) (who : ω) : ℕ := s.queue.count who + s.granted.count who

theorem pending_new (n : ℕ) (who : ω) : (new n : Semaphore ω).pending who = 0 := rfl

@[simp] theorem pending_release (s : Semaphore ω) (n : ℕ) (who : ω) :
    (s.release n).pending who = s.pending who := by
  have hsplit : (s.queue.take n).count who + (s.queue.drop n).count who = s.queue.count who := by
    rw [← List.count_append, List.take_append_drop]
  simp only [pending, release, List.count_append]
  omega

theorem pending_of_tryAcquireMany {s s' : Semaphore ω} {n : ℕ}
    (h : s.tryAcquireMany n = some s') (who : ω) : s'.pending who = s.pending who := by
  unfold tryAcquireMany at h
  split at h
  · cases h
    rfl
  · cases h

theorem pending_acquire (s : Semaphore ω) (a who : ω) :
    (s.acquire a).pending who = s.pending who + if a = who then 1 else 0 := by
  have hone : [a].count who = if a = who then 1 else 0 := by simp [List.count_singleton]
  unfold acquire
  split
  all_goals
    simp only [pending, List.count_append, hone]
    omega

theorem pending_of_claim {s s' : Semaphore ω} {a : ω} (h : s.claim a = some s') (who : ω) :
    s'.pending who = s.pending who - if a = who then 1 else 0 := by
  unfold claim at h
  split at h
  next hmem =>
    cases h
    by_cases heq : a = who
    · subst heq
      have hpos : 0 < s.granted.count a := List.count_pos_iff.mpr hmem
      simp only [pending, List.count_erase_self, if_true]
      omega
    · simp [pending, heq, List.count_erase_of_ne (Ne.symm heq)]
  next => cases h

theorem pending_cancel (s : Semaphore ω) (a who : ω) :
    (s.cancel a).pending who = s.pending who - if a = who then 1 else 0 := by
  unfold cancel
  cases h : s.claim a with
  | some s' => rw [pending_release, pending_of_claim h]
  | none =>
    have hnot : a ∉ s.granted := by
      intro hmem
      simp [claim, hmem] at h
    by_cases heq : a = who
    · subst heq
      simp [pending, List.count_erase_self, List.count_eq_zero_of_not_mem hnot]
    · simp [pending, heq, List.count_erase_of_ne (Ne.symm heq)]

end Semaphore

end Harvest.Lib
