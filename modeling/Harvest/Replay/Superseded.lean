import Harvest.Replay.Opening

/-!
# Redriven histories

What the passes of `HistoryMatcher::new` do to a history that redrives reopened: a part that is
done, then any number of failing cycles, each with its records, its failure, bookkeeping and the
redrive that supersedes it.

Proved here:
* `mem_transparentOf_of_lt`, `mem_transparentOf_of_le`: a redriven history is transparent where its
  done part is, and everywhere after it.
-/

namespace Harvest.Replay
namespace HistoryMatcher

/-! ## The redrive pass -/

section Redrives

variable {events : List WorkflowEvent} {transparent : Finset Nat} {i j k : Nat}

theorem supersededFailure_isFailed (h : supersededFailure events transparent i = some j) :
    (events[j]?).any isWorkflowFailed = true := by
  induction i with
  | zero => cases h
  | succ i ih =>
    rw [supersededFailure] at h
    split_ifs at h with hmem hfailed
    · exact ih h
    · obtain rfl := Option.some.inj h
      exact hfailed

/-- Behind bookkeeping only, the failure is found, unless it is transparent already. -/
theorem supersededFailure_of_anchor (hlt : j < i)
    (hbetween : ∀ l, j < l → l < i → l ∈ transparent)
    (hfailed : (events[j]?).any isWorkflowFailed = true) (hnew : j ∉ transparent) :
    supersededFailure events transparent i = some j := by
  induction i with
  | zero => cases hlt
  | succ i ih =>
    rw [supersededFailure]
    rcases Nat.lt_succ_iff_lt_or_eq.mp hlt with hlt | rfl
    · rw [if_pos (hbetween i hlt (Nat.lt_succ_self i))]
      exact ih hlt fun l hl hli => hbetween l hl (hli.trans (Nat.lt_succ_self i))
    · rw [if_neg hnew, if_pos hfailed]

theorem subset_redriveStep (marked : Finset Nat × Option Nat) (i : Nat) :
    marked.1 ⊆ (redriveStep events marked i).1 := by
  intro l hl
  unfold redriveStep
  split_ifs
  · dsimp only
    split
    · exact Finset.mem_insert_of_mem (Finset.mem_insert_of_mem hl)
    · exact Finset.mem_insert_of_mem hl
  · exact hl

/-- The pass over the first `k` positions. -/
def redrivesTo (events : List WorkflowEvent) (transparent : Finset Nat) (k : Nat) :
    Finset Nat × Option Nat :=
  (List.range k).foldl (redriveStep events) (transparent, none)

theorem redrivesTo_succ (events : List WorkflowEvent) (transparent : Finset Nat) (k : Nat) :
    redrivesTo events transparent (k + 1) =
      redriveStep events (redrivesTo events transparent k) k := by
  rw [redrivesTo, List.range_succ, List.foldl_append]
  rfl

theorem redrivesTo_mono (hle : j ≤ k) :
    (redrivesTo events transparent j).1 ⊆ (redrivesTo events transparent k).1 := by
  induction hle with
  | refl => exact Finset.Subset.refl _
  | step _ ih =>
    rw [redrivesTo_succ]
    exact ih.trans (subset_redriveStep _ _)

theorem subset_redrivesTo (k : Nat) : transparent ⊆ (redrivesTo events transparent k).1 :=
  @redrivesTo_mono events transparent 0 k (Nat.zero_le k)

/-- What the pass marks: redrives and failures. -/
theorem mem_redrivesTo (h : i ∈ (redrivesTo events transparent k).1) :
    i ∈ transparent ∨ (events[i]?).any isRedriveLifecycleEvent = true ∨
      (events[i]?).any isWorkflowFailed = true := by
  induction k with
  | zero => exact .inl h
  | succ k ih =>
    rw [redrivesTo_succ, redriveStep] at h
    split_ifs at h with hredrive
    · have hinsert (h : i ∈ insert k (redrivesTo events transparent k).1) :
          i ∈ transparent ∨ (events[i]?).any isRedriveLifecycleEvent = true ∨
            (events[i]?).any isWorkflowFailed = true := by
        rcases Finset.mem_insert.mp h with rfl | h
        · exact .inr (.inl hredrive)
        · exact ih h
      dsimp only at h
      split at h
      case h_1 failure hfailure =>
        rcases Finset.mem_insert.mp h with rfl | h
        · exact .inr (.inr (supersededFailure_isFailed hfailure))
        · exact hinsert h
      case h_2 => exact hinsert h
    · exact ih h

/-- A redrive is marked, and is the last one when the pass gets to it. -/
theorem redrivesTo_redrive (hredrive : (events[k]?).any isRedriveLifecycleEvent = true) :
    k ∈ (redrivesTo events transparent (k + 1)).1 ∧
      (redrivesTo events transparent (k + 1)).2 = some k := by
  rw [redrivesTo_succ, redriveStep, if_pos hredrive]
  dsimp only
  split
  · exact ⟨Finset.mem_insert_of_mem (Finset.mem_insert_self _ _), rfl⟩
  · exact ⟨Finset.mem_insert_self _ _, rfl⟩

/-- A failure behind a redrive, with nothing but bookkeeping between them, is marked. -/
theorem redrivesTo_failure (hfailed : (events[j]?).any isWorkflowFailed = true) (hlt : j < k)
    (hbetween : ∀ l, j < l → l < k → l ∈ transparent)
    (hredrive : (events[k]?).any isRedriveLifecycleEvent = true) :
    j ∈ (redrivesTo events transparent (k + 1)).1 := by
  by_cases hmem : j ∈ (redrivesTo events transparent k).1
  · exact redrivesTo_mono (Nat.le_succ k) hmem
  · have hnew : j ∉ insert k (redrivesTo events transparent k).1 := by
      intro h
      rcases Finset.mem_insert.mp h with rfl | h
      · exact Nat.lt_irrefl _ hlt
      · exact hmem h
    rw [redrivesTo_succ, redriveStep, if_pos hredrive]
    dsimp only
    rw [supersededFailure_of_anchor hlt (fun l hl hlk =>
      Finset.mem_insert_of_mem (subset_redrivesTo k (hbetween l hl hlk))) hfailed hnew]
    exact Finset.mem_insert_self _ _

end Redrives

/-! ## Abandoned dispatches -/

/-- The failure that the engine writes for an activity that a failing cycle abandoned. -/
def abandonedActivity (id : ActivityExecId) : WorkflowEvent :=
  .activityFailed id abandonedDispatchReason 1 "Error" true none

/-- The failure that the engine writes for a child that a failing cycle abandoned. -/
def abandonedChild (id : ExecutionId) : WorkflowEvent :=
  .childWorkflowFailed id abandonedDispatchReason none none (some true)

@[simp] theorem abandonedActivity_inj {a b : ActivityExecId} :
    abandonedActivity a = abandonedActivity b ↔ a = b := by
  simp [abandonedActivity]

@[simp] theorem abandonedChild_inj {a b : ExecutionId} :
    abandonedChild a = abandonedChild b ↔ a = b := by
  simp [abandonedChild]

/-- The activity that ran, when the event says so. -/
def progressOf : WorkflowEvent → Option ActivityExecId
  | .activityStarted id _ | .activityHeartbeat id _ => some id
  | _ => none

/-- What one event does to the scan. -/
theorem abandonedStep_cases (scan : AbandonedScan) (event : WorkflowEvent) (i : Nat) :
    (∃ id, progressOf event = some id ∧ abandonedStep scan (event, i) =
      { scan with startedActivities := id :: scan.startedActivities }) ∨
    (∃ id, event = abandonedActivity id ∧ id ∉ scan.startedActivities ∧
      abandonedStep scan (event, i) = { scan with
        abandonedActivities := id :: scan.abandonedActivities
        indices := scan.indices ++ [i] }) ∨
    (∃ id, event = abandonedChild id ∧ abandonedStep scan (event, i) = { scan with
      abandonedChildren := id :: scan.abandonedChildren
      indices := scan.indices ++ [i] }) ∨
    (abandonedStep scan (event, i) = scan ∧ progressOf event = none ∧
      (∀ id, event = abandonedActivity id → id ∈ scan.startedActivities) ∧
      ∀ id, event ≠ abandonedChild id) := by
  cases event with
  | activityStarted id _ => exact .inl ⟨id, rfl, rfl⟩
  | activityHeartbeat id _ => exact .inl ⟨id, rfl, rfl⟩
  | activityFailed id error attempt errorType nonRetryable details =>
    refine .inr ?_
    rw [abandonedStep]
    split_ifs with h
    · obtain ⟨rfl, hnon, rfl, rfl, rfl, hnew⟩ := h
      obtain rfl : nonRetryable = true := hnon
      exact .inl ⟨id, rfl, hnew, rfl⟩
    · refine .inr (.inr ⟨rfl, rfl, fun other heq => ?_, nofun⟩)
      cases heq
      by_contra hnew
      exact h ⟨rfl, rfl, rfl, rfl, rfl, hnew⟩
  | childWorkflowFailed id error errorType details nonRetryable =>
    refine .inr (.inr ?_)
    rw [abandonedStep]
    split_ifs with h
    · obtain ⟨rfl, rfl, rfl, rfl⟩ := h
      exact .inl ⟨id, rfl, rfl⟩
    · refine .inr ⟨rfl, rfl, nofun, fun other heq => ?_⟩
      cases heq
      exact h ⟨rfl, rfl, rfl, rfl⟩
  | _ => exact .inr (.inr (.inr ⟨rfl, rfl, nofun, nofun⟩))

/-- The event at `i` fails an activity that the engine abandoned before it ran. -/
def AbandonedAt (events : List WorkflowEvent) (i : Nat) (id : ActivityExecId) : Prop :=
  events[i]? = some (abandonedActivity id) ∧
    ∀ earlier ∈ events.take i, progressOf earlier ≠ some id

/-- What a scan of the events has found. -/
structure ScannedAbandoned (events : List WorkflowEvent) (scan : AbandonedScan) : Prop where
  started : ∀ id, id ∈ scan.startedActivities ↔ ∃ event ∈ events, progressOf event = some id
  activities : ∀ id, id ∈ scan.abandonedActivities ↔ ∃ i, AbandonedAt events i id
  children : ∀ id, id ∈ scan.abandonedChildren ↔ ∃ i : Nat, events[i]? = some (abandonedChild id)
  indices : ∀ i, i ∈ scan.indices ↔
    (∃ id, AbandonedAt events i id) ∨ ∃ id, events[i]? = some (abandonedChild id)

section Snoc

variable {events : List WorkflowEvent} {event found : WorkflowEvent} {i : Nat}

theorem getElem?_snoc : (events ++ [event])[i]? = some found ↔
    events[i]? = some found ∨ (i = events.length ∧ event = found) := by
  rcases Nat.lt_trichotomy i events.length with hlt | rfl | hlt
  · rw [List.getElem?_append_left hlt]
    exact (or_iff_left fun h => absurd h.1 (Nat.ne_of_lt hlt)).symm
  · rw [List.getElem?_concat_length, List.getElem?_eq_none (Nat.le_refl _)]
    simp
  · rw [List.getElem?_eq_none (by simp; omega), List.getElem?_eq_none (by omega)]
    simp only [reduceCtorEq, false_or, false_iff, not_and]
    omega

theorem abandonedAt_snoc {id : ActivityExecId} : AbandonedAt (events ++ [event]) i id ↔
    AbandonedAt events i id ∨ (i = events.length ∧ event = abandonedActivity id ∧
      ∀ earlier ∈ events, progressOf earlier ≠ some id) := by
  unfold AbandonedAt
  rw [getElem?_snoc]
  constructor
  · rintro ⟨hat | ⟨rfl, heq⟩, hnew⟩
    · rw [List.take_append_of_le_length (List.getElem?_eq_some_iff.mp hat).1.le] at hnew
      exact .inl ⟨hat, hnew⟩
    · rw [List.take_left' rfl] at hnew
      exact .inr ⟨rfl, heq, hnew⟩
  · rintro (⟨hat, hnew⟩ | ⟨rfl, heq, hnew⟩)
    · rw [List.take_append_of_le_length (List.getElem?_eq_some_iff.mp hat).1.le]
      exact ⟨.inl hat, hnew⟩
    · rw [List.take_left' rfl]
      exact ⟨.inr ⟨rfl, heq⟩, hnew⟩

theorem exists_progress_snoc {id : ActivityExecId} :
    (∃ found ∈ events ++ [event], progressOf found = some id) ↔
      (∃ found ∈ events, progressOf found = some id) ∨ progressOf event = some id := by
  simp only [List.mem_append, List.mem_singleton, or_and_right, exists_or, exists_eq_left]

theorem abandonedScan_snoc (events : List WorkflowEvent) (event : WorkflowEvent) :
    abandonedScan (events ++ [event]) =
      abandonedStep (abandonedScan events) (event, events.length) := by
  rw [abandonedScan, List.zipIdx_append, List.foldl_append, Nat.zero_add]
  rfl


/-- One more event. -/
theorem ScannedAbandoned.snoc {scan : AbandonedScan} (h : ScannedAbandoned events scan)
    (event : WorkflowEvent) :
    ScannedAbandoned (events ++ [event]) (abandonedStep scan (event, events.length)) := by
  have hnew (id : ActivityExecId) : (∀ earlier ∈ events, progressOf earlier ≠ some id) ↔
      id ∉ scan.startedActivities := by
    rw [h.started]
    simp
  have hactivity (id : ActivityExecId) : (∃ i, AbandonedAt (events ++ [event]) i id) ↔
      id ∈ scan.abandonedActivities ∨ (event = abandonedActivity id ∧ id ∉ scan.startedActivities) := by
    simp only [abandonedAt_snoc, exists_or, exists_eq_left, h.activities, hnew]
  have hchild (id : ExecutionId) : (∃ i : Nat, (events ++ [event])[i]? = some (abandonedChild id)) ↔
      id ∈ scan.abandonedChildren ∨ event = abandonedChild id := by
    simp only [getElem?_snoc, exists_or, exists_eq_left, h.children]
  have hindex (i : Nat) : ((∃ id, AbandonedAt (events ++ [event]) i id) ∨
      ∃ id, (events ++ [event])[i]? = some (abandonedChild id)) ↔
      i ∈ scan.indices ∨ (i = events.length ∧
        ((∃ id, event = abandonedActivity id ∧ id ∉ scan.startedActivities) ∨
          ∃ id, event = abandonedChild id)) := by
    simp only [abandonedAt_snoc, getElem?_snoc, exists_or, exists_and_left, h.indices, hnew,
      and_or_left]
    exact or_or_or_comm
  have hstarted (id : ActivityExecId) : (∃ found ∈ events ++ [event], progressOf found = some id) ↔
      id ∈ scan.startedActivities ∨ progressOf event = some id := by
    rw [exists_progress_snoc, h.started]
  rcases abandonedStep_cases scan event events.length with
    ⟨own, hown, hstep⟩ | ⟨own, rfl, hnot, hstep⟩ | ⟨own, rfl, hstep⟩ | ⟨hstep, hnone, hran, hother⟩
  · -- the event says that an activity ran
    have hactivity' (id : ActivityExecId) : event ≠ abandonedActivity id := by
      rintro rfl
      cases hown
    have hchild' (id : ExecutionId) : event ≠ abandonedChild id := by
      rintro rfl
      cases hown
    rw [hstep]
    refine ⟨fun id => ?_, fun id => ?_, fun id => ?_, fun i => ?_⟩
    · rw [hstarted, hown, List.mem_cons, Option.some.injEq, or_comm, eq_comm]
    · simp [hactivity, hactivity']
    · simp [hchild, hchild']
    · simp [hindex, hactivity', hchild']
  · -- the failure of an abandoned activity
    rw [hstep]
    refine ⟨fun id => ?_, fun id => ?_, fun id => ?_, fun i => ?_⟩
    · rw [hstarted]
      exact (or_iff_left nofun).symm
    · rw [hactivity, List.mem_cons, or_comm, abandonedActivity_inj]
      refine or_congr_right ⟨?_, fun heq => heq.1.symm⟩
      rintro rfl
      exact ⟨rfl, hnot⟩
    · rw [hchild]
      exact (or_iff_left nofun).symm
    · rw [hindex, List.mem_append, List.mem_singleton]
      exact or_congr_right ⟨fun heq => ⟨heq, .inl ⟨own, rfl, hnot⟩⟩, And.left⟩
  · -- the failure of an abandoned child
    rw [hstep]
    refine ⟨fun id => ?_, fun id => ?_, fun id => ?_, fun i => ?_⟩
    · rw [hstarted]
      exact (or_iff_left nofun).symm
    · rw [hactivity]
      exact (or_iff_left fun heq => nomatch heq.1).symm
    · rw [hchild, List.mem_cons, or_comm, abandonedChild_inj, eq_comm]
    · rw [hindex, List.mem_append, List.mem_singleton]
      exact or_congr_right ⟨fun heq => ⟨heq, .inr ⟨own, rfl⟩⟩, And.left⟩
  · -- any other event
    rw [hstep]
    refine ⟨fun id => ?_, fun id => ?_, fun id => ?_, fun i => ?_⟩
    · rw [hstarted, hnone]
      exact (or_iff_left nofun).symm
    · rw [hactivity]
      exact (or_iff_left fun heq => heq.2 (hran id heq.1)).symm
    · rw [hchild]
      exact (or_iff_left (hother id)).symm
    · rw [hindex]
      refine (or_iff_left ?_).symm
      rintro ⟨-, ⟨id, heq, hid⟩ | ⟨id, heq⟩⟩
      · exact hid (hran id heq)
      · exact hother id heq

end Snoc

theorem abandonedScan_spec (events : List WorkflowEvent) :
    ScannedAbandoned events (abandonedScan events) := by
  induction events using List.reverseRecOn with
  | nil =>
    refine ⟨fun _ => ⟨nofun, nofun⟩, fun _ => ⟨nofun, ?_⟩, fun _ => ⟨nofun, nofun⟩, fun _ => ⟨nofun, ?_⟩⟩
    · rintro ⟨i, hat, -⟩
      cases hat
    · rintro (⟨id, hat, -⟩ | ⟨id, hat⟩)
      · cases hat
      · cases hat
  | append_singleton events event ih =>
    rw [abandonedScan_snoc]
    exact ih.snoc event

/-- The event starts a dispatch that the engine abandoned. -/
def StartsAbandoned (events : List WorkflowEvent) : WorkflowEvent → Prop
  | .activityScheduled id .. => ∃ i, AbandonedAt events i id
  | .childWorkflowStarted id .. => abandonedChild id ∈ events
  | _ => False

theorem startsAbandoned_iff {events : List WorkflowEvent} {scan : AbandonedScan}
    (h : ScannedAbandoned events scan) (event : WorkflowEvent) :
    startsAbandoned scan event = true ↔ StartsAbandoned events event := by
  cases event with
  | activityScheduled id _ _ _ => exact decide_eq_true_iff.trans (h.activities id)
  | childWorkflowStarted id _ _ =>
    exact decide_eq_true_iff.trans ((h.children id).trans List.mem_iff_getElem?.symm)
  | _ => exact ⟨nofun, nofun⟩

/-- **The records of abandoned dispatches** are the failures that the engine wrote and the starts of
what they fail. -/
theorem mem_abandonedDispatchIndices {events : List WorkflowEvent} {i : Nat} :
    i ∈ abandonedDispatchIndices events ↔
      (∃ id, AbandonedAt events i id) ∨ (∃ id, events[i]? = some (abandonedChild id)) ∨
        ∃ event, events[i]? = some event ∧ StartsAbandoned events event := by
  have h := abandonedScan_spec events
  unfold abandonedDispatchIndices
  dsimp only
  split_ifs with hnone
  · -- no failure was found, so nothing starts an abandoned dispatch
    have hempty (j : Nat) : ¬ ((∃ id, AbandonedAt events j id) ∨
        ∃ id, events[j]? = some (abandonedChild id)) := by
      rw [← h.indices, hnone]
      exact List.not_mem_nil
    refine ⟨fun hmem => absurd hmem List.not_mem_nil, ?_⟩
    rintro (hactivity | hchild | ⟨event, hevent, hstart⟩)
    · exact absurd (.inl hactivity) (hempty i)
    · exact absurd (.inr hchild) (hempty i)
    · cases event with
      | activityScheduled id _ _ _ =>
        obtain ⟨j, hj⟩ := hstart
        exact absurd (.inl ⟨id, hj⟩) (hempty j)
      | childWorkflowStarted id _ _ =>
        obtain ⟨j, hj⟩ := List.mem_iff_getElem?.mp hstart
        exact absurd (.inr ⟨id, hj⟩) (hempty j)
      | _ => cases hstart
  · rw [List.mem_append, h.indices, or_assoc]
    simp only [List.mem_map, List.mem_filter, Prod.exists, exists_eq_right,
      List.mem_zipIdx_iff_getElem?, startsAbandoned_iff h]

/-! ## The tail of a superseded cycle -/

section Tail

variable {events : List WorkflowEvent} {transparent : Finset Nat} {start n j : Nat}

/-- The walk back marks what is not transparent yet, as long as that is a record. -/
theorem mem_supersededCycleTail
    (hrecords : ∀ j, start ≤ j → j < n → j ∈ transparent ∨
      (events[j]?).any isPreTerminalRecord = true)
    (hle : start ≤ j) (hlt : j < n) (hnew : j ∉ transparent) :
    j ∈ supersededCycleTail events transparent n := by
  induction n with
  | zero => cases hlt
  | succ n ih =>
    have hearlier : ∀ j, start ≤ j → j < n → j ∈ transparent ∨
        (events[j]?).any isPreTerminalRecord = true := fun j hle hlt => hrecords j hle (by omega)
    rw [supersededCycleTail]
    rcases Nat.lt_succ_iff_lt_or_eq.mp hlt with hlt | rfl
    · split_ifs with hmem hrecord
      · exact ih hearlier hlt
      · exact List.mem_cons_of_mem _ (ih hearlier hlt)
      · exact absurd ((hrecords n (by omega) (Nat.lt_succ_self n)).resolve_left hmem) hrecord
    · rw [if_neg hnew, if_pos ((hrecords j hle hlt).resolve_left hnew)]
      exact List.mem_cons_self

/-- The walk back ends at an event that is neither transparent nor a record. -/
theorem le_of_mem_supersededCycleTail (hstop : ∀ last, start = last + 1 →
      last ∉ transparent ∧ (events[last]?).any isPreTerminalRecord = false)
    (hle : start ≤ n) (h : j ∈ supersededCycleTail events transparent n) : start ≤ j := by
  induction n with
  | zero => cases h
  | succ n ih =>
    rcases Nat.lt_or_eq_of_le hle with hlt | rfl
    · rw [supersededCycleTail] at h
      split_ifs at h
      · exact ih (by omega) h
      · rcases List.mem_cons.mp h with rfl | h
        · omega
        · exact ih (by omega) h
      · cases h
    · obtain ⟨hnew, hrecord⟩ := hstop n rfl
      rw [supersededCycleTail, if_neg hnew, hrecord] at h
      cases h

end Tail

/-! ## Releases -/

theorem releaseStep_snd (state : List ActivityExecId × List Nat) (entry : WorkflowEvent × Nat) :
    (releaseStep state entry).2 = state.2 ∨ (releaseStep state entry).2 = state.2 ++ [entry.2] := by
  unfold releaseStep
  split
  · split_ifs
    · exact .inr rfl
    · exact .inl rfl
  · split_ifs
    · exact .inr rfl
    · exact .inl rfl

/-- The releases in a part of the history do not depend on what follows it. -/
theorem mem_dropReleaseIndices_append {done tail : List WorkflowEvent} {i : Nat}
    (hlt : i < done.length) :
    i ∈ dropReleaseIndices (done ++ tail) ↔ i ∈ dropReleaseIndices done := by
  have hlater (entries : List (WorkflowEvent × Nat)) (state : List ActivityExecId × List Nat)
      (hentries : ∀ entry ∈ entries, done.length ≤ entry.2) :
      i ∈ (entries.foldl releaseStep state).2 ↔ i ∈ state.2 := by
    induction entries generalizing state with
    | nil => exact Iff.rfl
    | cons entry entries ih =>
      rw [List.foldl_cons, ih _ fun entry hentry => hentries entry (List.mem_cons_of_mem _ hentry)]
      have hne : i ≠ entry.2 := by
        have := hentries entry List.mem_cons_self
        omega
      rcases releaseStep_snd state entry with heq | heq
      · rw [heq]
      · rw [heq, List.mem_append, List.mem_singleton]
        exact or_iff_left hne
  rw [dropReleaseIndices, List.zipIdx_append, List.foldl_append]
  refine hlater _ _ fun entry hentry => ?_
  have := (List.mem_zipIdx hentry).1
  omega

/-! ## Failing cycles -/

/-- The activity that the event is about. -/
def activityOf : WorkflowEvent → Option ActivityExecId
  | .activityScheduled id .. => some id
  | event => releaseMember event

/-- The id of a dispatch that a later cycle made. -/
def Fresh (done : List WorkflowEvent) (id : ActivityExecId) : Prop :=
  ∀ event ∈ done, activityOf event ≠ some id

/-- What a failing cycle writes before its failure: markers, side effects, detached spawns, timer
arms and cancels, bookkeeping, and abandoned dispatches with the failures that the engine writes. -/
inductive CycleRecord (done records : List WorkflowEvent) : WorkflowEvent → Prop
  | preTerminal {event : WorkflowEvent} (h : isPreTerminalRecord event) :
      CycleRecord done records event
  | bookkeeping {event : WorkflowEvent} (h : isCommandFreeBookkeeping event) :
      CycleRecord done records event
  | activity (id : ActivityExecId) (name : String) (input : Json) (queue : String)
      (hfailed : abandonedActivity id ∈ records) :
      CycleRecord done records (.activityScheduled id name input queue)
  | activityFailed (id : ActivityExecId) (hfresh : Fresh done id) :
      CycleRecord done records (abandonedActivity id)
  | child (id : ExecutionId) (name : String) (input : Json) (hfailed : abandonedChild id ∈ records) :
      CycleRecord done records (.childWorkflowStarted id name input)
  | childFailed (id : ExecutionId) : CycleRecord done records (abandonedChild id)

/-- A cycle that failed after the done part and was redriven. -/
structure FailingCycle (done : List WorkflowEvent) where
  records : List WorkflowEvent
  failure : WorkflowEvent
  bookkeeping : List WorkflowEvent
  redrive : WorkflowEvent
  isRecord : ∀ event ∈ records, CycleRecord done records event
  isFailure : isWorkflowFailed failure
  isBookkeeping : ∀ event ∈ bookkeeping, isCommandFreeBookkeeping event
  isRedrive : isRedriveLifecycleEvent redrive

namespace FailingCycle

variable {done : List WorkflowEvent}

def events (cycle : FailingCycle done) : List WorkflowEvent :=
  cycle.records ++ cycle.failure :: (cycle.bookkeeping ++ [cycle.redrive])

end FailingCycle

/-- The done part, and the failing cycles after it. -/
def redrivenHistory (done : List WorkflowEvent) (cycles : List (FailingCycle done)) :
    List WorkflowEvent :=
  done ++ cycles.flatMap FailingCycle.events

/-! ### The events of a cycle -/

theorem isWorkflowFailed_spec {event : WorkflowEvent} (h : isWorkflowFailed event = true) :
    isCommandFreeBookkeeping event = false ∧ progressOf event = none := by
  cases event with
  | workflowFailed => exact ⟨rfl, rfl⟩
  | _ => cases h

theorem isRedrive_spec {event : WorkflowEvent} (h : isRedriveLifecycleEvent event = true) :
    isCommandFreeBookkeeping event = false ∧ isWorkflowFailed event = false ∧
      progressOf event = none := by
  cases event with
  | workflowRedriven => exact ⟨rfl, rfl, rfl⟩
  | _ => cases h

theorem progressOf_of_bookkeeping {event : WorkflowEvent}
    (h : isCommandFreeBookkeeping event = true) : progressOf event = none := by
  cases event <;> first | rfl | cases h

theorem progressOf_of_preTerminal {event : WorkflowEvent} (h : isPreTerminalRecord event = true) :
    progressOf event = none := by
  cases event <;> first | rfl | cases h

theorem CycleRecord.progressOf_eq_none {done records : List WorkflowEvent} {event : WorkflowEvent}
    (h : CycleRecord done records event) : progressOf event = none := by
  cases h with
  | preTerminal h => exact progressOf_of_preTerminal h
  | bookkeeping h => exact progressOf_of_bookkeeping h
  | _ => rfl

theorem CycleRecord.fresh {done records : List WorkflowEvent} {id : ActivityExecId}
    (h : CycleRecord done records (abandonedActivity id)) : Fresh done id := by
  generalize heq : abandonedActivity id = event at h
  cases h with
  | preTerminal h =>
    subst heq
    cases h
  | bookkeeping h =>
    subst heq
    cases h
  | activityFailed other hfresh =>
    obtain rfl := abandonedActivity_inj.mp heq
    exact hfresh
  | _ => cases heq

section Positions

variable {done : List WorkflowEvent} {cycles front later : List (FailingCycle done)}
  {cycle : FailingCycle done} {event : WorkflowEvent} {j k : Nat}

theorem FailingCycle.progressOf_eq_none (h : event ∈ cycle.events) : progressOf event = none := by
  simp only [FailingCycle.events, List.mem_append, List.mem_cons, List.not_mem_nil, or_false] at h
  rcases h with hrecord | rfl | hbook | rfl
  · exact (cycle.isRecord event hrecord).progressOf_eq_none
  · exact (isWorkflowFailed_spec cycle.isFailure).2
  · exact progressOf_of_bookkeeping (cycle.isBookkeeping event hbook)
  · exact (isRedrive_spec cycle.isRedrive).2.2

theorem redrivenHistory_append (front later : List (FailingCycle done)) :
    redrivenHistory done (front ++ later) =
      redrivenHistory done front ++ later.flatMap FailingCycle.events := by
  rw [redrivenHistory, List.flatMap_append, ← List.append_assoc]
  rfl

/-- A position after the done part is in one of the cycles. -/
theorem exists_cycle (hle : done.length ≤ j) (hlt : j < (redrivenHistory done cycles).length) :
    ∃ front cycle later k, cycles = front ++ cycle :: later ∧ k < cycle.events.length ∧
      j = (redrivenHistory done front).length + k := by
  induction cycles using List.reverseRecOn with
  | nil =>
    rw [redrivenHistory, List.flatMap_nil, List.append_nil] at hlt
    omega
  | append_singleton cycles cycle ih =>
    by_cases hbefore : j < (redrivenHistory done cycles).length
    · obtain ⟨front, found, later, k, rfl, hk, hj⟩ := ih hbefore
      exact ⟨front, found, later ++ [cycle], k, by simp, hk, hj⟩
    · rw [redrivenHistory_append, List.length_append, List.flatMap_singleton] at hlt
      exact ⟨cycles, cycle, [], j - (redrivenHistory done cycles).length, rfl, by omega, by omega⟩

/-- What the history holds at a position of a cycle. -/
theorem getElem?_cycle (hk : k < cycle.events.length) :
    (redrivenHistory done (front ++ cycle :: later))[(redrivenHistory done front).length + k]? =
      cycle.events[k]? := by
  rw [redrivenHistory_append, List.getElem?_append_right (Nat.le_add_right _ _),
    Nat.add_sub_cancel_left, List.flatMap_cons, List.getElem?_append_left hk]

theorem length_cycle_le :
    (redrivenHistory done front).length + cycle.events.length ≤
      (redrivenHistory done (front ++ cycle :: later)).length := by
  rw [redrivenHistory_append, List.length_append, List.flatMap_cons, List.length_append]
  omega

theorem FailingCycle.length_events (cycle : FailingCycle done) :
    cycle.events.length = cycle.records.length + 1 + cycle.bookkeeping.length + 1 := by
  simp only [events, List.length_append, List.length_cons, List.length_nil]
  omega

theorem FailingCycle.getElem?_record (h : k < cycle.records.length) :
    cycle.events[k]? = cycle.records[k]? := List.getElem?_append_left h

theorem FailingCycle.getElem?_failure (cycle : FailingCycle done) :
    cycle.events[cycle.records.length]? = some cycle.failure := by
  rw [events, List.getElem?_append_right (Nat.le_refl _), Nat.sub_self, List.getElem?_cons_zero]

theorem FailingCycle.getElem?_bookkeeping (h : k < cycle.bookkeeping.length) :
    cycle.events[cycle.records.length + 1 + k]? = cycle.bookkeeping[k]? := by
  rw [events, List.getElem?_append_right (by omega),
    show cycle.records.length + 1 + k - cycle.records.length = k + 1 by omega,
    List.getElem?_cons_succ, List.getElem?_append_left h]

theorem FailingCycle.getElem?_redrive (cycle : FailingCycle done) :
    cycle.events[cycle.records.length + 1 + cycle.bookkeeping.length]? = some cycle.redrive := by
  rw [events, List.getElem?_append_right (by omega),
    show cycle.records.length + 1 + cycle.bookkeeping.length - cycle.records.length =
      cycle.bookkeeping.length + 1 by omega,
    List.getElem?_cons_succ, List.getElem?_append_right (Nat.le_refl _), Nat.sub_self,
    List.getElem?_cons_zero]

end Positions

/-! ### What is transparent -/

section Redriven

variable {done : List WorkflowEvent} {cycles front later : List (FailingCycle done)}
  {cycle : FailingCycle done} {event : WorkflowEvent} {i j k : Nat}

/-- What the passes over bookkeeping and redrives mark. -/
def markedByRedrives (events : List WorkflowEvent) : Finset Nat :=
  (redrivePass events (indicesWhere events isCommandFreeBookkeeping)).1

theorem mem_indicesWhere {events : List WorkflowEvent} {p : WorkflowEvent → Bool}
    (hevent : events[i]? = some event) (h : p event = true) : i ∈ indicesWhere events p := by
  refine Finset.mem_filter.mpr ⟨?_, by rw [hevent]; exact h⟩
  exact Finset.mem_range.mpr (List.getElem?_eq_some_iff.mp hevent).1

theorem bookkeeping_marked {events : List WorkflowEvent} (hevent : events[i]? = some event)
    (h : isCommandFreeBookkeeping event = true) : i ∈ markedByRedrives events :=
  subset_redrivesTo _ (mem_indicesWhere hevent h)

theorem redrive_marked {events : List WorkflowEvent} (hevent : events[i]? = some event)
    (h : isRedriveLifecycleEvent event = true) : i ∈ markedByRedrives events := by
  have hlt : i < events.length := (List.getElem?_eq_some_iff.mp hevent).1
  exact redrivesTo_mono hlt (redrivesTo_redrive (by rw [hevent]; exact h)).1

/-- After the done part, the passes mark everything but the records of the cycles. -/
theorem marked_or_record (hle : done.length ≤ j) (hlt : j < (redrivenHistory done cycles).length) :
    j ∈ markedByRedrives (redrivenHistory done cycles) ∨
      ∃ front cycle later k, cycles = front ++ cycle :: later ∧ k < cycle.records.length ∧
        j = (redrivenHistory done front).length + k := by
  obtain ⟨front, cycle, later, k, rfl, hk, rfl⟩ := exists_cycle hle hlt
  have hat (k : Nat) (hk : k < cycle.events.length) :=
    @getElem?_cycle done front later cycle k hk
  have hlen := cycle.length_events
  have hend := @length_cycle_le done front later cycle
  rcases Nat.lt_trichotomy k cycle.records.length with hrecord | hfailure | hafter
  · exact .inr ⟨front, cycle, later, k, rfl, hrecord, rfl⟩
  · -- the failure is marked by the redrive of its cycle
    left
    subst hfailure
    have hredrive := (hat _ (by omega)).trans cycle.getElem?_redrive
    refine redrivesTo_mono (by omega) (redrivesTo_failure ?_
      (show _ < (redrivenHistory done front).length +
        (cycle.records.length + 1 + cycle.bookkeeping.length) by omega) ?_ ?_)
    · rw [(hat _ hk).trans cycle.getElem?_failure]
      exact cycle.isFailure
    · intro l hl hbefore
      obtain ⟨t, rfl⟩ : ∃ t, l =
          (redrivenHistory done front).length + (cycle.records.length + 1 + t) :=
        ⟨l - ((redrivenHistory done front).length + (cycle.records.length + 1)), by omega⟩
      have ht : t < cycle.bookkeeping.length := by omega
      have hbook := (hat _ (by omega)).trans (FailingCycle.getElem?_bookkeeping ht)
      rw [List.getElem?_eq_getElem ht] at hbook
      exact mem_indicesWhere hbook (cycle.isBookkeeping _ (List.getElem_mem ht))
    · rw [hredrive]
      exact cycle.isRedrive
  · left
    obtain ⟨t, rfl⟩ : ∃ t, k = cycle.records.length + 1 + t :=
      ⟨k - (cycle.records.length + 1), by omega⟩
    rcases Nat.lt_or_ge t cycle.bookkeeping.length with ht | ht
    · have hbook := (hat _ hk).trans (FailingCycle.getElem?_bookkeeping ht)
      rw [List.getElem?_eq_getElem ht] at hbook
      exact bookkeeping_marked hbook (cycle.isBookkeeping _ (List.getElem_mem ht))
    · obtain rfl : t = cycle.bookkeeping.length := by omega
      exact redrive_marked ((hat _ hk).trans cycle.getElem?_redrive) cycle.isRedrive

/-- The last redrive ends the history. -/
theorem lastRedrive (front : List (FailingCycle done)) (cycle : FailingCycle done) :
    ∃ last, (redrivenHistory done (front ++ [cycle])).length = last + 1 ∧
      (redrivenHistory done (front ++ [cycle]))[last]? = some cycle.redrive ∧
      (redrivePass (redrivenHistory done (front ++ [cycle]))
        (indicesWhere (redrivenHistory done (front ++ [cycle])) isCommandFreeBookkeeping)).2 =
        some last := by
  have hlen := cycle.length_events
  have htotal : (redrivenHistory done (front ++ [cycle])).length =
      (redrivenHistory done front).length +
        (cycle.records.length + 1 + cycle.bookkeeping.length) + 1 := by
    rw [redrivenHistory_append, List.length_append, List.flatMap_singleton]
    omega
  have hredrive := (@getElem?_cycle done front [] cycle _ (by omega)).trans cycle.getElem?_redrive
  refine ⟨_, htotal, hredrive, ?_⟩
  rw [redrivePass, htotal]
  exact (redrivesTo_redrive (by rw [hredrive]; exact cycle.isRedrive)).2

theorem terminalFailureTail_redriven (front : List (FailingCycle done)) (cycle : FailingCycle done) :
    terminalFailureTailStart (redrivenHistory done (front ++ [cycle])) = none := by
  obtain ⟨last, hlen, hredrive, -⟩ := lastRedrive front cycle
  obtain ⟨hbook, hfailed, -⟩ := isRedrive_spec cycle.isRedrive
  rw [terminalFailureTailStart, hlen, failureTailFrom, hredrive]
  simp [hbook, hfailed]

/-- The failure of an abandoned activity, before the last redrive. -/
theorem abandonedAt_redriven {last : Nat} {id : ActivityExecId}
    (hevent : (redrivenHistory done cycles)[i]? = some (abandonedActivity id)) (hlt : i < last)
    (hfresh : Fresh done id) : AbandonedAt ((redrivenHistory done cycles).take last) i id := by
  refine ⟨by rw [List.getElem?_take, if_pos hlt, hevent], fun earlier hearlier hprogress => ?_⟩
  have hmem := List.mem_of_mem_take (List.mem_of_mem_take hearlier)
  rcases List.mem_append.mp hmem with hdone | hcycle
  · refine hfresh earlier hdone ?_
    cases earlier <;> first | exact hprogress | cases hprogress
  · obtain ⟨cycle, -, hcycle⟩ := List.mem_flatMap.mp hcycle
    rw [FailingCycle.progressOf_eq_none hcycle] at hprogress
    cases hprogress

/-- **A record of a failing cycle** is bookkeeping, a record of the tail, or of an abandoned
dispatch. -/
theorem record_cases {last : Nat} (hcycles : cycles = front ++ cycle :: later)
    (hlast : (redrivenHistory done cycles).length = last + 1) (hk : k < cycle.records.length) :
    let j := (redrivenHistory done front).length + k
    j ∈ markedByRedrives (redrivenHistory done cycles) ∨
      ((redrivenHistory done cycles)[j]?).any isPreTerminalRecord = true ∨
      j ∈ abandonedDispatchIndices ((redrivenHistory done cycles).take last) := by
  subst hcycles
  have hlen := cycle.length_events
  have hend := @length_cycle_le done front later cycle
  have hat (k : Nat) (hk : k < cycle.records.length) :
      (redrivenHistory done (front ++ cycle :: later))[(redrivenHistory done front).length + k]? =
        cycle.records[k]? :=
    (getElem?_cycle (by omega)).trans (FailingCycle.getElem?_record hk)
  have hbefore (k : Nat) (hk : k < cycle.records.length) :
      (redrivenHistory done front).length + k < last := by omega
  have htake (k : Nat) (hk : k < cycle.records.length) :
      ((redrivenHistory done (front ++ cycle :: later)).take last)[
        (redrivenHistory done front).length + k]? = cycle.records[k]? := by
    rw [List.getElem?_take, if_pos (hbefore k hk), hat k hk]
  intro j
  have hevent : (redrivenHistory done (front ++ cycle :: later))[j]? =
      some (cycle.records.get ⟨k, hk⟩) := (hat k hk).trans (List.getElem?_eq_getElem hk)
  have hevent' : ((redrivenHistory done (front ++ cycle :: later)).take last)[j]? =
      some (cycle.records.get ⟨k, hk⟩) := (htake k hk).trans (List.getElem?_eq_getElem hk)
  have hrecord := cycle.isRecord _ (List.get_mem cycle.records ⟨k, hk⟩)
  generalize cycle.records.get ⟨k, hk⟩ = event at hevent hevent' hrecord
  cases hrecord with
  | preTerminal h =>
    refine .inr (.inl ?_)
    rw [hevent]
    exact h
  | bookkeeping h => exact .inl (bookkeeping_marked hevent h)
  | activityFailed id hfresh =>
    exact .inr (.inr (mem_abandonedDispatchIndices.mpr
      (.inl ⟨id, abandonedAt_redriven hevent (hbefore k hk) hfresh⟩)))
  | childFailed id =>
    exact .inr (.inr (mem_abandonedDispatchIndices.mpr (.inr (.inl ⟨id, hevent'⟩))))
  | activity id name input queue hfailed =>
    obtain ⟨l, hl, hfail⟩ := List.mem_iff_getElem.mp hfailed
    have hfailAt := (hat l hl).trans ((List.getElem?_eq_getElem hl).trans (congrArg some hfail))
    have hfresh : Fresh done id := (cycle.isRecord _ hfailed).fresh
    exact .inr (.inr (mem_abandonedDispatchIndices.mpr (.inr (.inr ⟨_, hevent',
      _, abandonedAt_redriven hfailAt (hbefore l hl) hfresh⟩))))
  | child id name input hfailed =>
    obtain ⟨l, hl, hfail⟩ := List.mem_iff_getElem.mp hfailed
    have hfailAt := (htake l hl).trans ((List.getElem?_eq_getElem hl).trans (congrArg some hfail))
    exact .inr (.inr (mem_abandonedDispatchIndices.mpr (.inr (.inr ⟨_, hevent',
      List.mem_of_getElem? hfailAt⟩))))

/-- The passes over redrives and abandoned dispatches do not mark the event, wherever it is. -/
def isSettled (event : WorkflowEvent) : Bool :=
  isQuiet event &&
    match event with
    | .activityFailed .. | .childWorkflowStarted .. | .childWorkflowFailed .. => false
    | _ => true

/-- The done part ends in an event at which the walk over the tail stops. -/
structure IsDone (done : List WorkflowEvent) : Prop where
  settled : ∀ event ∈ done, isSettled event = true
  ends : ∃ earlier last, done = earlier ++ [last] ∧ isPreTerminalRecord last = false

theorem isSettled_iff {event : WorkflowEvent} (h : isSettled event = true) :
    isQuiet event = true ∧ (∀ id, event ≠ abandonedActivity id) ∧ (∀ id, event ≠ abandonedChild id) ∧
      ∀ id name input, event ≠ .childWorkflowStarted id name input := by
  obtain ⟨hquiet, hmatch⟩ := Bool.and_eq_true_iff.mp h
  refine ⟨hquiet, ?_, ?_, ?_⟩
  · rintro id rfl
    cases hmatch
  · rintro id rfl
    cases hmatch
  · rintro id name input rfl
    cases hmatch

/-- The id of an abandoned activity of a cycle is not one of the done part. -/
theorem FailingCycle.fresh {id : ActivityExecId} (h : abandonedActivity id ∈ cycle.events) :
    Fresh done id := by
  simp only [FailingCycle.events, List.mem_append, List.mem_cons, List.not_mem_nil, or_false] at h
  rcases h with hrecord | hfailure | hbook | hredrive
  · exact (cycle.isRecord _ hrecord).fresh
  · have hfailed := cycle.isFailure
    rw [← hfailure] at hfailed
    cases hfailed
  · exact absurd (cycle.isBookkeeping _ hbook) Bool.false_ne_true
  · have hlater := cycle.isRedrive
    rw [← hredrive] at hlater
    cases hlater

theorem getElem?_done (hlt : j < done.length) :
    (redrivenHistory done cycles)[j]? = some (done.get ⟨j, hlt⟩) :=
  (List.getElem?_append_left hlt).trans (List.getElem?_eq_getElem hlt)

/-- The passes over bookkeeping and redrives leave the done part alone. -/
theorem notMem_marked (hdone : IsDone done) (hlt : j < done.length) :
    j ∉ markedByRedrives (redrivenHistory done cycles) := by
  intro hmem
  obtain ⟨hbook, hredrive, hfailed⟩ :=
    isQuiet_iff.mp (isSettled_iff (hdone.settled _ (List.get_mem done ⟨j, hlt⟩))).1
  have hat := @getElem?_done done cycles j hlt
  rcases mem_redrivesTo hmem with hmem | hmem | hmem
  · have hany := (Finset.mem_filter.mp hmem).2
    rw [hat, Option.any_some, hbook] at hany
    cases hany
  · rw [hat, Option.any_some, hredrive] at hmem
    cases hmem
  · rw [hat, Option.any_some, hfailed] at hmem
    cases hmem

/-- The abandoned dispatches are not in the done part. -/
theorem notMem_abandoned (hdone : IsDone done) (hlt : j < done.length) {last : Nat} :
    j ∉ abandonedDispatchIndices ((redrivenHistory done cycles).take last) := by
  have hgone (i : Nat) (hi : i < done.length) (event : WorkflowEvent)
      (hevent : ((redrivenHistory done cycles).take last)[i]? = some event) :
      event ∈ done := by
    rw [List.getElem?_take] at hevent
    split_ifs at hevent with hlast
    rw [getElem?_done hi] at hevent
    obtain rfl := Option.some.inj hevent
    exact List.get_mem done ⟨i, hi⟩
  intro hmem
  rcases mem_abandonedDispatchIndices.mp hmem with ⟨id, hat, -⟩ | ⟨id, hat⟩ | ⟨event, hat, hstarts⟩
  · exact (isSettled_iff (hdone.settled _ (hgone j hlt _ hat))).2.1 id rfl
  · exact (isSettled_iff (hdone.settled _ (hgone j hlt _ hat))).2.2.1 id rfl
  · have hevent := hgone j hlt event hat
    obtain ⟨-, hactivity, -, hchild⟩ := isSettled_iff (hdone.settled event hevent)
    cases event with
    | activityScheduled id name input queue =>
      obtain ⟨i, hi, -⟩ := hstarts
      -- the failure is in a cycle, so the activity is not one of the done part
      rcases Nat.lt_or_ge i done.length with hin | hafter
      · exact (isSettled_iff (hdone.settled _ (hgone i hin _ hi))).2.1 id rfl
      · rw [List.getElem?_take] at hi
        split_ifs at hi with hlast
        rw [redrivenHistory, List.getElem?_append_right hafter] at hi
        obtain ⟨cycle, -, hcycle⟩ := List.mem_flatMap.mp (List.mem_of_getElem? hi)
        exact FailingCycle.fresh hcycle _ hevent rfl
    | childWorkflowStarted id name input => exact hchild id name input rfl
    | _ => exact hstarts

/-- What is transparent before the walk over the tail. -/
def markedBeforeTail (events : List WorkflowEvent) (last : Nat) : Finset Nat :=
  markedByRedrives events ∪ (abandonedDispatchIndices (events.take last)).toFinset

/-- What the passes mark in a history that does not end in a failure. -/
theorem mem_transparentOf_of_redrive {events : List WorkflowEvent} {last : Nat}
    (hredrive : (redrivePass events (indicesWhere events isCommandFreeBookkeeping)).2 = some last)
    (htail : terminalFailureTailStart events = none) :
    j ∈ transparentOf events ↔ j ∈ markedBeforeTail events last ∨
      j ∈ supersededCycleTailIndices (events.take last) (markedBeforeTail events last) ∨
      j ∈ dropReleaseIndices events := by
  unfold transparentOf
  rw [htail]
  dsimp only
  rw [hredrive, Finset.mem_union, List.mem_toFinset, Finset.mem_union, List.mem_toFinset, or_assoc]
  exact Iff.rfl

theorem length_take_of_lastRedrive {last : Nat}
    (hlast : (redrivenHistory done cycles).length = last + 1) :
    ((redrivenHistory done cycles).take last).length = last := by
  rw [List.length_take, hlast]
  omega

/-- **Everything after the done part is transparent.** -/
theorem mem_transparentOf_of_le (hle : done.length ≤ j)
    (hlt : j < (redrivenHistory done (front ++ [cycle])).length) :
    j ∈ transparentOf (redrivenHistory done (front ++ [cycle])) := by
  obtain ⟨last, hlast, hat, hredrive⟩ := lastRedrive front cycle
  rw [mem_transparentOf_of_redrive hredrive (terminalFailureTail_redriven front cycle)]
  have hrecord : ∀ i, done.length ≤ i → i < last →
      i ∈ markedBeforeTail (redrivenHistory done (front ++ [cycle])) last ∨
        (((redrivenHistory done (front ++ [cycle])).take last)[i]?).any isPreTerminalRecord =
          true := by
    intro i hi hend
    have hin : i < (redrivenHistory done (front ++ [cycle])).length := by omega
    rcases marked_or_record hi hin with hmem | ⟨_, _, _, k, hcycles, hk, rfl⟩
    · exact .inl (Finset.mem_union_left _ hmem)
    · rcases record_cases hcycles hlast hk with hmem | hmem | hmem
      · exact .inl (Finset.mem_union_left _ hmem)
      · rw [List.getElem?_take, if_pos hend]
        exact .inr hmem
      · exact .inl (Finset.mem_union_right _ (List.mem_toFinset.mpr hmem))
  rcases Nat.lt_or_eq_of_le (Nat.le_of_lt_succ (hlast ▸ hlt)) with hbefore | rfl
  · by_cases hmem : j ∈ markedBeforeTail (redrivenHistory done (front ++ [cycle])) last
    · exact .inl hmem
    · refine .inr (.inl ?_)
      rw [supersededCycleTailIndices, length_take_of_lastRedrive hlast]
      exact mem_supersededCycleTail hrecord hle hbefore hmem
  · exact .inl (Finset.mem_union_left _ (redrive_marked hat cycle.isRedrive))

/-- **The done part stays as it was.** -/
theorem mem_transparentOf_of_lt (hdone : IsDone done) (hlt : j < done.length) :
    j ∈ transparentOf (redrivenHistory done (front ++ [cycle])) ↔ j ∈ transparentOf done := by
  obtain ⟨last, hlast, -, hredrive⟩ := lastRedrive front cycle
  have hquiet : ∀ event ∈ done, isQuiet event = true :=
    fun event hevent => (isSettled_iff (hdone.settled event hevent)).1
  have hunmarked : ∀ i < done.length,
      i ∉ markedBeforeTail (redrivenHistory done (front ++ [cycle])) last := by
    intro i hi hmem
    rcases Finset.mem_union.mp hmem with hmem | hmem
    · exact notMem_marked hdone hi hmem
    · exact notMem_abandoned hdone hi (List.mem_toFinset.mp hmem)
  have htail : j ∉ supersededCycleTailIndices
      ((redrivenHistory done (front ++ [cycle])).take last)
      (markedBeforeTail (redrivenHistory done (front ++ [cycle])) last) := by
    intro hmem
    obtain ⟨earlier, final, hends, hrecord⟩ := hdone.ends
    have hafter : done.length ≤ last := by
      have hlen := cycle.length_events
      have hend := @length_cycle_le done front [] cycle
      rw [hlast, redrivenHistory, List.length_append] at hend
      omega
    rw [supersededCycleTailIndices, length_take_of_lastRedrive hlast] at hmem
    have hstart : done.length ≤ j := by
      refine le_of_mem_supersededCycleTail (fun stop hstop => ⟨hunmarked stop (by omega), ?_⟩)
        hafter hmem
      have hstopAt : done[stop]? = some final := by
        rw [hends, List.length_append, List.length_singleton] at hstop
        obtain rfl : earlier.length = stop := by omega
        rw [hends, List.getElem?_concat_length]
      rw [List.getElem?_take, if_pos (by omega), redrivenHistory,
        List.getElem?_append_left (by omega), hstopAt]
      exact hrecord
    omega
  rw [mem_transparentOf_of_redrive hredrive (terminalFailureTail_redriven front cycle),
    transparentOf_of_quiet hquiet, List.mem_toFinset]
  have hrelease : j ∈ dropReleaseIndices (redrivenHistory done (front ++ [cycle])) ↔
      j ∈ dropReleaseIndices done := mem_dropReleaseIndices_append hlt
  rw [hrelease]
  exact ⟨fun h => h.elim (fun hmem => absurd hmem (hunmarked j hlt))
    fun h => h.elim (fun hmem => absurd hmem htail) id, fun h => .inr (.inr h)⟩

end Redriven

end HistoryMatcher
end Harvest.Replay
