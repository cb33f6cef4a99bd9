import Harvest.Reset.Serve

/-!
# The race losers of a recorded fork

Model of `settle_holds` in `fork.rs`: an activity that lost a race in the source is held when the
fork repeats the decision of that race and the winner will wake the fork. Otherwise it fails.

Proved here:
* `heldForItsWinner_spec`: a held activity has a sibling in its decision that wakes the fork.
* `a_recorded_fork_repeats_its_source`: no activity runs, and the record is served.
-/

namespace Harvest.Reset

open Codec (isErasureTombstone)
open Lib (runAround runAround_spec runAround_start_le lt_runAround_end)

/-! ## Decisions -/

def isCommand : WorkflowEvent → Bool
  | .activityScheduled ..
  | .timerStarted .. => true
  | _ => false

/-- The run of command events around the index, as its bounds. -/
def decisionSiblings (events : List WorkflowEvent) (index : ℕ) : ℕ × ℕ :=
  runAround isCommand events index

/-- The same activity name and input, or the same timer. -/
def sameCommand : WorkflowEvent → WorkflowEvent → Bool
  | .activityScheduled _ a x _, .activityScheduled _ b y _ => a = b && x = y
  | .timerStarted a x, .timerStarted b y => a = b && x = y
  | _, _ => false

/-- Whether the timer started at `started` has fired or been cancelled. -/
def timerEnded (events : List WorkflowEvent) (started : ℕ) (timerId : TimerId) : Bool :=
  (events.drop (started + 1)).any fun
    | .timerFired done
    | .timerCancelled done => done = timerId
    | _ => false

def slice (events : List WorkflowEvent) (range : ℕ × ℕ) : List WorkflowEvent :=
  (events.drop range.1).take (range.2 - range.1)

/-! ## The race -/

/-- Whether a sibling had an outcome before the loser was cancelled. Only a fired timer can win. -/
def resolvedBefore (source : List WorkflowEvent) (cancelled sibling : ℕ) : Bool :=
  match source[sibling]? with
  | some (.activityScheduled id ..) =>
    (source.take cancelled).any fun event =>
      terminalActivityId event = some id && !isRaceLoser event
  | some (.timerStarted timerId _) =>
    ((source.take cancelled).drop (sibling + 1)).any fun
      | .timerFired fired => fired = timerId
      | _ => false
  | _ => false

/-- The one sibling that can have won the race that the activity at `index` lost. -/
def sourceRaceWinner (source : List WorkflowEvent) (index : ℕ) : Option ℕ :=
  match source[index]? with
  | some (.activityScheduled loser ..) =>
    (source.findIdx? fun event => terminalActivityId event = some loser).bind fun cancelled =>
      let siblings := decisionSiblings source index
      match (List.range' siblings.1 (siblings.2 - siblings.1)).filter fun sibling =>
          sibling != index && resolvedBefore source cancelled sibling with
      | [winner] => some winner
      | _ => none
  | _ => none

/-- Whether the fork schedules the commands of the source decision, in the same order. -/
def sameDecision (fork source : List WorkflowEvent) (forkIndex sourceIndex : ℕ) : Bool :=
  let sourceBatch := decisionSiblings source sourceIndex
  let forkBatch := decisionSiblings fork forkIndex
  sourceBatch.2 - sourceBatch.1 = forkBatch.2 - forkBatch.1 &&
    sourceIndex - sourceBatch.1 = forkIndex - forkBatch.1 &&
    ((slice source sourceBatch).zip (slice fork forkBatch)).all fun pair =>
      sameCommand pair.1 pair.2

/-- Whether the command at the index will wake the fork. -/
def wakes (fork : List WorkflowEvent) (served : List ActivityExecId) (index : ℕ) : Bool :=
  match fork[index]? with
  | some (.activityScheduled id ..) => served.contains id
  | some (.timerStarted timerId _) => !timerEnded fork index timerId
  | _ => false

/-- `held_for_its_winner` -/
def heldForItsWinner (fork source : List WorkflowEvent) (id : ActivityExecId)
    (served : List ActivityExecId) : Bool :=
  match fork.findIdx? (schedulesId id) with
  | none => false
  | some forkIndex =>
    match (scheduledOccurrence fork id).bind fun found => nthScheduled source found.1 found.2.1 with
    | none => false
    | some sourceIndex =>
      if sameDecision fork source forkIndex sourceIndex then
        match sourceRaceWinner source sourceIndex with
        | none => false
        | some winner =>
          wakes fork served ((decisionSiblings fork forkIndex).1 +
            (winner - (decisionSiblings source sourceIndex).1))
      else false

def isServe : ForkResolution → Bool
  | .serve _ => true
  | _ => false

def settleHold (fork source : List WorkflowEvent) (served : List ActivityExecId)
    (item : ActivityExecId × ForkResolution) : ActivityExecId × ForkResolution :=
  if item.2 ≠ .hold ∨ heldForItsWinner fork source item.1 served then item
  else
    (item.1, match scheduledOccurrence fork item.1 with
      | none => .hold
      | some (name, occurrence, _) => .serve (unavailable item.1 name occurrence))

/-- `settle_holds` -/
def settleHolds (fork source : List WorkflowEvent) (batch : List (ActivityExecId × ForkResolution)) :
    List (ActivityExecId × ForkResolution) :=
  let served := (batch.filter fun item => isServe item.2).map Prod.fst
  batch.map (settleHold fork source served)

/-- What a fork does with a batch of activities that it just scheduled. -/
def settleBatch (fork source : List WorkflowEvent) (scheduled : List ActivityExecId) :
    List (ActivityExecId × ForkResolution) :=
  settleHolds fork source (scheduled.map fun id => (id, resolveActivity fork source id))

/-! ## The sibling of a held activity -/

/-- Both positions lie in one run of command events. -/
def SameDecision (events : List WorkflowEvent) (i j : ℕ) : Prop :=
  ∀ k, min i j ≤ k → k ≤ max i j → ∃ event, events[k]? = some event ∧ isCommand event = true

theorem sourceRaceWinner_spec {source : List WorkflowEvent} {index winner : ℕ}
    (h : sourceRaceWinner source index = some winner) :
    (decisionSiblings source index).1 ≤ winner ∧ winner < (decisionSiblings source index).2 ∧
      winner ≠ index := by
  unfold sourceRaceWinner at h
  split at h
  case h_2 => cases h
  case h_1 =>
    obtain ⟨cancelled, -, hfound⟩ := Option.bind_eq_some_iff.mp h
    dsimp only at hfound
    split at hfound
    case h_2 => cases hfound
    case h_1 only honly =>
      obtain rfl := Option.some.inj hfound
      have hmem : only ∈ (List.range' (decisionSiblings source index).1
          ((decisionSiblings source index).2 - (decisionSiblings source index).1)).filter
            fun sibling => sibling != index && resolvedBefore source cancelled sibling := by
        rw [honly]
        exact List.mem_singleton_self _
      rw [List.mem_filter, List.mem_range'_1] at hmem
      obtain ⟨⟨hstart, hend⟩, hpass⟩ := hmem
      refine ⟨hstart, by omega, ?_⟩
      simpa using (Bool.and_eq_true_iff.mp hpass).1

/-- **A held activity has a sibling in its decision that wakes the fork.** -/
theorem heldForItsWinner_spec {fork source : List WorkflowEvent} {id : ActivityExecId}
    {served : List ActivityExecId} (h : heldForItsWinner fork source id served = true) :
    ∃ i j, fork.findIdx? (schedulesId id) = some i ∧ j ≠ i ∧ SameDecision fork i j ∧
      wakes fork served j = true := by
  unfold heldForItsWinner at h
  split at h
  case h_1 => cases h
  case h_2 forkIndex hfork =>
    split at h
    case h_1 => cases h
    case h_2 sourceIndex hsource =>
      split at h
      case isFalse => cases h
      case isTrue hsame =>
        split at h
        case h_1 => cases h
        case h_2 winner hwinner =>
          obtain ⟨hstart, hend, hne⟩ := sourceRaceWinner_spec hwinner
          unfold sameDecision at hsame
          simp only [Bool.and_eq_true, decide_eq_true_eq] at hsame
          obtain ⟨⟨hlength, hoffset⟩, -⟩ := hsame
          obtain ⟨hlt, hown, -⟩ := List.findIdx?_eq_some_iff_getElem.mp hfork
          have hcommand : isCommand fork[forkIndex] = true := by
            cases hevent : fork[forkIndex] with
            | activityScheduled => rfl
            | _ =>
              rw [hevent] at hown
              cases hown
          have hin : forkIndex < (decisionSiblings fork forkIndex).2 :=
            lt_runAround_end (List.getElem?_eq_getElem hlt) hcommand
          have hfrom : (decisionSiblings fork forkIndex).1 ≤ forkIndex := runAround_start_le
          have hfrom' : (decisionSiblings source sourceIndex).1 ≤ sourceIndex := runAround_start_le
          refine ⟨forkIndex, _, hfork, ?_, fun k hmin hmax => ?_, h⟩
          · omega
          · exact runAround_spec hlt (show (decisionSiblings fork forkIndex).1 ≤ k by omega)
              (show k < (decisionSiblings fork forkIndex).2 by omega)

/-! ## One activity of a batch -/

section Batch

variable {fork source : List WorkflowEvent} {scheduled served : List ActivityExecId}
  {id : ActivityExecId} {resolution : ForkResolution}

/-- The activities of the batch that were served before the holds were settled. -/
def servedIds (fork source : List WorkflowEvent) (scheduled : List ActivityExecId) :
    List ActivityExecId :=
  ((scheduled.map fun id => (id, resolveActivity fork source id)).filter fun item =>
    isServe item.2).map Prod.fst

theorem settleBatch_eq : settleBatch fork source scheduled = scheduled.map fun id =>
    settleHold fork source (servedIds fork source scheduled)
      (id, resolveActivity fork source id) := by
  unfold settleBatch settleHolds servedIds
  dsimp only
  rw [List.map_map]
  rfl

/-- Settling changes nothing but a hold. -/
theorem settleHold_of_ne (h : resolution ≠ .hold) :
    settleHold fork source served (id, resolution) = (id, resolution) :=
  if_pos (.inl h)

theorem settleHold_fst (item : ActivityExecId × ForkResolution) :
    (settleHold fork source served item).1 = item.1 := by
  unfold settleHold
  split <;> rfl

theorem mem_settleBatch (h : (id, resolution) ∈ settleBatch fork source scheduled) :
    id ∈ scheduled ∧ settleHold fork source (servedIds fork source scheduled)
      (id, resolveActivity fork source id) = (id, resolution) := by
  rw [settleBatch_eq, List.mem_map] at h
  obtain ⟨own, hown, hsettled⟩ := h
  have hid : own = id := by
    have hfst := congrArg Prod.fst hsettled
    rwa [settleHold_fst] at hfst
  subst hid
  exact ⟨hown, hsettled⟩

/-- A new activity of a recorded fork never runs. -/
theorem resolveActivity_cases (hfork : RecordedFork fork) (hnew : NewActivity fork id) :
    resolveActivity fork source id = .hold ∨
      ∃ event, resolveActivity fork source id = .serve event ∧
        terminalActivityId event = some id := by
  obtain ⟨index, name, input, queue, -, -, hoccurrence⟩ := scheduledOccurrence_of_mem hnew.scheduled
  rw [resolveActivity_recorded hfork hnew hoccurrence source]
  split
  case h_1 output _ => exact .inr ⟨_, rfl, rfl⟩
  case h_2 => exact fromRecord_cases source id name _ input

theorem settleHold_cases (hfork : RecordedFork fork) (hnew : NewActivity fork id)
    (h : settleHold fork source served (id, resolveActivity fork source id) = (id, resolution)) :
    (resolution = .hold ∧ heldForItsWinner fork source id served = true) ∨
      ∃ event, resolution = .serve event ∧ terminalActivityId event = some id := by
  obtain ⟨index, name, input, queue, -, -, hoccurrence⟩ := scheduledOccurrence_of_mem hnew.scheduled
  have hresolved : resolveActivity fork source id = .hold ∨ _ := resolveActivity_cases hfork hnew
  rcases hresolved with hhold | ⟨event, hserve, hown⟩
  · rw [hhold] at h
    unfold settleHold at h
    split at h
    case isTrue hheld =>
      obtain rfl := (Prod.mk.inj h).2
      exact .inl ⟨rfl, by simpa using hheld⟩
    case isFalse =>
      dsimp only at h
      rw [hoccurrence] at h
      obtain rfl := (Prod.mk.inj h).2
      exact .inr ⟨_, rfl, rfl⟩
  · rw [hserve, settleHold_of_ne (by simp)] at h
    obtain rfl := (Prod.mk.inj h).2
    exact .inr ⟨event, rfl, hown⟩

/-- What is served at once stays as it is. -/
theorem settled_eq_of_serve {event : WorkflowEvent}
    (h : (id, resolution) ∈ settleBatch fork source scheduled)
    (hserve : resolveActivity fork source id = .serve event) : resolution = .serve event := by
  have hsettled := (mem_settleBatch h).2
  rw [hserve, settleHold_of_ne (by simp)] at hsettled
  exact (Prod.mk.inj hsettled).2.symm

theorem mem_settleBatch_of_served (h : id ∈ servedIds fork source scheduled) :
    ∃ event, (id, .serve event) ∈ settleBatch fork source scheduled := by
  obtain ⟨item, hitem, rfl⟩ := List.mem_map.mp h
  obtain ⟨hmem, hserve⟩ := List.mem_filter.mp hitem
  obtain ⟨own, hown, rfl⟩ := List.mem_map.mp hmem
  cases hresolved : resolveActivity fork source own with
  | run => simp [hresolved, isServe] at hserve
  | hold => simp [hresolved, isServe] at hserve
  | serve event =>
    refine ⟨event, ?_⟩
    rw [settleBatch_eq, List.mem_map]
    exact ⟨own, hown, by rw [hresolved, settleHold_of_ne (by simp)]⟩

end Batch

/-! ## The fork repeats its source -/

/-- A sibling of the decision that wakes the fork: an activity that this batch serves, or a timer
that is still pending. -/
def WakesFrom (fork : List WorkflowEvent) (settled : List (ActivityExecId × ForkResolution))
    (j : ℕ) : Prop :=
  (∃ id name input queue event, fork[j]? = some (.activityScheduled id name input queue) ∧
    (id, .serve event) ∈ settled) ∨
  ∃ timerId secs, fork[j]? = some (.timerStarted timerId secs) ∧ timerEnded fork j timerId = false

theorem wakesFrom_of_wakes {fork source : List WorkflowEvent} {scheduled : List ActivityExecId}
    {j : ℕ} (h : wakes fork (servedIds fork source scheduled) j = true) :
    WakesFrom fork (settleBatch fork source scheduled) j := by
  unfold wakes at h
  split at h
  case h_1 id name input queue hat =>
    obtain ⟨event, hevent⟩ := mem_settleBatch_of_served (List.contains_iff_mem.mp h)
    exact .inl ⟨id, name, input, queue, event, hat, hevent⟩
  case h_2 timerId secs hat => exact .inr ⟨timerId, secs, hat, by simpa using h⟩
  case h_3 => cases h

/-- An outcome that the fork may repeat: not erased, and not written by the engine. -/
structure Repeatable (source : List WorkflowEvent) (input : Json) (event : WorkflowEvent) : Prop where
  input : isErasureTombstone input = false
  payload : isErased event = false
  dispatched : isSynthetic source event = false
  winner : isRaceLoser event = false

/-- Without an override, a repeatable outcome of the same occurrence is served. -/
theorem settled_of_outcome {fork source : List WorkflowEvent} {scheduled : List ActivityExecId}
    (hfork : RecordedFork fork) (hnew : ∀ id ∈ scheduled, NewActivity fork id)
    {id : ActivityExecId} {resolution : ForkResolution}
    (hmem : (id, resolution) ∈ settleBatch fork source scheduled)
    {name : String} {occurrence : UInt32} {input : Json}
    (hoccurrence : scheduledOccurrence fork id = some (name, occurrence, input))
    (hnone : ∀ output, ¬ FirstOverride fork name occurrence output) {event : WorkflowEvent}
    (houtcome : FirstOutcome source name occurrence.toNat input event)
    (hrepeat : Repeatable source input event) : resolution = .serve (rebind event id) := by
  have hno : overrideFor fork name occurrence = none := by
    cases hover : overrideFor fork name occurrence with
    | none => rfl
    | some output => exact absurd (overrideFor_iff.mp hover) (hnone output)
  refine settled_eq_of_serve hmem ?_
  rw [resolveActivity_recorded hfork (hnew id (mem_settleBatch hmem).1) hoccurrence, hno]
  exact fromRecord_of_outcome houtcome hrepeat.input hrepeat.payload hrepeat.dispatched
    hrepeat.winner

/-- Where the fork schedules what the source did, occurrences of one number have one input. -/
theorem FirstOutcome.input_eq {fork source : List WorkflowEvent} {name : String}
    (hsame : inputsOf name fork <+: inputsOf name source) {i : ℕ} {id : ActivityExecId}
    {input recorded : Json} {queue : String} {event : WorkflowEvent}
    (hat : fork[i]? = some (.activityScheduled id name input queue))
    (houtcome : FirstOutcome source name (carriedOccurrences (fork.take i) name + 1) recorded event) :
    recorded = input := by
  obtain ⟨j, sourceId, sourceQueue, hsource, hcount, -⟩ := houtcome
  obtain ⟨later, hlater⟩ := hsame
  have hhere := getElem?_inputsOf hat
  have hthere := getElem?_inputsOf hsource
  rw [Nat.succ.inj hcount, ← hlater,
    List.getElem?_append_left (List.getElem?_eq_some_iff.mp hhere).1, hhere] at hthere
  exact (Option.some.inj hthere).symm

/-- **A recorded fork has no live activity and repeats its source.** Each new activity is held or gets
an outcome of its own. An override after the last marker wins; without one, a repeatable first
outcome of the source for the same name, occurrence and input is served. So where the fork schedules
what the source did, it gets what the source got. A held activity has a sibling that wakes the fork. -/
theorem a_recorded_fork_repeats_its_source (fork : History) (source : List WorkflowEvent)
    (hfork : RecordedFork fork.events) (scheduled : List ActivityExecId)
    (hnew : ∀ id ∈ scheduled, NewActivity fork.events id) :
    let settled := settleBatch fork.events source scheduled
    settled.map Prod.fst = scheduled ∧
    (∀ id resolution, (id, resolution) ∈ settled →
      resolution = .hold ∨
        ∃ event, resolution = .serve event ∧ terminalActivityId event = some id) ∧
    (∀ id resolution, (id, resolution) ∈ settled → ∀ name occurrence input,
      scheduledOccurrence fork.events id = some (name, occurrence, input) →
      (∀ output, FirstOverride fork.events name occurrence output →
        resolution = .serve (.activityCompleted id output)) ∧
      ((∀ output, ¬ FirstOverride fork.events name occurrence output) →
        ∀ event, FirstOutcome source name occurrence.toNat input event →
          Repeatable source input event → resolution = .serve (rebind event id))) ∧
    ((∀ name occurrence output, ¬ FirstOverride fork.events name occurrence output) →
      (∀ name, inputsOf name fork.events <+: inputsOf name source) →
      ∀ id resolution, (id, resolution) ∈ settled → ∀ i name input queue,
        fork.events.findIdx? (schedulesId id) = some i →
        fork.events[i]? = some (.activityScheduled id name input queue) →
        ∀ recorded event,
          FirstOutcome source name (carriedOccurrences (fork.events.take i) name + 1) recorded event →
          Repeatable source recorded event → resolution = .serve (rebind event id)) ∧
    (∀ id, (id, .hold) ∈ settled → ∃ i j, fork.events.findIdx? (schedulesId id) = some i ∧ j ≠ i ∧
      SameDecision fork.events i j ∧ WakesFrom fork.events settled j) := by
  intro settled
  refine ⟨?_, ?_, ?_, ?_, ?_⟩
  · change (settleBatch fork.events source scheduled).map Prod.fst = scheduled
    rw [settleBatch_eq, List.map_map]
    exact (List.map_congr_left fun id _ => settleHold_fst _).trans (List.map_id _)
  · intro id resolution hmem
    obtain ⟨hid, hsettled⟩ := mem_settleBatch hmem
    rcases settleHold_cases hfork (hnew id hid) hsettled with ⟨hhold, -⟩ | hserve
    · exact .inl hhold
    · exact .inr hserve
  · intro id resolution hmem name occurrence input hoccurrence
    refine ⟨fun output hover => settled_eq_of_serve hmem ?_,
      fun hnone event => settled_of_outcome hfork hnew hmem hoccurrence hnone⟩
    rw [resolveActivity_recorded hfork (hnew id (mem_settleBatch hmem).1) hoccurrence,
      overrideFor_iff.mpr hover]
  · intro hnone hsame id resolution hmem i name input queue hfirst hat recorded event houtcome hrepeat
    obtain ⟨index, name', input', queue', hindex, hevent, hoccurrence⟩ :=
      scheduledOccurrence_of_mem (hnew id (mem_settleBatch hmem).1).scheduled
    obtain rfl : index = i := Option.some.inj (hindex.symm.trans hfirst)
    rw [hevent] at hat
    cases hat
    have hinput : recorded = input := houtcome.input_eq (hsame name) hevent
    subst hinput
    refine settled_of_outcome hfork hnew hmem hoccurrence (hnone name _) ?_ hrepeat
    rw [toNat_toOccurrence fork.numbered]
    exact houtcome
  · intro id hmem
    obtain ⟨hid, hsettled⟩ := mem_settleBatch hmem
    rcases settleHold_cases hfork (hnew id hid) hsettled with ⟨-, hheld⟩ | ⟨event, hserve, -⟩
    · obtain ⟨i, j, hi, hne, hsibling, hwakes⟩ := heldForItsWinner_spec hheld
      exact ⟨i, j, hi, hne, hsibling, wakesFrom_of_wakes hwakes⟩
    · cases hserve

/-- The source raced two activities, the second one won. -/
def racedSource : List WorkflowEvent :=
  [startEvent, .activityScheduled ⟨1⟩ "poll" .null "default",
    .activityScheduled ⟨2⟩ "push" .null "default", .activityCompleted ⟨2⟩ (.str "sent"),
    .activityFailed ⟨1⟩ raceLoserError 1 "Error" true none]

/-- The fork schedules the same race again. -/
def racingFork : History where
  events := [startEvent, .workflowForked ⟨7⟩ 0 .recorded "why" "who",
    .activityScheduled ⟨3⟩ "poll" .null "default", .activityScheduled ⟨4⟩ "push" .null "default"]
  numbered := by decide

/-- The winner is served and the loser is held for it. -/
theorem the_loser_waits_for_its_winner :
    settleBatch racingFork.events racedSource [⟨3⟩, ⟨4⟩] =
      [(⟨3⟩, .hold), (⟨4⟩, .serve (.activityCompleted ⟨4⟩ (.str "sent")))] ∧
    ∃ i j, racingFork.events.findIdx? (schedulesId ⟨3⟩) = some i ∧ j ≠ i ∧
      SameDecision racingFork.events i j ∧
      WakesFrom racingFork.events (settleBatch racingFork.events racedSource [⟨3⟩, ⟨4⟩]) j := by
  have hsettled : settleBatch racingFork.events racedSource [⟨3⟩, ⟨4⟩] =
      [(⟨3⟩, .hold), (⟨4⟩, .serve (.activityCompleted ⟨4⟩ (.str "sent")))] := by decide +kernel
  have hfork : RecordedFork racingFork.events := by
    intro source effects hmarker
    cases hmarker
    rfl
  have hnew : ∀ id ∈ [⟨3⟩, ⟨4⟩], NewActivity racingFork.events id := by
    intro id hid
    rcases List.mem_cons.mp hid with rfl | hid
    · exact ⟨by decide, by decide⟩
    · obtain rfl := List.mem_singleton.mp hid
      exact ⟨by decide, by decide⟩
  obtain ⟨-, -, -, -, hheld⟩ :=
    a_recorded_fork_repeats_its_source racingFork racedSource hfork [⟨3⟩, ⟨4⟩] hnew
  refine ⟨hsettled, hheld ⟨3⟩ ?_⟩
  rw [hsettled]
  exact List.mem_cons_self

end Harvest.Reset
