import Harvest.Codec.EventWire
import Harvest.Dag.Task
import Harvest.Reset.Boundary

/-!
# Fork points

Model of `validate_fork` in `fork.rs`: a fork starts at a reset boundary whose carried prefix holds
neither a terminal event nor a mutex grant, and with overrides that the prefix allows.

Proved here:
* `validateFork_ok`: what every accepted fork point satisfies.
* `terminal_suggestion`: the point suggested after a carried terminal event is a boundary before it.
-/

namespace Harvest

/-- Events that the executor appends after a workflow finishes. -/
def WorkflowEvent.isTerminalLifecycle : WorkflowEvent → Bool
  | .workflowCompleted _
  | .workflowFailed ..
  | .workflowCancelled _
  | .workflowContinuedAsNew ..
  | .workflowResetTerminated ..
  | .workflowExecutionTimedOut ..
  | .childWorkflowCascadeApplied ..
  | .workflowRetryScheduled .. => true
  | _ => false

namespace Reset

structure ForkActivityOverride where
  activityName : String
  occurrence : UInt32
  output : Json
deriving DecidableEq, Repr

structure WorkflowForkRequest where
  effects : ForkEffects
  input : Option Json
  activityOverrides : List ForkActivityOverride
deriving DecidableEq, Repr

inductive WorkflowForkError
  | invalidPoint (invalid : ResetInvalidPoint)
  | continueAsNew
  | unservableEffect (kind : String) (eventId : Int)
  | carriedMutex (key : String) (eventId : Int)
  | invalidOverride (message : String)
deriving DecidableEq, Repr

def unservableEvents : List String :=
  ["MutexGranted", "LocalActivityScheduled", "ChildWorkflowStarted", "ChildWorkflowSpawnedDetached",
    "ActivityAwaitingExternal", "ExternalSignalRequested", "ExternalCancelRequested"]

def maxActivityOverrides : ℕ := 1000

/-- How often the carried events schedule the activity. -/
def carriedOccurrences (carried : List WorkflowEvent) (name : String) : ℕ :=
  carried.countP fun
    | .activityScheduled _ scheduled .. => scheduled = name
    | _ => false

/-- The loop of `validate_overrides`, with the overrides seen so far. -/
def checkOverrides (carried : List WorkflowEvent) (seen : List (String × UInt32)) :
    List ForkActivityOverride → Except WorkflowForkError Unit
  | [] => .ok ()
  | item :: rest =>
    let name := item.activityName
    let occurrence := item.occurrence
    if Dag.isBlank name then .error (.invalidOverride "activity_name is empty")
    else if occurrence = 0 then
      .error (.invalidOverride s!"occurrence of '{name}' is 1-based, not 0")
    else if seen.contains (name, occurrence) then
      .error (.invalidOverride s!"'{name}' occurrence {occurrence} is set twice")
    else if occurrence.toNat ≤ carriedOccurrences carried name then
      .error (.invalidOverride
        s!"'{name}' occurrence {occurrence} is in the carried history; fork before it")
    else checkOverrides carried ((name, occurrence) :: seen) rest

def validateOverrides (carried : List WorkflowEvent) (overrides : List ForkActivityOverride) :
    Except WorkflowForkError Unit :=
  let count := overrides.length
  if maxActivityOverrides < count then
    .error (.invalidOverride
      s!"{count} activity overrides; the limit is {maxActivityOverrides}")
  else checkOverrides carried [] overrides

def mutexKey : WorkflowEvent → Option String
  | .mutexGranted key .. => some key
  | _ => none

/-- The refusal of a point that carries the terminal event at `terminal`. -/
def terminalRefusal (events : List WorkflowEvent) (forkEventId : Int) (terminal : ℕ) :
    ResetInvalidPoint where
  message :=
    let before : Int := terminal - 1
    s!"event {terminal} ends the run; fork at or before event {before}"
  resetToEventId := forkEventId
  lastEventId := ((events.length - 1 : ℕ) : Int)
  unresolvedSideEffects := []
  nearestValidBefore :=
    match terminal with
    | 0 => none
    | before + 1 =>
      match validateResetPoint events before with
      | .ok _ => some before
      | .error invalid => invalid.nearestValidBefore
  nearestValidAfter := none

def firstGrant (carried : List WorkflowEvent) : Option (String × ℕ) :=
  carried.zipIdx.findSome? fun point => (mutexKey point.1).map (·, point.2)

/-- The first effect after the carried events that recorded mode cannot serve. -/
def firstUnservable (events : List WorkflowEvent) (carried : ℕ) : Option (WorkflowEvent × ℕ) :=
  (events.zipIdx.drop carried).find? fun point => unservableEvents.contains point.1.typeName

def validateFork (events : List WorkflowEvent) (forkEventId : Int) (request : WorkflowForkRequest) :
    Except WorkflowForkError ResetPlan :=
  if events.any isContinuedAsNew then .error .continueAsNew
  else
    match validateResetPoint events forkEventId with
    | .error invalid => .error (.invalidPoint invalid)
    | .ok plan =>
      let carried := events.take plan.eventsCarriedOver
      -- a carried terminal event ends the fork at once on replay
      match carried.findIdx? (·.isTerminalLifecycle) with
      | some terminal => .error (.invalidPoint (terminalRefusal events forkEventId terminal))
      | none =>
        -- no event releases a mutex, so a carried grant may still be held
        match firstGrant carried with
        | some (key, index) => .error (.carriedMutex key index)
        | none =>
          if request.input.isSome && forkEventId ≠ 0 then
            .error (.invalidOverride s!"an input override needs fork point 0, not {forkEventId}")
          else
            match validateOverrides carried request.activityOverrides with
            | .error error => .error error
            | .ok () =>
              match if request.effects = .recorded then firstUnservable events carried.length
                else none with
              | some (event, index) => .error (.unservableEffect event.typeName index)
              | none => .ok plan

/-! ## What the checks leave -/

theorem checkOverrides_error {carried : List WorkflowEvent} {seen : List (String × UInt32)}
    {overrides : List ForkActivityOverride} {error : WorkflowForkError}
    (h : checkOverrides carried seen overrides = .error error) :
    ∃ message, error = .invalidOverride message := by
  induction overrides generalizing seen with
  | nil => cases h
  | cons item rest ih =>
    rw [checkOverrides] at h
    split_ifs at h
    · exact ⟨_, (Except.error.inj h).symm⟩
    · exact ⟨_, (Except.error.inj h).symm⟩
    · exact ⟨_, (Except.error.inj h).symm⟩
    · exact ⟨_, (Except.error.inj h).symm⟩
    · exact ih h

theorem validateOverrides_error {carried : List WorkflowEvent}
    {overrides : List ForkActivityOverride} {error : WorkflowForkError}
    (h : validateOverrides carried overrides = .error error) :
    ∃ message, error = .invalidOverride message := by
  rw [validateOverrides] at h
  split_ifs at h
  · exact ⟨_, (Except.error.inj h).symm⟩
  · exact checkOverrides_error h

theorem firstGrant_eq_none {carried : List WorkflowEvent} (h : firstGrant carried = none)
    {event : WorkflowEvent} (hmem : event ∈ carried) : mutexKey event = none := by
  obtain ⟨i, hi⟩ := List.mem_iff_getElem?.mp hmem
  have hpoint : (event, i) ∈ carried.zipIdx := List.mk_mem_zipIdx_iff_getElem?.mpr hi
  exact Option.map_eq_none_iff.mp (List.findSome?_eq_none_iff.mp h _ hpoint)

theorem validateFork_ok {events : List WorkflowEvent} {forkEventId : Int}
    {request : WorkflowForkRequest} {plan : ResetPlan}
    (h : validateFork events forkEventId request = .ok plan) :
    validateResetPoint events forkEventId = .ok plan ∧
      ∀ event ∈ events.take plan.eventsCarriedOver,
        event.isTerminalLifecycle = false ∧ mutexKey event = none := by
  unfold validateFork at h
  split at h
  · cases h
  split at h
  · cases h
  rename_i plan' hpoint
  dsimp only at h
  split at h
  · cases h
  rename_i hterminal
  split at h
  · cases h
  rename_i hgrant
  have hplan : plan' = plan := by
    split at h
    · cases h
    split at h
    · cases h
    split at h
    · cases h
    exact Except.ok.inj h
  subst hplan
  refine ⟨hpoint, fun event hmem => ⟨?_, firstGrant_eq_none hgrant hmem⟩⟩
  exact Bool.eq_false_iff.mpr (by simpa using List.findIdx?_eq_none_iff.mp hterminal event hmem)

theorem validateFork_invalidPoint {events : List WorkflowEvent} {forkEventId : Int}
    {request : WorkflowForkRequest} {invalid : ResetInvalidPoint}
    (h : validateFork events forkEventId request = .error (.invalidPoint invalid)) :
    validateResetPoint events forkEventId = .error invalid ∨
      ∃ plan terminal, validateResetPoint events forkEventId = .ok plan ∧
        (events.take plan.eventsCarriedOver).findIdx? (·.isTerminalLifecycle) = some terminal ∧
        invalid = terminalRefusal events forkEventId terminal := by
  unfold validateFork at h
  split at h
  · cases h
  split at h
  · rename_i hpoint
    cases h
    exact .inl hpoint
  rename_i plan hpoint
  dsimp only at h
  split at h
  · rename_i terminal hterminal
    cases h
    exact .inr ⟨plan, terminal, hpoint, hterminal, rfl⟩
  split at h
  · cases h
  split at h
  · cases h
  split at h
  · rename_i error hoverrides
    obtain ⟨message, rfl⟩ := validateOverrides_error hoverrides
    cases h
  split at h <;> cases h

/-! ## Suggestions -/

/-- The events before the first carried terminal event are not terminal. -/
theorem not_terminal_before {events : List WorkflowEvent} {count terminal : ℕ}
    (h : (events.take count).findIdx? (·.isTerminalLifecycle) = some terminal) :
    terminal < events.length ∧ ∀ event ∈ events.take terminal, event.isTerminalLifecycle = false := by
  obtain ⟨hlt, -, hbefore⟩ := List.findIdx?_eq_some_iff_getElem.mp h
  rw [List.length_take] at hlt
  refine ⟨by omega, fun event hmem => ?_⟩
  obtain ⟨j, hj⟩ := List.mem_iff_getElem?.mp hmem
  have hlen : j < (events.take terminal).length := (List.getElem?_eq_some_iff.mp hj).1
  rw [List.length_take] at hlen
  rw [List.getElem?_take_of_lt (by omega)] at hj
  have hnot := hbefore j (by omega)
  rw [List.getElem_take, (List.getElem?_eq_some_iff.mp hj).2] at hnot
  exact Bool.eq_false_iff.mpr hnot

/-- **The point suggested after a carried terminal event is a boundary before it.** -/
theorem terminal_suggestion {events : List WorkflowEvent}
    (hnew : events.any isContinuedAsNew = false) {forkEventId : Int} {terminal : ℕ} {point : Int}
    (hterminal : terminal < events.length)
    (h : (terminalRefusal events forkEventId terminal).Suggests point) :
    Accepted events point ∧ point < terminal := by
  have hbefore := h.resolve_right nofun
  cases terminal with
  | zero => cases hbefore
  | succ before =>
    simp only [terminalRefusal] at hbefore
    cases hpoint : validateResetPoint events before with
    | ok plan =>
      rw [hpoint] at hbefore
      cases hbefore
      exact ⟨⟨plan, hpoint⟩, by omega⟩
    | error invalid =>
      rw [hpoint] at hbefore
      obtain ⟨haccepted, hlt, -⟩ :=
        nearestValidBefore_spec hnew (Nat.lt_of_succ_lt hterminal) hpoint hbefore
      exact ⟨haccepted, by omega⟩

/-- A point before the first carried terminal event is not refused for one, nor as a boundary. -/
theorem terminal_suggestion_not_refused {events : List WorkflowEvent}
    (hnew : events.any isContinuedAsNew = false) {target : Int} {request : WorkflowForkRequest}
    {invalid : ResetInvalidPoint} (haccepted : Accepted events target)
    (hrefused : validateFork events target request = .error (.invalidPoint invalid)) {point : Int}
    (hpoint : invalid.Suggests point) (again : WorkflowForkRequest)
    (invalid' : ResetInvalidPoint) :
    validateFork events point again ≠ .error (.invalidPoint invalid') := by
  obtain ⟨plan, hplan⟩ := haccepted
  rcases validateFork_invalidPoint hrefused with hboundary | ⟨plan', terminal, -, hterminal, rfl⟩
  · rw [hplan] at hboundary
    cases hboundary
  obtain ⟨hlt, hclean⟩ := not_terminal_before hterminal
  obtain ⟨⟨plan'', hplan''⟩, hbefore⟩ := terminal_suggestion hnew hlt hpoint
  intro hagain
  rcases validateFork_invalidPoint hagain with hboundary | ⟨plan₂, terminal₂, hplan₂, hterminal₂, -⟩
  · rw [hplan''] at hboundary
    cases hboundary
  obtain ⟨i, rfl, -, -, rfl⟩ := validateResetPoint_ok hnew hplan₂
  -- what the suggested point carries stands before the first terminal event
  change (events.take (i + 1)).findIdx? _ = _ at hterminal₂
  obtain ⟨hlen, hfound, -⟩ := List.findIdx?_eq_some_iff_getElem.mp hterminal₂
  have hmem : (events.take (i + 1))[terminal₂] ∈ events.take terminal :=
    (List.take_sublist_take_left (by omega)).subset (List.getElem_mem hlen)
  rw [hclean _ hmem] at hfound
  cases hfound

/-! ## The contract of reset and fork points -/

/-- The refusal lists exactly the open work, each once, with the event that opened it last. -/
def ResetInvalidPoint.ListsOpen (invalid : ResetInvalidPoint) (events : List WorkflowEvent)
    (target : Int) : Prop :=
  (∀ side, side ∈ invalid.unresolvedSideEffects ↔
    ∃ work name i, LastOpenedAt events target work name i ∧ side = work.listed name i) ∧
  (invalid.unresolvedSideEffects.map fun side => (side.kind, side.sideEffectId)).Nodup

/-- No accepted boundary lies between the point and the target. -/
def Nearest (events : List WorkflowEvent) (point target : Int) : Prop :=
  ∀ other, Accepted events other →
    ¬ (point < other ∧ other < target) ∧ ¬ (target < other ∧ other < point)

theorem nearest_of_last {events : List WorkflowEvent} {point target : Int} (hlt : point < target)
    (hlast : ∀ other, Accepted events other → other < target → other ≤ point) :
    Nearest events point target := by
  refine fun other hother => ⟨fun ⟨hafter, hbefore⟩ => ?_, fun ⟨hafter, hbefore⟩ => ?_⟩
  · have := hlast other hother hbefore
    omega
  · omega

theorem nearest_of_first {events : List WorkflowEvent} {point target : Int} (hlt : target < point)
    (hfirst : ∀ other, Accepted events other → target < other → point ≤ other) :
    Nearest events point target := by
  refine fun other hother => ⟨fun ⟨hafter, hbefore⟩ => ?_, fun ⟨hafter, hbefore⟩ => ?_⟩
  · omega
  · have := hfirst other hother hafter
    omega

/-- **Reset and fork points are quiet.** A target is accepted iff it is an event at which nothing is
open. A refusal in range lists what is open, one out of range lists nothing. What is suggested is
accepted and, unless the target is negative, on its side of the target the nearest. A fork point
carries no terminal event and no mutex grant, and what is suggested after a terminal refusal is not
refused again. -/
theorem reset_and_fork_points_are_quiet {events : List WorkflowEvent}
    (hstart : events.head?.any isWorkflowStarted) (hnew : events.any isContinuedAsNew = false)
    (target : Int) (request : WorkflowForkRequest) :
    (Accepted events target ↔
      (0 ≤ target ∧ target < events.length) ∧ ∀ work, ¬ OpenAt events target work) ∧
    (∀ invalid, validateResetPoint events target = .error invalid →
      (0 ≤ target → target < events.length → invalid.ListsOpen events target) ∧
      (target < 0 ∨ events.length ≤ target → invalid.unresolvedSideEffects = []) ∧
      (∀ point, invalid.Suggests point → Accepted events point) ∧
      (0 ≤ target → ∀ point,
        (invalid.nearestValidBefore = some point → point < target ∧ Nearest events point target) ∧
        (invalid.nearestValidAfter = some point → target < point ∧ Nearest events point target))) ∧
    (∀ plan, validateFork events target request = .ok plan → Accepted events target ∧
      ∀ event ∈ eventsUpTo events target,
        event.isTerminalLifecycle = false ∧ mutexKey event = none) ∧
    (∀ invalid, Accepted events target →
      validateFork events target request = .error (.invalidPoint invalid) →
      ∀ point, invalid.Suggests point → ∀ again invalid',
        validateFork events point again ≠ .error (.invalidPoint invalid')) := by
  refine ⟨accepted_iff hnew hstart, fun invalid herror => ?_, fun plan hplan => ?_,
    fun invalid haccepted hrefused point hpoint again invalid' =>
      terminal_suggestion_not_refused hnew haccepted hrefused hpoint again invalid'⟩
  · by_cases hrange : target < 0 ∨ (events.length : Int) ≤ target
    · obtain ⟨hnone, hafter, hbefore⟩ := outOfRange_spec hnew hrange herror
      refine ⟨fun hlow hhigh => by omega, fun _ => hnone, fun point hpoint => ?_,
        fun hlow point => ⟨fun hpoint => ?_, fun hpoint => ?_⟩⟩
      · exact (hbefore point (hpoint.resolve_right (by rw [hafter]; exact nofun))).1
      · obtain ⟨haccepted, hall⟩ := hbefore point hpoint
        have hhigh := ((accepted_iff hnew hstart).mp haccepted).1.2
        have hlt : point < target := by omega
        exact ⟨hlt, nearest_of_last hlt fun other hother _ => hall other hother⟩
      · rw [hafter] at hpoint
        cases hpoint
    · obtain ⟨i, rfl⟩ : ∃ i : ℕ, target = i := ⟨target.toNat, by omega⟩
      have hi : i < events.length := by omega
      refine ⟨fun _ _ => ⟨mem_unresolved_iff hnew hi herror, nodup_unresolved hnew hi herror⟩,
        fun hout => absurd hout hrange, fun point hpoint => ?_,
        fun _ point => ⟨fun hpoint => ?_, fun hpoint => ?_⟩⟩
      · rcases hpoint with hpoint | hpoint
        · exact (nearestValidBefore_spec hnew hi herror hpoint).1
        · exact (nearestValidAfter_spec hnew hi herror hpoint).1
      · obtain ⟨-, hlt, hall⟩ := nearestValidBefore_spec hnew hi herror hpoint
        exact ⟨hlt, nearest_of_last hlt hall⟩
      · obtain ⟨-, hlt, hall⟩ := nearestValidAfter_spec hnew hi herror hpoint
        exact ⟨hlt, nearest_of_first hlt hall⟩
  · obtain ⟨hpoint, hclean⟩ := validateFork_ok hplan
    obtain ⟨i, rfl, -, -, rfl⟩ := validateResetPoint_ok hnew hpoint
    exact ⟨⟨_, hpoint⟩, hclean⟩

def startEvent : WorkflowEvent := .workflowStarted .null 0 none none none

def firedTimer : List WorkflowEvent :=
  [startEvent, .timerStarted ⟨"reminder"⟩ 5, .timerFired ⟨"reminder"⟩]

/-- While the timer runs there is no boundary, once it has fired there is one. -/
theorem boundary_after_the_timer : ¬ Accepted firedTimer 1 ∧ Accepted firedTimer 2 := by
  have request : WorkflowForkRequest := ⟨.recorded, none, []⟩
  constructor
  · obtain ⟨haccepts, -⟩ := @reset_and_fork_points_are_quiet firedTimer rfl rfl 1 request
    intro haccepted
    refine (haccepts.mp haccepted).2 (.timer ⟨"reminder"⟩)
      ⟨1, some "reminder", ⟨.timerStarted ⟨"reminder"⟩ 5, rfl, rfl⟩, fun j entry hj hentry => ?_⟩
    have hlen := Lib.lt_length_of_getElem?_eq_some hentry
    change j < 2 at hlen
    omega
  · obtain ⟨haccepts, -⟩ := @reset_and_fork_points_are_quiet firedTimer rfl rfl 2 request
    refine haccepts.mpr ⟨by decide, ?_⟩
    rintro work ⟨i, name, ⟨entry, hentry, hopens⟩, hlater⟩
    match i with
    | 0 =>
      cases hentry
      cases hopens
    | 1 =>
      cases hentry
      have hwork : (Work.timer ⟨"reminder"⟩) = work := by
        by_contra hne
        simp [opens, opened, hne] at hopens
      subst hwork
      exact absurd (hlater 2 (.timerFired ⟨"reminder"⟩) (by decide) rfl) (by decide)
    | 2 =>
      cases hentry
      cases hopens
    | i + 3 => cases hentry

/-- The answers to targets out of range are not what the answers in range are: behind an open timer
the refusal lists nothing, and before the history it suggests the last boundary, not the nearest. -/
theorem out_of_range_answers_differ :
    (∃ invalid, validateResetPoint [startEvent, .timerStarted ⟨"reminder"⟩ 5] 2 = .error invalid ∧
      ¬ invalid.ListsOpen [startEvent, .timerStarted ⟨"reminder"⟩ 5] 2) ∧
    ∃ invalid point,
      validateResetPoint [startEvent, .markerRecorded "noted" .null] (-1) = .error invalid ∧
      invalid.Suggests point ∧
      ¬ Nearest [startEvent, .markerRecorded "noted" .null] point (-1) := by
  constructor
  · obtain ⟨message, herror⟩ := @validateResetPoint_outOfRange
      [startEvent, .timerStarted ⟨"reminder"⟩ 5] rfl 2 (.inr (by decide))
    refine ⟨_, herror, fun hlists => ?_⟩
    have hmem := (hlists.1 (Work.listed (.timer ⟨"reminder"⟩) (some "reminder") 1)).mpr
      ⟨_, _, 1, ⟨⟨.timerStarted ⟨"reminder"⟩ 5, rfl, rfl⟩, fun j entry hj hentry => ?_⟩, rfl⟩
    · cases hmem
    · have hlen := Lib.lt_length_of_getElem?_eq_some hentry
      change j < 2 at hlen
      omega
  · obtain ⟨message, herror⟩ := @validateResetPoint_outOfRange
      [startEvent, .markerRecorded "noted" .null] rfl (-1) (.inl (by decide))
    refine ⟨_, 1, herror, .inl rfl, fun hnearest => ?_⟩
    have hfirst : Accepted [startEvent, .markerRecorded "noted" .null] 0 :=
      (accepted_iff_isBoundary rfl).mpr ⟨0, rfl, by decide, rfl⟩
    exact (hnearest 0 hfirst).2 ⟨by decide, by decide⟩

end Reset

end Harvest
