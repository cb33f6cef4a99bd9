import Harvest.Replay.Sequential
import Harvest.Replay.Superseded

/-!
# Replaying a redriven run

The calls of a sequential run on its own history and on the history with failing cycles after it.
What a call answers depends on the events that are ahead only, and those are the same.

Proved here:
* `walkLoop_calm`, `signalLoop_calm`: a scan over the records of activities, timers and version
  gates finds what is ahead, and stashes nothing.
* `isAnswered_of_calm`, `replay_of_stands`: two matchers with the same records ahead answer the
  same.
* `aheadFrom_redriven`: a new matcher on a redriven history has the done part ahead.
* `redriven_run_replays_as_its_done_part`: the answers on the two histories.
-/

namespace Harvest.Replay

open HistoryMatcher

/-! ## Calm events -/

/-- A record of an activity that completed, of a timer that fired or of a version gate. -/
def isCalm : WorkflowEvent → Bool
  | .activityScheduled .. | .activityStarted .. | .activityHeartbeat .. | .activityCompleted ..
  | .timerStarted .. | .timerFired .. | .markerRecorded .. => true
  | _ => false

/-- All these events are calm. -/
def Calm (ahead : List (WorkflowEvent × Nat)) : Prop := ∀ entry ∈ ahead, isCalm entry.1

section Calm

variable {ahead rest : List (WorkflowEvent × Nat)} {event : WorkflowEvent} {i : Nat}

theorem Calm.tail {entry : WorkflowEvent × Nat} (h : Calm (entry :: rest)) : Calm rest :=
  fun later hlater => h later (List.mem_cons_of_mem _ hlater)

theorem Calm.filter (h : Calm ahead) (p : WorkflowEvent × Nat → Bool) : Calm (ahead.filter p) :=
  fun entry hentry => h entry (List.mem_of_mem_filter hentry)

theorem isDrained_of_calm (h : isCalm event) : isDrained (event, i) = false := by
  cases event <;> first | rfl | cases h

theorem Calm.noExternal (h : Calm ahead) : NoExternal ahead := by
  intro entry hentry hexternal
  have hdrained : isDrained (entry.1, entry.2) = false := isDrained_of_calm (h entry hentry)
  rw [isDrained, hexternal, Bool.true_or] at hdrained
  cases hdrained

theorem Calm.dropWhile (h : Calm ahead) :
    ahead.dropWhile isDrained = ahead ∧ ahead.takeWhile isDrained = [] := by
  cases ahead with
  | nil => exact ⟨rfl, rfl⟩
  | cons entry rest =>
    have hentry : ¬ isDrained entry = true := by
      rw [isDrained_of_calm (h entry List.mem_cons_self)]
      exact Bool.false_ne_true
    exact ⟨List.dropWhile_cons_of_neg hentry, List.takeWhile_cons_of_neg hentry⟩

end Calm

/-! ## Scans over calm events -/

/-- The entry at which a scan for the target stops, and the first command before it. -/
def scanAhead (target : ScanTarget) :
    Option Nat → List (WorkflowEvent × Nat) → Option (WorkflowEvent × Nat) × Option Nat
  | first, [] => (none, first)
  | first, (event, i) :: rest =>
    if target.stopsAt (activityScanRole event) then (some (event, i), first)
    else if (activityScanRole event).isCommand then scanAhead target (first <|> some i) rest
    else scanAhead target first rest

theorem scanAhead_mem {target : ScanTarget} {first : Option Nat} {ahead : List (WorkflowEvent × Nat)}
    {stop : WorkflowEvent × Nat} (h : (scanAhead target first ahead).1 = some stop) :
    stop ∈ ahead := by
  induction ahead generalizing first with
  | nil => cases h
  | cons entry rest ih =>
    rw [scanAhead] at h
    split_ifs at h
    · obtain rfl := Option.some.inj h
      exact List.mem_cons_self
    · exact List.mem_cons_of_mem _ (ih h)
    · exact List.mem_cons_of_mem _ (ih h)

theorem scanAhead_command {target : ScanTarget} {first : Option Nat}
    {ahead : List (WorkflowEvent × Nat)} {command : Nat}
    (h : (scanAhead target first ahead).2 = some command) :
    first = some command ∨ ∃ event, (event, command) ∈ ahead := by
  induction ahead generalizing first with
  | nil => exact .inl h
  | cons entry rest ih =>
    rw [scanAhead] at h
    split_ifs at h
    · exact .inl h
    · rcases ih h with hfirst | ⟨event, hmem⟩
      · cases first with
        | none =>
          obtain rfl := Option.some.inj hfirst
          exact .inr ⟨entry.1, List.mem_cons_self⟩
        | some other => exact .inl hfirst
      · exact .inr ⟨event, List.mem_cons_of_mem _ hmem⟩
    · rcases ih h with hfirst | ⟨event, hmem⟩
      · exact .inl hfirst
      · exact .inr ⟨event, List.mem_cons_of_mem _ hmem⟩

namespace HistoryMatcher

variable {m : HistoryMatcher} {event : WorkflowEvent}

/-- **The walk over calm events** finds what is ahead, and changes nothing. -/
theorem walkLoop_calm (target : ScanTarget) (start n at' : Nat) (first : Option Nat)
    (hn : at' + n = m.events.length) (hcalm : Calm (m.aheadFrom at')) :
    (walkLoop never target start n at' first m).result =
      (((scanAhead target first (m.aheadFrom at')).1.map Prod.snd,
        (scanAhead target first (m.aheadFrom at')).2), m) := by
  induction n generalizing at' first with
  | zero =>
    rw [aheadFrom_end (by omega)]
    rfl
  | succ n ih =>
    have hlt : at' < m.events.length := by omega
    rw [walkLoop, never, if_neg Bool.false_ne_true]
    by_cases hconsumed : m.isConsumed at'
    · rw [if_pos hconsumed, aheadFrom_of_consumed hconsumed]
      rw [aheadFrom_of_consumed hconsumed] at hcalm
      exact ih (at' + 1) first (by omega) hcalm
    · obtain ⟨event, hevent⟩ : ∃ event, m.events[at']? = some event :=
        ⟨_, List.getElem?_eq_getElem hlt⟩
      rw [if_neg hconsumed, aheadFrom_cons hevent hconsumed, hevent]
      rw [aheadFrom_cons hevent hconsumed] at hcalm
      have hhere : isCalm event := hcalm _ List.mem_cons_self
      dsimp only
      rw [scanAhead]
      by_cases hstops : target.stopsAt (activityScanRole event)
      · rw [if_pos hstops, if_pos hstops]
        rfl
      · rw [if_neg hstops, if_neg hstops]
        cases event with
        | activityScheduled | timerStarted | markerRecorded =>
          exact ih (at' + 1) (first <|> some at') (by omega) hcalm.tail
        | activityStarted | activityHeartbeat | activityCompleted | timerFired =>
          exact ih (at' + 1) first (by omega) hcalm.tail
        | _ => cases hhere

/-- A wait for a signal goes past a calm event. -/
theorem signalScanStep_calm {at' : Nat} (hevent : m.events[at']? = some event) (hcalm : isCalm event)
    (name : String) (first : Option Nat) :
    ∃ command, m.signalScanStep at' name none none first = ((none, command), m) := by
  rw [signalScanStep, hevent]
  cases event with
  | timerStarted id duration =>
    dsimp only
    split_ifs
    · exact ⟨_, rfl⟩
    · exact ⟨_, rfl⟩
  | activityScheduled | activityStarted | activityHeartbeat | activityCompleted | timerFired
  | markerRecorded => exact ⟨_, rfl⟩
  | _ => cases hcalm

/-- **The wait over calm events** finds no signal. -/
theorem signalLoop_calm (name : String) (start n at' : Nat) (first : Option Nat)
    (hn : at' + n = m.events.length) (hcalm : Calm (m.aheadFrom at')) :
    (signalLoop never name none none start n at' first m).1 = .noMatch ∧
      (signalLoop never name none none start n at' first m).2.forgetIndex = m.forgetIndex := by
  induction n generalizing at' first with
  | zero => exact ⟨rfl, rfl⟩
  | succ n ih =>
    have hlt : at' < m.events.length := by omega
    rw [signalLoop, never, Bool.and_false, if_neg Bool.false_ne_true]
    by_cases hconsumed : m.isConsumed at'
    · rw [if_pos hconsumed]
      rw [aheadFrom_of_consumed hconsumed] at hcalm
      exact ih (at' + 1) first (by omega) hcalm
    · obtain ⟨event, hevent⟩ : ∃ event, m.events[at']? = some event :=
        ⟨_, List.getElem?_eq_getElem hlt⟩
      rw [aheadFrom_cons hevent hconsumed] at hcalm
      obtain ⟨command, hstep⟩ := signalScanStep_calm hevent (hcalm _ List.mem_cons_self) name first
      rw [if_neg hconsumed, hstep]
      exact ih (at' + 1) command (by omega) hcalm.tail

/-! ## Settling -/

theorem aheadFrom_eq_filter {i j : Nat} (h : i ≤ j) :
    m.aheadFrom j = (m.aheadFrom i).filter fun entry => decide (j ≤ entry.2) := by
  obtain ⟨n, rfl⟩ := Nat.exists_eq_add_of_le h
  induction n generalizing i with
  | zero =>
    refine (List.filter_eq_self.mpr fun entry hentry => ?_).symm
    exact decide_eq_true (mem_aheadFrom.mp hentry).1
  | succ n ih =>
    have hnext : i + (n + 1) = i + 1 + n := by omega
    by_cases hlt : i < m.events.length
    · by_cases hconsumed : m.isConsumed i
      · rw [aheadFrom_of_consumed hconsumed, hnext]
        exact ih (Nat.le_add_right _ _)
      · rw [aheadFrom_cons (List.getElem?_eq_getElem hlt) hconsumed,
          List.filter_cons_of_neg (by simp), hnext]
        exact ih (Nat.le_add_right _ _)
    · rw [aheadFrom_end (by omega), aheadFrom_end (by omega)]
      rfl

/-- What consuming the progress of an activity consumes, by the index or by a walk. -/
theorem consumeProgress_isConsumed {roles : List ScanRole} (hindexed : Indexed roles m)
    (id : ActivityExecId) {command terminal : Nat} (hterminal : terminal ≤ m.events.length)
    (j : Nat) :
    (m.consumeProgress id command terminal).isConsumed j = (m.isConsumed j ||
      (decide (command ≤ j) && decide (j < terminal) &&
        (m.events[j]?).any fun event => activityScanRole event = .progress id)) := by
  have hforget := (@Indexed.consumeProgress roles m hindexed id command terminal hterminal).1
  have hwalk : (m.forgetIndex.consumeProgress id command terminal).isConsumed j =
      (m.isConsumed j || (decide (command ≤ j) && decide (j < terminal) &&
        (m.events[j]?).any fun event => activityScanRole event = .progress id)) := by
    rw [consumeProgress, if_pos (.inr rfl), Bool.eq_iff_iff, isConsumed_iff, Bool.or_eq_true,
      isConsumed_iff]
    simp only [Finset.mem_union, Finset.mem_filter, Finset.mem_Ico, Bool.and_eq_true,
      decide_eq_true_eq]
    exact or_right_comm
  have hsame : (m.consumeProgress id command terminal).forgetIndex.isConsumed j =
      (m.forgetIndex.consumeProgress id command terminal).forgetIndex.isConsumed j := by
    rw [hforget]
  exact hsame.trans hwalk

end HistoryMatcher

/-- Settling at the stop takes the entry: the stop itself, and progress of its activity before it. -/
def settledBy (stop entry : WorkflowEvent × Nat) : Bool :=
  decide (entry.2 = stop.2) || (decide (entry.2 < stop.2) &&
    (settledActivity stop.1).any fun id => activityScanRole entry.1 = .progress id)

/-- What is ahead after a scan that settled at the stop. -/
def settledAhead (stop : WorkflowEvent × Nat) :
    Option Nat → List (WorkflowEvent × Nat) → List (WorkflowEvent × Nat)
  | none, ahead => ahead.filter fun entry => decide (stop.2 + 1 ≤ entry.2)
  | some command, ahead =>
    (ahead.filter fun entry => decide (command ≤ entry.2)).filter fun entry =>
      ! settledBy stop entry

namespace HistoryMatcher

variable {m : HistoryMatcher} {event : WorkflowEvent}

/-- **Settling** takes from what is ahead. -/
theorem settleTerminal_ahead {roles : List ScanRole} (hindexed : Indexed roles m) {start stop : Nat}
    (hevent : m.events[stop]? = some event) (hstart : start ≤ stop) (first : Option Nat)
    (hfirst : ∀ command ∈ first, start ≤ command) :
    (m.settleTerminal stop first).ahead = settledAhead (event, stop) first (m.aheadFrom start) := by
  have hlt : stop < m.events.length := (List.getElem?_eq_some_iff.mp hevent).1
  cases first with
  | none =>
    rw [settleTerminal, advance_ahead]
    exact @aheadFrom_eq_filter m start (stop + 1) (by omega)
  | some command =>
    let taken : HistoryMatcher :=
      { m with consumedOutOfOrderEvents := insert stop m.consumedOutOfOrderEvents }
    have htaken (j : Nat) : taken.isConsumed j = (m.isConsumed j || decide (j = stop)) := by
      rw [Bool.eq_iff_iff, isConsumed_iff, Bool.or_eq_true, isConsumed_iff, decide_eq_true_eq]
      simp only [taken, Finset.mem_insert]
      tauto
    have hindexed' : Indexed roles taken := hindexed.grow rfl rfl fun j hj => by
      rw [htaken, hj]
      rfl
    have hgone (settled : HistoryMatcher) (hevents : settled.events = m.events)
        (hconsumed : ∀ j, settled.isConsumed j = (m.isConsumed j || (decide (j = stop) ||
          (decide (command ≤ j) && decide (j < stop) && (settledActivity event).any fun id =>
            (m.events[j]?).any fun event => activityScanRole event = .progress id)))) :
        settled.aheadFrom command = settledAhead (event, stop) (some command) (m.aheadFrom start) := by
      rw [aheadFrom_filter hevents hconsumed, settledAhead,
        ← aheadFrom_eq_filter (hfirst command rfl)]
      refine List.filter_congr fun entry hentry => ?_
      obtain ⟨hle, hat, -⟩ := mem_aheadFrom.mp hentry
      rw [hat, decide_eq_true hle, Bool.true_and]
      rfl
    rw [settleTerminal]
    dsimp only
    rw [hevent, advance_ahead, Option.bind_some]
    cases hid : settledActivity event with
    | none =>
      refine hgone taken rfl fun j => ?_
      rw [htaken, hid, Option.any_none, Bool.and_false, Bool.or_false]
    | some id =>
      refine hgone (taken.consumeProgress id command stop) ?_ fun j => ?_
      · rw [consumeProgress]
        split_ifs
        · rfl
        · rfl
      · rw [consumeProgress_isConsumed hindexed' id hlt.le, htaken, hid, Option.any_some,
          Bool.or_assoc]

/-- Settling stashes nothing. -/
theorem settleTerminal_stashes (m : HistoryMatcher) (stop : Nat) (first : Option Nat) :
    (m.settleTerminal stop first).pendingSignals = m.pendingSignals ∧
      (m.settleTerminal stop first).external = m.external := by
  unfold settleTerminal
  cases first with
  | none => exact ⟨rfl, rfl⟩
  | some command =>
    dsimp only
    cases (m.events[stop]?).bind settledActivity with
    | none => exact ⟨rfl, rfl⟩
    | some id =>
      dsimp only [consumeProgress]
      split_ifs
      · exact ⟨rfl, rfl⟩
      · exact ⟨rfl, rfl⟩

/-! ## What a scan leaves ahead -/

/-- **The scan over calm events**, by the index or by a walk. -/
theorem findScanStop_calm {roles : List ScanRole} (hindexed : Indexed roles m)
    (hcursor : m.cursor ≤ m.events.length) (hcalm : Calm m.ahead) (target : ScanTarget) :
    ∃ m', m.findScanStop target m.cursor =
        (((scanAhead target none m.ahead).1.map Prod.snd, (scanAhead target none m.ahead).2), m') ∧
      m'.forgetIndex = m.forgetIndex ∧ Indexed roles m' := by
  obtain ⟨hresult, hforget, hindexed', -⟩ :=
    hindexed.findScanStopWith m.leavesWalk target m.cursor
  rw [walkLoop_calm target m.cursor _ m.cursor none (Nat.add_sub_of_le hcursor) hcalm]
    at hresult hforget
  exact ⟨(m.findScanStop target m.cursor).2, Prod.ext hresult rfl, hforget, hindexed'⟩

/-- The first command that a scan met is ahead. -/
theorem cursor_le_command {target : ScanTarget} {command : Nat}
    (h : (scanAhead target none m.ahead).2 = some command) : m.cursor ≤ command := by
  rcases scanAhead_command h with hnone | ⟨event, hmem⟩
  · cases hnone
  · exact (mem_aheadFrom.mp hmem).1

/-- Two matchers that differ in the index only. -/
theorem eq_of_forgetIndex {m' : HistoryMatcher} (h : m'.forgetIndex = m.forgetIndex) :
    m'.events = m.events ∧ (∀ i, m'.isConsumed i = m.isConsumed i) ∧ m'.ahead = m.ahead ∧
      m'.pendingSignals = m.pendingSignals ∧ m'.external = m.external := by
  have hevents : m'.forgetIndex.events = m.forgetIndex.events := by rw [h]
  have hconsumed (i : Nat) : m'.forgetIndex.isConsumed i = m.forgetIndex.isConsumed i := by rw [h]
  have hahead : m'.forgetIndex.ahead = m.forgetIndex.ahead := by rw [h]
  have hpending : m'.forgetIndex.pendingSignals = m.forgetIndex.pendingSignals := by rw [h]
  have hexternal : m'.forgetIndex.external = m.forgetIndex.external := by rw [h]
  exact ⟨hevents, hconsumed, hahead, hpending, hexternal⟩

theorem moves_of_forgetIndex {m' : HistoryMatcher} (h : m'.forgetIndex = m.forgetIndex) :
    Moves m m' [] m.ahead := by
  obtain ⟨-, -, hahead, hpending, hexternal⟩ := eq_of_forgetIndex h
  refine ⟨hahead, ?_, hexternal⟩
  rw [hpending, List.filterMap_nil, List.append_nil]

/-- Another event at one position changes nothing else ahead. -/
theorem aheadFrom_filter_congr {m' : HistoryMatcher} {stop : Nat}
    (hlength : m'.events.length = m.events.length)
    (hevents : ∀ k, k ≠ stop → m'.events[k]? = m.events[k]?)
    (hconsumed : ∀ k, m'.isConsumed k = m.isConsumed k) (i : Nat) :
    ((m'.aheadFrom i).filter fun entry => ! decide (entry.2 = stop)) =
      (m.aheadFrom i).filter fun entry => ! decide (entry.2 = stop) := by
  obtain ⟨n, hn⟩ : ∃ n, m.events.length - i = n := ⟨_, rfl⟩
  induction n generalizing i with
  | zero => rw [aheadFrom_end (by omega), aheadFrom_end (by omega)]
  | succ n ih =>
    have hlt : i < m.events.length := by omega
    have hlater := ih (i + 1) (by omega)
    by_cases hhere : m.isConsumed i
    · rw [aheadFrom_of_consumed hhere, aheadFrom_of_consumed ((hconsumed i).trans hhere)]
      exact hlater
    · obtain ⟨event, hevent⟩ : ∃ event, m.events[i]? = some event :=
        ⟨_, List.getElem?_eq_getElem hlt⟩
      obtain ⟨event', hevent'⟩ : ∃ event, m'.events[i]? = some event :=
        ⟨_, List.getElem?_eq_getElem (hlt.trans_eq hlength.symm)⟩
      rw [aheadFrom_cons hevent hhere, aheadFrom_cons hevent' (by rwa [hconsumed])]
      by_cases heq : i = stop
      · rw [List.filter_cons_of_neg (by simp [heq]), List.filter_cons_of_neg (by simp [heq])]
        exact hlater
      · obtain rfl : event' = event := by
          rw [hevents i heq, hevent] at hevent'
          exact (Option.some.inj hevent').symm
        rw [List.filter_cons_of_pos (by simp [heq]), List.filter_cons_of_pos (by simp [heq]), hlater]

end HistoryMatcher

theorem settledAhead_filter (stop : WorkflowEvent × Nat) (first : Option Nat)
    (ahead : List (WorkflowEvent × Nat)) :
    settledAhead stop first (ahead.filter fun entry => ! decide (entry.2 = stop.2)) =
      settledAhead stop first ahead := by
  cases first with
  | none =>
    rw [settledAhead, settledAhead, List.filter_filter]
    refine List.filter_congr fun entry _ => ?_
    rw [Bool.and_eq_left_iff_imp, decide_eq_true_eq, Bool.not_eq_true', decide_eq_false_iff_not]
    omega
  | some command =>
    rw [settledAhead, settledAhead, List.filter_filter, List.filter_filter, List.filter_filter]
    refine List.filter_congr fun entry _ => ?_
    cases hstop : decide (entry.2 = stop.2) with
    | true => simp [settledBy, hstop]
    | false => simp

/-- What is ahead after a scan that found no end. -/
def reopenedAhead : Option Nat → List (WorkflowEvent × Nat) → List (WorkflowEvent × Nat)
  | none, ahead => ahead
  | some command, ahead => ahead.filter fun entry => decide (command ≤ entry.2)

/-- What a scan for the end of the activity answers, and what it leaves ahead. -/
def activityOutcome (id : ActivityExecId) (ahead : List (WorkflowEvent × Nat)) :
    HistoryMatch × List (WorkflowEvent × Nat) :=
  let (stop, first) := scanAhead (.activity id) none ahead
  match stop.bind fun stop => (activityResult stop.1).map fun result => (stop, result) with
  | some (stop, result) => (result, settledAhead stop first ahead)
  | none => (.activityInProgress id, reopenedAhead first ahead)

/-- What a scan for the fire of the timer answers, and what it leaves ahead. -/
def timerOutcome (name : String) (ahead : List (WorkflowEvent × Nat)) :
    HistoryMatch × List (WorkflowEvent × Nat) :=
  let (stop, first) := scanAhead (.timer name) none ahead
  match stop with
  | some stop => (.matched .null, settledAhead stop first ahead)
  | none => (.noMatch, ahead)

theorem settledAhead_congr {stop stop' : WorkflowEvent × Nat} (hposition : stop'.2 = stop.2)
    (hactivity : settledActivity stop'.1 = settledActivity stop.1) (first : Option Nat)
    (ahead : List (WorkflowEvent × Nat)) :
    settledAhead stop' first ahead = settledAhead stop first ahead := by
  cases first with
  | none => rw [settledAhead, settledAhead, hposition]
  | some command =>
    rw [settledAhead, settledAhead]
    refine List.filter_congr fun entry _ => ?_
    rw [settledBy, settledBy, hposition, hactivity]

namespace HistoryMatcher

variable {m : HistoryMatcher} {roles : List ScanRole}

/-- A scan that stopped at an entry ahead, and settled there. The event of the stop may have
changed. -/
theorem settled_moves {settling : HistoryMatcher} (hindexed : Indexed roles settling)
    {target : ScanTarget} {stop : WorkflowEvent × Nat}
    (hstop : (scanAhead target none m.ahead).1 = some stop) {event : WorkflowEvent}
    (hevent : settling.events[stop.2]? = some event)
    (hactivity : settledActivity event = settledActivity stop.1)
    (hlength : settling.events.length = m.events.length)
    (hevents : ∀ k, k ≠ stop.2 → settling.events[k]? = m.events[k]?)
    (hconsumed : ∀ k, settling.isConsumed k = m.isConsumed k)
    (hpending : settling.pendingSignals = m.pendingSignals)
    (hexternal : settling.external = m.external) :
    Moves m (settling.settleTerminal stop.2 (scanAhead target none m.ahead).2) []
      (settledAhead stop (scanAhead target none m.ahead).2 m.ahead) := by
  have hle : m.cursor ≤ stop.2 := (mem_aheadFrom.mp (scanAhead_mem hstop)).1
  obtain ⟨hpending', hexternal'⟩ :=
    settleTerminal_stashes settling stop.2 (scanAhead target none m.ahead).2
  refine ⟨?_, ?_, hexternal'.trans hexternal⟩
  · calc (settling.settleTerminal stop.2 (scanAhead target none m.ahead).2).ahead
        = settledAhead (event, stop.2) (scanAhead target none m.ahead).2
            (settling.aheadFrom m.cursor) := settleTerminal_ahead hindexed hevent hle _ fun _ => cursor_le_command
      _ = settledAhead stop (scanAhead target none m.ahead).2 (settling.aheadFrom m.cursor) :=
          @settledAhead_congr stop (event, stop.2) rfl hactivity _ _
      _ = settledAhead stop (scanAhead target none m.ahead).2 m.ahead := by
          rw [← settledAhead_filter, aheadFrom_filter_congr hlength hevents hconsumed,
            settledAhead_filter]
          rfl
  · rw [List.filterMap_nil, List.append_nil, hpending', hpending]

theorem settledActivity_takeOutput (event : WorkflowEvent) :
    settledActivity (takeOutput event) = settledActivity event := by
  cases event <;> rfl

/-- **The scan for the end of an activity**, over calm events. -/
theorem scanActivityTerminal_calm (hindexed : Indexed roles m) (hcursor : m.cursor ≤ m.events.length)
    (hcalm : Calm m.ahead) (id : ActivityExecId) :
    (m.scanActivityTerminal id m.cursor).1 = (activityOutcome id m.ahead).1 ∧
      Moves m (m.scanActivityTerminal id m.cursor).2 [] (activityOutcome id m.ahead).2 := by
  obtain ⟨m', hscan, hforget, hindexed'⟩ :=
    findScanStop_calm hindexed hcursor hcalm (.activity id)
  have hmoves := moves_of_forgetIndex hforget
  obtain ⟨hevents, hconsumed, -, hpending, hexternal⟩ := eq_of_forgetIndex hforget
  have hreopened (first : Option Nat) (hfirst : ∀ command ∈ first, m.cursor ≤ command) :
      Moves m (m'.rewindOpenActivity id first).2 [] (reopenedAhead first m.ahead) := by
    cases first with
    | none => exact hmoves
    | some command =>
      refine ⟨?_, hmoves.pending, hmoves.external⟩
      rw [rewindOpenActivity, advance_ahead]
      refine (aheadFrom_congr (congrArg (List.drop command) hevents) fun j _ => hconsumed j).trans ?_
      exact aheadFrom_eq_filter (hfirst command rfl)
  rw [findScanStop] at hscan
  rw [scanActivityTerminal, scanActivityTerminalWith, hscan, activityOutcome]
  dsimp only
  cases hstop : (scanAhead (.activity id) none m.ahead).1 with
  | none => exact ⟨rfl, hreopened _ fun _ => cursor_le_command⟩
  | some stop =>
    have hat : m'.events[stop.2]? = some stop.1 := by
      rw [hevents]
      exact (mem_aheadFrom.mp (scanAhead_mem hstop)).2.1
    dsimp only [Option.map_some, Option.bind_some]
    rw [hat, Option.bind_some]
    cases activityResult stop.1 with
    | none => exact ⟨rfl, hreopened _ fun _ => cursor_le_command⟩
    | some result =>
      have hmodify : (m'.events.modify stop.2 takeOutput)[stop.2]? = some (takeOutput stop.1) := by
        rw [List.getElem?_modify_eq, hat]
        rfl
      refine ⟨rfl, settled_moves (indexed_takeOutput hindexed' stop.2) hstop hmodify
        (settledActivity_takeOutput stop.1) ?_ (fun k hk => ?_) hconsumed hpending hexternal⟩
      · rw [List.length_modify, hevents]
      · rw [List.getElem?_modify_ne _ _ hk.symm, hevents]

/-- A scan over calm events that settles where it stopped. -/
theorem findScanStop_moves (hindexed : Indexed roles m) (hcursor : m.cursor ≤ m.events.length)
    (hcalm : Calm m.ahead) (target : ScanTarget) :
    ∃ m', m.findScanStop target m.cursor =
        (((scanAhead target none m.ahead).1.map Prod.snd, (scanAhead target none m.ahead).2), m') ∧
      Moves m m' [] m.ahead ∧
      ∀ stop, (scanAhead target none m.ahead).1 = some stop →
        Moves m (m'.settleTerminal stop.2 (scanAhead target none m.ahead).2) []
          (settledAhead stop (scanAhead target none m.ahead).2 m.ahead) := by
  obtain ⟨m', hscan, hforget, hindexed'⟩ := findScanStop_calm hindexed hcursor hcalm target
  obtain ⟨hevents, hconsumed, -, hpending, hexternal⟩ := eq_of_forgetIndex hforget
  refine ⟨m', hscan, moves_of_forgetIndex hforget, fun stop hstop => ?_⟩
  have hat : m'.events[stop.2]? = some stop.1 := by
    rw [hevents]
    exact (mem_aheadFrom.mp (scanAhead_mem hstop)).2.1
  exact settled_moves hindexed' hstop hat rfl (by rw [hevents]) (fun k _ => by rw [hevents])
    hconsumed hpending hexternal

end HistoryMatcher

/-! ## Where a matcher stands -/

/-- Calls on a history brought the matcher here. -/
def IsServed (m : HistoryMatcher) : Prop :=
  ∃ history returned, Served history returned ⟨m, []⟩

/-- After a step that returned no signal. -/
theorem IsServed.silent {history : List WorkflowEvent} {returned : List (String × Json)}
    {m m' : HistoryMatcher} (h : Served history returned ⟨m, []⟩)
    (hserves : Serves (history.map activityScanRole) m [] m') : IsServed m' := by
  have hserved : Served history (returned ++ []) ⟨m', []⟩ := (h.serves hserves rfl).1
  exact ⟨history, _, hserved⟩

/-- The matcher has these events ahead, and nothing stashed. At the end of the history no call reads
the index. -/
structure Stands (m : HistoryMatcher) (entries : List (WorkflowEvent × Nat)) : Prop where
  ahead : m.ahead = entries
  external : m.external = .new
  pending : m.pendingSignals.entries = []
  served : entries ≠ [] → IsServed m

namespace Stands

variable {m m' : HistoryMatcher} {ahead rest : List (WorkflowEvent × Nat)}
  {event : WorkflowEvent} {i : Nat}

/-- After a call that stashed nothing. -/
theorem moves (h : Stands m ahead) (hmoves : Moves m m' [] rest) (hserved : IsServed m') :
    Stands m' rest :=
  ⟨hmoves.ahead, hmoves.external.trans h.external, by
    rw [hmoves.pending, h.pending]
    rfl, fun _ => hserved⟩

/-- Preparing a match leaves what is ahead. -/
theorem prepared (h : Stands m ahead) (hcalm : Calm ahead) :
    m.prepareMatch.AtHead ∧ Stands m.prepareMatch ahead := by
  obtain ⟨hdrop, htake⟩ := hcalm.dropWhile
  have hnone := hcalm.noExternal
  rw [← h.ahead] at hnone hdrop htake
  obtain ⟨hhead, hahead, hstashes⟩ := prepareMatch_ahead h.external hnone
  refine ⟨hhead, hahead.trans (hdrop.trans h.ahead), hstashes.external.trans h.external, ?_, ?_⟩
  · rw [hstashes.pending, htake, h.pending]
    rfl
  · intro hne
    obtain ⟨history, returned, hserved⟩ := h.served hne
    exact .silent hserved (prepareMatch_serves hserved.indexed hserved.mail.clear)

theorem isReplaying (h : Stands m ahead) : m.isReplaying = ! ahead.isEmpty := by
  rw [isReplaying_eq, h.ahead]

/-- Where the matcher stands, when something is ahead. -/
theorem cons (h : Stands m ((event, i) :: rest)) (hhead : m.AtHead) :
    m.cursor = i ∧ m.isReplaying = true ∧ m.events[i]? = some event ∧
      m.actualAtCursor = actualEventName event := by
  obtain ⟨hcursor, hreplaying, hevent, -, -⟩ := hhead.cons h.ahead
  refine ⟨hcursor, hreplaying, hevent, ?_⟩
  rw [actualAtCursor, hcursor, hevent]
  rfl

theorem advanced (h : Stands m []) : Stands m.advanceToNextUnconsumedEvent [] :=
  ⟨(advance_ahead m).trans h.ahead, h.external, h.pending, fun hne => absurd rfl hne⟩

end Stands

/-! ## Answers -/

/-- Wherever a matcher has these events ahead, the call answers so and leaves those ahead. -/
def Answers (showJson : Json → String) (asked : SequentialCall) (ahead : List (WorkflowEvent × Nat))
    (answer : CallResult) (rest : List (WorkflowEvent × Nat)) : Prop :=
  ∀ m, Stands m ahead →
    (asked.exec showJson m).1 = answer ∧ Stands (asked.exec showJson m).2 rest

/-- What the call answers, and what it leaves ahead, depend on what is ahead only. -/
def IsAnswered (showJson : Json → String) (asked : SequentialCall)
    (ahead : List (WorkflowEvent × Nat)) : Prop :=
  ∃ answer rest, Calm rest ∧ Answers showJson asked ahead answer rest

/-- What a call answers at the end of the history. -/
def atEnd : SequentialCall → CallResult
  | .version _ _ maxVersion _ => .version maxVersion
  | _ => .result .noMatch

theorem Calm.nil : Calm [] := fun _ hentry => absurd hentry List.not_mem_nil

theorem Calm.settledAhead {ahead : List (WorkflowEvent × Nat)} (h : Calm ahead)
    (stop : WorkflowEvent × Nat) (first : Option Nat) : Calm (settledAhead stop first ahead) := by
  cases first with
  | none => exact h.filter _
  | some command => exact (h.filter _).filter _

theorem Calm.activityOutcome {ahead : List (WorkflowEvent × Nat)} (h : Calm ahead)
    (id : ActivityExecId) : Calm (activityOutcome id ahead).2 := by
  unfold Harvest.Replay.activityOutcome
  dsimp only
  split
  · exact h.settledAhead _ _
  · cases (scanAhead (.activity id) none ahead).2 with
    | none => exact h
    | some command => exact h.filter _

theorem Calm.timerOutcome {ahead : List (WorkflowEvent × Nat)} (h : Calm ahead) (name : String) :
    Calm (timerOutcome name ahead).2 := by
  unfold Harvest.Replay.timerOutcome
  dsimp only
  split
  · exact h.settledAhead _ _
  · exact h

section Answers

variable {showJson : Json → String} {m : HistoryMatcher} {ahead rest : List (WorkflowEvent × Nat)}
  {event : WorkflowEvent} {i : Nat}

/-- A wait with nothing in the stash looks ahead. -/
theorem claimBufferedSignal_of_empty (h : m.pendingSignals.entries = []) (name : String) :
    m.claimBufferedSignal name none = (none, m) := by
  have hofName : m.pendingSignals.ofName name = [] := by
    rw [SignalStash.ofName, h]
    rfl
  have hremove : (m.pendingSignals.removeFirst name fun entry =>
      accepts none entry.index entry.payload) = none := by
    rw [SignalStash.removeFirst, h]
    rfl
  rw [claimBufferedSignal, hofName]
  simp only [List.takeWhile_nil, List.map_nil, List.toFinset_nil, Finset.union_empty, hremove]

/-- **At the end.** -/
theorem answers_atEnd (asked : SequentialCall) :
    Answers showJson asked [] (atEnd asked) [] := by
  intro m h
  obtain ⟨-, hprepared⟩ := h.prepared .nil
  have hadvanced := h.advanced
  cases asked with
  | activity id name input queue progress ended =>
    have hmatch : m.matchActivity name = (.noMatch, m.prepareMatch) :=
      if_pos (by rw [hprepared.isReplaying]; rfl)
    rw [SequentialCall.exec, hmatch]
    exact ⟨rfl, hprepared⟩
  | timer id duration strict =>
    have hmatch : m.matchTimerStrict id.name (if strict then some duration else none) =
        (.noMatch, m.prepareMatch) := if_pos (by rw [hprepared.isReplaying]; rfl)
    rw [SequentialCall.exec, hmatch]
    exact ⟨rfl, hprepared⟩
  | childWorkflow id name input ended =>
    have hmatch : m.matchChildWorkflow showJson name input = (.noMatch, m.prepareMatch) :=
      if_pos (by rw [hprepared.isReplaying]; rfl)
    rw [SequentialCall.exec, hmatch]
    exact ⟨rfl, hprepared⟩
  | signal name payload =>
    have hmatch : m.matchSignal name = (.noMatch, m.advanceToNextUnconsumedEvent) := by
      rw [matchSignal, matchSignalInner, matchSignalInnerWith,
        claimBufferedSignal_of_empty h.pending]
      exact if_pos (by rw [hadvanced.isReplaying]; rfl)
    rw [SequentialCall.exec, hmatch]
    exact ⟨rfl, hadvanced⟩
  | version changeId minVersion maxVersion recorded =>
    have hmatch : m.matchVersion changeId minVersion maxVersion =
        (maxVersion, { m.advanceToNextUnconsumedEvent with
          patchIdsRecordedThisCycle :=
            insert changeId m.advanceToNextUnconsumedEvent.patchIdsRecordedThisCycle }) :=
      if_pos (by rw [hadvanced.isReplaying]; rfl)
    rw [SequentialCall.exec, hmatch]
    exact ⟨rfl, hadvanced.ahead, hadvanced.external, hadvanced.pending, fun hne => absurd rfl hne⟩

/-- A call that does not match what it stands at leaves it there. -/
theorem isAnswered_of_prepared {asked : SequentialCall} (answer : CallResult)
    (hcalm : Calm ((event, i) :: rest))
    (hexec : ∀ m : HistoryMatcher, m.prepareMatch.cursor = i → m.prepareMatch.isReplaying = true →
      m.prepareMatch.events[i]? = some event →
      m.prepareMatch.actualAtCursor = actualEventName event →
      asked.exec showJson m = (answer, m.prepareMatch)) :
    IsAnswered showJson asked ((event, i) :: rest) := by
  refine ⟨answer, _, hcalm, fun m h => ?_⟩
  obtain ⟨hhead, hprepared⟩ := h.prepared hcalm
  obtain ⟨hcursor, hreplaying, hevent, hactual⟩ := hprepared.cons hhead
  rw [hexec m hcursor hreplaying hevent hactual]
  exact ⟨rfl, hprepared⟩

/-- What a matcher has ahead past the command it stands at, and its index there. -/
theorem Stands.past (h : Stands m ((event, i) :: rest)) (hhead : m.AtHead) :
    ∃ roles, Indexed roles { m with cursor := m.cursor + 1 } ∧ m.cursor + 1 ≤ m.events.length ∧
      ({ m with cursor := m.cursor + 1 } : HistoryMatcher).ahead = rest := by
  obtain ⟨history, returned, hserved⟩ := h.served (List.cons_ne_nil _ _)
  obtain ⟨rfl, -, -, hlt, hrest⟩ := hhead.cons h.ahead
  exact ⟨_, ⟨hserved.indexed.agree, hserved.indexed.index⟩, hlt, hrest⟩

/-- A call of an activity at its command looks for the end ahead. -/
theorem answers_activity_taken {id recordedId : ActivityExecId} {name : String}
    {input recordedInput : Json} {queue recordedQueue : String} {progress : List Progress}
    {ended : ActivityEnd}
    (hcalm : Calm ((.activityScheduled recordedId name recordedInput recordedQueue, i) :: rest)) :
    Answers showJson (.activity id name input queue progress ended)
      ((.activityScheduled recordedId name recordedInput recordedQueue, i) :: rest)
      (.result (activityOutcome recordedId rest).1) (activityOutcome recordedId rest).2 := by
  intro m h
  obtain ⟨history, returned, hserved⟩ := h.served (List.cons_ne_nil _ _)
  obtain ⟨more, hafter⟩ := hserved.exec_served (fun _ => "") (.matchActivity name)
  obtain ⟨hhead, hprepared⟩ := h.prepared hcalm
  obtain ⟨hcursor, hreplaying, hevent, -⟩ := hprepared.cons hhead
  obtain ⟨roles, hindexed, hle, hrest⟩ := hprepared.past hhead
  have hmatch : m.matchActivity name = { m.prepareMatch with
      cursor := m.prepareMatch.cursor + 1 }.scanActivityTerminal recordedId
        (m.prepareMatch.cursor + 1) := by
    rw [matchActivity]
    simp only [hreplaying, hcursor, hevent, Bool.not_true, Bool.false_eq_true, if_false, ne_eq,
      not_true_eq_false]
  obtain ⟨hresult, hmoves⟩ := scanActivityTerminal_calm hindexed hle
    (hrest.symm ▸ hcalm.tail) recordedId
  rw [hrest] at hresult hmoves
  rw [SequentialCall.exec]
  have hserved' : IsServed (m.matchActivity name).2 := ⟨history, more, hafter⟩
  rw [hmatch] at hserved' ⊢
  exact ⟨congrArg CallResult.result hresult,
    hprepared.moves ⟨hmoves.ahead, hmoves.pending, hmoves.external⟩ hserved'⟩

/-- A call of a timer at its command looks for the fire ahead. -/
theorem answers_timer_taken {id recordedId : TimerId} {duration recorded : UInt64} {strict : Bool}
    (hname : recordedId.name = id.name)
    (hsame : durationDiffers (if strict then some duration else none) recorded = none)
    (hcalm : Calm ((.timerStarted recordedId recorded, i) :: rest)) :
    Answers showJson (.timer id duration strict) ((.timerStarted recordedId recorded, i) :: rest)
      (.result (timerOutcome id.name rest).1) (timerOutcome id.name rest).2 := by
  intro m h
  obtain ⟨history, returned, hserved⟩ := h.served (List.cons_ne_nil _ _)
  obtain ⟨more, hafter⟩ := hserved.exec_served (fun _ => "")
    (.matchTimerStrict id.name (if strict then some duration else none))
  have hserved' : IsServed (m.matchTimerStrict id.name
      (if strict then some duration else none)).2 := ⟨history, more, hafter⟩
  obtain ⟨hhead, hprepared⟩ := h.prepared hcalm
  obtain ⟨hcursor, hreplaying, hevent, -⟩ := hprepared.cons hhead
  obtain ⟨roles, hindexed, hle, hrest⟩ := hprepared.past hhead
  obtain ⟨m', hscan, hmoves, hsettled⟩ := findScanStop_moves hindexed hle
    (hrest.symm ▸ hcalm.tail) (.timer id.name)
  rw [hrest] at hscan hmoves hsettled
  rw [SequentialCall.exec]
  dsimp only
  rw [matchTimerStrict] at hserved' ⊢
  simp only [hreplaying, hcursor, hevent, Bool.not_true, Bool.false_eq_true, if_false, ne_eq,
    not_true_eq_false, hname, hsame] at hserved' ⊢
  simp only [hcursor] at hscan
  rw [hscan] at hserved' ⊢
  rw [timerOutcome]
  dsimp only at hserved' ⊢
  cases hstop : (scanAhead (.timer id.name) none rest).1 with
  | none =>
    rw [hstop] at hserved'
    exact ⟨rfl, hprepared.moves ⟨hmoves.ahead, hmoves.pending, hmoves.external⟩ hserved'⟩
  | some stop =>
    rw [hstop] at hserved'
    have hmoves' := hsettled stop hstop
    exact ⟨rfl, hprepared.moves ⟨hmoves'.ahead, hmoves'.pending, hmoves'.external⟩ hserved'⟩

/-- A version gate at its marker reads it. -/
theorem answers_version_taken {changeId : String} {minVersion maxVersion recorded : UInt32}
    {details : Json}
    (hcalm : Calm ((.markerRecorded (versionMarkerName changeId) details, i) :: rest)) :
    Answers showJson (.version changeId minVersion maxVersion recorded)
      ((.markerRecorded (versionMarkerName changeId) details, i) :: rest)
      (.version ((asU32 details).getD minVersion)) rest := by
  intro m h
  obtain ⟨hdrop, htake⟩ := hcalm.dropWhile
  have hnone := hcalm.noExternal
  rw [← h.ahead] at hnone htake
  have hahead : m.ahead.dropWhile isDrained =
      (.markerRecorded (versionMarkerName changeId) details, i) :: rest := by
    rw [h.ahead, hdrop]
  have heq := @matchVersion_eq m i changeId details minVersion maxVersion rest h.external hnone hahead
  have hmoves := @matchVersion_ahead m i changeId details minVersion maxVersion rest h.external hnone
    hahead
  rw [htake] at hmoves
  obtain ⟨history, returned, hserved⟩ := h.served (List.cons_ne_nil _ _)
  have hprepared := prepareMatch_serves hserved.indexed hserved.mail.clear
  obtain ⟨-, hclear, -⟩ := prepareMatch_goes hserved.mail.clear
  obtain ⟨hhead, hstands⟩ := h.prepared hcalm
  obtain ⟨rfl, -, hevent, hlt, -⟩ := hhead.cons hstands.ahead
  obtain ⟨-, hpast⟩ := pass_command hprepared.indexed hclear hevent (by simp [activityScanRole])
  have hserved' : IsServed (m.matchVersion changeId minVersion maxVersion).2 := by
    rw [heq]
    exact .silent hserved (hprepared.after (settle_serves hprepared.indexed hlt hlt hpast))
  rw [SequentialCall.exec]
  exact ⟨congrArg (fun answer => CallResult.version answer.1) heq, h.moves hmoves hserved'⟩

/-- A wait for a signal finds none among calm events. -/
theorem answers_signal {name : String} {payload : Json} (hcalm : Calm ((event, i) :: rest)) :
    Answers showJson (.signal name payload) ((event, i) :: rest) (.result .noMatch)
      ((event, i) :: rest) := by
  intro m h
  obtain ⟨history, returned, hserved⟩ := h.served (List.cons_ne_nil _ _)
  obtain ⟨more, hafter⟩ := hserved.exec_served (fun _ => "") (.matchSignal name)
  have hserved' : IsServed (m.matchSignal name).2 := ⟨history, more, hafter⟩
  have hreplaying : m.advanceToNextUnconsumedEvent.isReplaying = true := by
    rw [isReplaying_eq, advance_ahead, h.ahead]
    rfl
  have hahead : m.advanceToNextUnconsumedEvent.ahead = (event, i) :: rest := by
    rw [advance_ahead, h.ahead]
  have hlt := cursor_lt_of_isReplaying _ hreplaying
  obtain ⟨hwalk, hforget⟩ := @signalLoop_calm m.advanceToNextUnconsumedEvent name
    m.advanceToNextUnconsumedEvent.cursor _ _ none (Nat.add_sub_of_le hlt.le) (by
      rw [← HistoryMatcher.ahead, hahead]
      exact hcalm)
  have hnever : m.matchSignalInnerWith never name none none =
      signalLoop never name none none m.advanceToNextUnconsumedEvent.cursor
        (m.advanceToNextUnconsumedEvent.events.length - m.advanceToNextUnconsumedEvent.cursor)
        m.advanceToNextUnconsumedEvent.cursor none m.advanceToNextUnconsumedEvent := by
    rw [matchSignalInnerWith, claimBufferedSignal_of_empty h.pending]
    dsimp only
    rw [hreplaying]
    rfl
  obtain ⟨⟨hresult, hindex⟩, -⟩ :=
    hserved.indexed.matchSignalInnerWith m.leavesWalk name none none
  rw [hnever] at hresult hindex
  have hmoves := moves_of_forgetIndex (hindex.trans hforget)
  rw [hahead] at hmoves
  rw [SequentialCall.exec]
  exact ⟨congrArg CallResult.result (hresult.trans hwalk),
    h.moves ⟨hmoves.ahead, hmoves.pending, hmoves.external⟩ hserved'⟩

/-- A call of an activity, wherever it stands. -/
theorem isAnswered_activity {id : ActivityExecId} {name : String} {input : Json} {queue : String}
    {progress : List Progress} {ended : ActivityEnd} (hcalm : Calm ((event, i) :: rest)) :
    IsAnswered showJson (.activity id name input queue progress ended) ((event, i) :: rest) := by
  let diverged (actual : String) : CallResult :=
    .result (.diverged ("ActivityScheduled(" ++ name ++ ")") actual (toI32 i))
  by_cases hcommand : ∃ recordedId recorded recordedInput recordedQueue,
      event = .activityScheduled recordedId recorded recordedInput recordedQueue
  · obtain ⟨recordedId, recorded, recordedInput, recordedQueue, rfl⟩ := hcommand
    by_cases hname : recorded = name
    · subst hname
      exact ⟨_, _, hcalm.tail.activityOutcome recordedId, answers_activity_taken hcalm⟩
    · refine isAnswered_of_prepared (diverged ("ActivityScheduled(" ++ recorded ++ ")")) hcalm
        fun m hcursor hreplaying hevent _ => ?_
      simp only [SequentialCall.exec, matchActivity, divergedAt, hreplaying, hcursor, hevent,
        Bool.not_true, Bool.false_eq_true, if_false, ne_eq, hname, not_false_eq_true, if_true]
      rfl
  · refine isAnswered_of_prepared (diverged (actualEventName event)) hcalm
      fun m hcursor hreplaying hevent hactual => ?_
    simp only [SequentialCall.exec, matchActivity, divergedAt, hreplaying, hcursor, hevent, hactual,
      Bool.not_true, Bool.false_eq_true, if_false]
    cases event with
    | activityScheduled recordedId recorded recordedInput recordedQueue =>
      exact absurd ⟨_, _, _, _, rfl⟩ hcommand
    | _ => rfl

/-- A call of a timer, wherever it stands. -/
theorem isAnswered_timer {id : TimerId} {duration : UInt64} {strict : Bool}
    (hcalm : Calm ((event, i) :: rest)) :
    IsAnswered showJson (.timer id duration strict) ((event, i) :: rest) := by
  let diverged (expected actual : String) : CallResult :=
    .result (.diverged expected actual (toI32 i))
  by_cases hcommand : ∃ recordedId recorded, event = .timerStarted recordedId recorded
  · obtain ⟨recordedId, recorded, rfl⟩ := hcommand
    by_cases hname : recordedId.name = id.name
    · cases hdiffers : durationDiffers (if strict then some duration else none) recorded with
      | none =>
        exact ⟨_, _, hcalm.tail.timerOutcome id.name, answers_timer_taken hname hdiffers hcalm⟩
      | some expected =>
        refine isAnswered_of_prepared (diverged (timerText id.name expected)
          (timerText id.name recorded)) hcalm fun m hcursor hreplaying hevent _ => ?_
        simp only [SequentialCall.exec, matchTimerStrict, divergedAt, hreplaying, hcursor, hevent,
          hname, hdiffers, Bool.not_true, Bool.false_eq_true, if_false, ne_eq, not_true_eq_false]
        rfl
    · refine isAnswered_of_prepared (diverged ("TimerStarted(" ++ id.name ++ ")")
        ("TimerStarted(" ++ recordedId.name ++ ")")) hcalm fun m hcursor hreplaying hevent _ => ?_
      simp only [SequentialCall.exec, matchTimerStrict, divergedAt, hreplaying, hcursor, hevent,
        Bool.not_true, Bool.false_eq_true, if_false, ne_eq, hname, not_false_eq_true, if_true]
      rfl
  · refine isAnswered_of_prepared (diverged ("TimerStarted(" ++ id.name ++ ")")
      (actualEventName event)) hcalm fun m hcursor hreplaying hevent hactual => ?_
    simp only [SequentialCall.exec, matchTimerStrict, divergedAt, hreplaying, hcursor, hevent,
      hactual, Bool.not_true, Bool.false_eq_true, if_false]
    cases event with
    | timerStarted recordedId recorded => exact absurd ⟨_, _, rfl⟩ hcommand
    | _ => rfl

/-- A call of a child does not match a calm event. -/
theorem isAnswered_child {id : ExecutionId} {name : String} {input : Json} {ended : ChildEnd}
    (hcalm : Calm ((event, i) :: rest)) :
    IsAnswered showJson (.childWorkflow id name input ended) ((event, i) :: rest) := by
  have hhere : isCalm event := hcalm _ List.mem_cons_self
  refine isAnswered_of_prepared (.result (.diverged ("ChildWorkflowStarted(" ++ name ++ ")")
    (actualEventName event) (toI32 i))) hcalm fun m hcursor hreplaying hevent hactual => ?_
  simp only [SequentialCall.exec, matchChildWorkflow, divergedAt, hreplaying, hcursor, hevent,
    hactual, Bool.not_true, Bool.false_eq_true, if_false]
  cases event with
  | childWorkflowStarted => cases hhere
  | _ => rfl

/-- A version gate, wherever it stands. -/
theorem isAnswered_version {changeId : String} {minVersion maxVersion recorded : UInt32}
    (hcalm : Calm ((event, i) :: rest)) :
    IsAnswered showJson (.version changeId minVersion maxVersion recorded) ((event, i) :: rest) := by
  by_cases hmarker : ∃ details, event = .markerRecorded (versionMarkerName changeId) details
  · obtain ⟨details, rfl⟩ := hmarker
    exact ⟨_, _, hcalm.tail, answers_version_taken hcalm⟩
  · refine ⟨.version minVersion, _, hcalm, fun m h => ?_⟩
    obtain ⟨hhead, hprepared⟩ := h.prepared hcalm
    obtain ⟨hcursor, hreplaying, hevent, -⟩ := hprepared.cons hhead
    have hopen : m.advanceToNextUnconsumedEvent.isReplaying = true := by
      rw [isReplaying_eq, advance_ahead, h.ahead]
      rfl
    have hmatch : m.matchVersion changeId minVersion maxVersion = (minVersion, m.prepareMatch) := by
      rw [matchVersion]
      simp only [hopen, ← prepareMatch_eq h.external (h.ahead.symm ▸ hcalm.noExternal), hreplaying,
        hcursor, hevent, Bool.not_true, Bool.false_eq_true, if_false]
      cases event with
      | markerRecorded name details =>
        refine if_neg fun hname => hmarker ⟨details, ?_⟩
        rw [hname]
      | _ => rfl
    rw [SequentialCall.exec, hmatch]
    exact ⟨rfl, hprepared⟩

/-- **One call**: what it answers depends on what is ahead. -/
theorem isAnswered_of_calm (asked : SequentialCall) (hcalm : Calm ahead) :
    IsAnswered showJson asked ahead := by
  cases ahead with
  | nil => exact ⟨_, _, .nil, answers_atEnd asked⟩
  | cons entry rest =>
    cases asked with
    | activity id name input queue progress ended => exact isAnswered_activity hcalm
    | timer id duration strict => exact isAnswered_timer hcalm
    | childWorkflow id name input ended => exact isAnswered_child hcalm
    | signal name payload => exact ⟨_, _, hcalm, answers_signal hcalm⟩
    | version changeId minVersion maxVersion recorded => exact isAnswered_version hcalm

/-- **All calls**: two matchers with the same events ahead answer the same. -/
theorem replay_of_stands {m' : HistoryMatcher} (asked : List SequentialCall) (hcalm : Calm ahead)
    (h : Stands m ahead) (h' : Stands m' ahead) :
    (SequentialCall.replay showJson asked m).1 = (SequentialCall.replay showJson asked m').1 := by
  induction asked generalizing m m' ahead with
  | nil => rfl
  | cons call asked ih =>
    obtain ⟨answer, rest, hcalm', hanswers⟩ := @isAnswered_of_calm showJson ahead call hcalm
    obtain ⟨hanswer, hstands⟩ := hanswers m h
    obtain ⟨hanswer', hstands'⟩ := hanswers m' h'
    exact congrArg₂ List.cons (hanswer.trans hanswer'.symm) (ih hcalm' hstands hstands')

end Answers

/-! ## The done part -/

namespace SequentialCall

/-- An activity that completed, a timer that fired, or a version gate. -/
def isCompleted : SequentialCall → Bool
  | activity _ _ _ _ _ (.completed _) | timer .. | version .. => true
  | _ => false

theorem isCalm_of_completed {call : SequentialCall} (hcompleted : call.isCompleted)
    {event : WorkflowEvent} (h : event ∈ call.events) : isCalm event = true := by
  cases call with
  | activity id name input queue progress ended =>
    cases ended with
    | completed output =>
      simp only [events, List.cons_append, List.mem_cons, List.mem_append, List.mem_map,
        List.not_mem_nil, or_false] at h
      rcases h with rfl | ⟨step, -, rfl⟩ | rfl
      · rfl
      · cases step <;> rfl
      · rfl
    | _ => cases hcompleted
  | timer id duration strict =>
    rcases List.mem_cons.mp h with rfl | h
    · rfl
    · rw [List.mem_singleton.mp h]
      rfl
  | version changeId minVersion maxVersion recorded =>
    rw [List.mem_singleton.mp h]
    rfl
  | _ => cases hcompleted

end SequentialCall

def isCompletionEvent : WorkflowEvent → Bool
  | .activityCompleted .. | .timerFired .. => true
  | _ => false

/-- The history of the calls, after the start of the workflow if it is recorded. -/
def doneHistory (started : Option WorkflowEvent) (calls : List SequentialCall) :
    List WorkflowEvent :=
  started.toList ++ calls.flatMap SequentialCall.events

/-- The matcher at the first call on a history, past the start of the workflow if it is recorded. -/
def atFirstCall (started : Option WorkflowEvent) (history : List WorkflowEvent) : HistoryMatcher :=
  if started.isSome then (new history).advance else new history

theorem isSettled_of_calm {event : WorkflowEvent} (h : isCalm event) : isSettled event = true := by
  cases event <;> first | rfl | cases h

section Done

variable {started : Option WorkflowEvent} {calls : List SequentialCall}

theorem doneHistory_isDone (hstarted : started.all isWorkflowStarted)
    (hcompleted : ∀ call ∈ calls, call.isCompleted)
    (hends : (calls.flatMap SequentialCall.events).getLast?.any isCompletionEvent) :
    IsDone (doneHistory started calls) := by
  refine ⟨fun event hevent => ?_, ?_⟩
  · rcases List.mem_append.mp hevent with hstart | hrecord
    · obtain rfl := Option.mem_toList.mp hstart
      cases event with
      | workflowStarted => rfl
      | _ => cases hstarted
    · obtain ⟨call, hcall, hevent⟩ := List.mem_flatMap.mp hrecord
      exact isSettled_of_calm (SequentialCall.isCalm_of_completed (hcompleted call hcall) hevent)
  · obtain ⟨last, hlast, hcompletion⟩ := (Option.any_eq_true _ _).mp hends
    obtain ⟨earlier, hearlier⟩ := List.getLast?_eq_some_iff.mp hlast
    refine ⟨started.toList ++ earlier, last, ?_, ?_⟩
    · rw [doneHistory, hearlier, List.append_assoc]
    · cases last <;> first | rfl | cases hcompletion

end Done

theorem unconsumed_append (consumed : Nat → Bool) (events more : List WorkflowEvent) (i : Nat) :
    unconsumed consumed (events ++ more) i =
      unconsumed consumed events i ++ unconsumed consumed more (i + events.length) := by
  induction events generalizing i with
  | nil => rfl
  | cons event events ih =>
    rw [List.cons_append, unconsumed, unconsumed, ih, List.length_cons,
      Nat.add_right_comm i 1, Nat.add_assoc i]
    split_ifs
    · rfl
    · rfl

/-- **The failing cycles are not ahead.** -/
theorem aheadFrom_redriven {done : List WorkflowEvent} (hdone : IsDone done)
    (cycles : List (FailingCycle done)) {i : Nat} (hi : i ≤ done.length) :
    (new (redrivenHistory done cycles)).aheadFrom i = (new done).aheadFrom i := by
  rcases List.eq_nil_or_concat cycles with rfl | ⟨front, cycle, rfl⟩
  · rw [redrivenHistory, List.flatMap_nil, List.append_nil]
  · have hconsumed (events : List WorkflowEvent) (j : Nat) :
        (new events).isConsumed j = decide (j ∈ transparentOf events) := rfl
    have hdrop : (redrivenHistory done (front.concat cycle)).drop i =
        done.drop i ++ (front.concat cycle).flatMap FailingCycle.events := by
      rw [redrivenHistory, List.drop_append_of_le_length hi]
    have htail : unconsumed (new (redrivenHistory done (front.concat cycle))).isConsumed
        ((front.concat cycle).flatMap FailingCycle.events) (i + (done.drop i).length) = [] := by
      refine unconsumed_eq_nil fun j hle hlt => ?_
      rw [List.length_drop] at hle hlt
      rw [List.concat_eq_append] at hlt ⊢
      rw [hconsumed]
      refine decide_eq_true (mem_transparentOf_of_le (by omega) ?_)
      rw [redrivenHistory, List.length_append]
      omega
    rw [aheadFrom, aheadFrom]
    change unconsumed _ ((redrivenHistory done (front.concat cycle)).drop i) i =
      unconsumed _ (done.drop i) i
    rw [hdrop, unconsumed_append, htail, List.append_nil]
    refine unconsumed_congr fun j hle hlt => ?_
    rw [List.length_drop] at hlt
    rw [hconsumed, hconsumed, List.concat_eq_append]
    exact decide_eq_decide.mpr (mem_transparentOf_of_lt hdone (by omega))

/-- A matcher at the first call, and what is ahead of it. -/
theorem stands_atFirstCall {started : Option WorkflowEvent} (hstarted : started.all isWorkflowStarted)
    (history : List WorkflowEvent) :
    Stands (atFirstCall started (started.toList ++ history))
      ((new (started.toList ++ history)).aheadFrom started.toList.length) := by
  cases started with
  | none => exact ⟨rfl, rfl, rfl, fun _ => ⟨_, _, Served.new _⟩⟩
  | some start =>
    have hadvance : (new (start :: history)).advance =
        { new (start :: history) with cursor := 1 }.advanceToNextUnconsumedEvent :=
      if_pos (Nat.succ_pos _)
    have hsignal : (new (start :: history)).signalAt 0 = none := by
      cases start with
      | workflowStarted => rfl
      | _ => cases hstarted
    have hclear : (new (start :: history)).Clear 1 := by
      intro i hlt hsome
      obtain rfl := Nat.lt_one_iff.mp hlt
      rw [hsignal] at hsome
      cases hsome
    have hfirst := Served.new (start :: history)
    have hserves := settle_serves hfirst.indexed (Nat.succ_pos _) (Nat.succ_pos _) hclear
    change Stands (new (start :: history)).advance ((new (start :: history)).aheadFrom 1)
    rw [hadvance]
    exact ⟨advance_ahead _, rfl, rfl, fun _ => .silent hfirst hserves⟩

/-- **A redriven run replays as if its failing cycles had never been written.** Any calls answer on
the history with the cycles what they answer on the done part. -/
theorem redriven_run_replays_as_its_done_part (showJson : Json → String)
    (started : Option WorkflowEvent) (hstarted : started.all isWorkflowStarted)
    (calls : List SequentialCall) (hcompleted : ∀ call ∈ calls, call.isCompleted)
    (hends : (calls.flatMap SequentialCall.events).getLast?.any isCompletionEvent)
    (cycles : List (FailingCycle (doneHistory started calls))) (asked : List SequentialCall) :
    (SequentialCall.replay showJson asked
      (atFirstCall started (redrivenHistory (doneHistory started calls) cycles))).1 =
    (SequentialCall.replay showJson asked (atFirstCall started (doneHistory started calls))).1 := by
  have hdone := doneHistory_isDone hstarted hcompleted hends
  have hle : started.toList.length ≤ (doneHistory started calls).length := by
    rw [doneHistory, List.length_append]
    exact Nat.le_add_right _ _
  have hstands := stands_atFirstCall hstarted (calls.flatMap SequentialCall.events)
  have hredriven := stands_atFirstCall hstarted
    (calls.flatMap SequentialCall.events ++ cycles.flatMap FailingCycle.events)
  rw [← List.append_assoc] at hredriven
  change Stands (atFirstCall started (redrivenHistory (doneHistory started calls) cycles))
    ((new (redrivenHistory (doneHistory started calls) cycles)).aheadFrom _) at hredriven
  rw [aheadFrom_redriven hdone cycles hle] at hredriven
  refine replay_of_stands asked ?_ hredriven hstands
  rintro ⟨event, j⟩ hentry
  obtain ⟨hpast, hat, -⟩ := mem_aheadFrom.mp hentry
  change (started.toList ++ calls.flatMap SequentialCall.events)[j]? = some event at hat
  rw [List.getElem?_append_right hpast] at hat
  obtain ⟨call, hcall, hevent⟩ := List.mem_flatMap.mp (List.mem_of_getElem? hat)
  exact SequentialCall.isCalm_of_completed (hcompleted call hcall) hevent

/-- A payment, a version gate and a timer. -/
def paidCalls : List SequentialCall :=
  [.activity ⟨1⟩ "charge" .null "default" [.started ⟨"w"⟩] (.completed (.str "paid")),
    .version "tax" 0 2 1, .timer ⟨"wait"⟩ 60 true]

/-- A cycle that passed a gate, armed a timer and failed with an activity dispatched. -/
def mailCycle : FailingCycle (doneHistory none paidCalls) where
  records := [.markerRecorded "version:mail" (.num (.posInt 1)), .timerStarted ⟨"nag"⟩ 5,
    .activityScheduled ⟨2⟩ "mail" .null "default", abandonedActivity ⟨2⟩]
  failure := .workflowFailed "down" none none none
  bookkeeping := [.decisionCommitted ⟨"b"⟩ ⟨"w"⟩, .workflowExecutionPaused 0 none "ops",
    .workflowExecutionResumed 1 "ops"]
  redrive := .workflowRedriven 2 0 none
  isRecord := by
    intro event hevent
    simp only [List.mem_cons, List.not_mem_nil, or_false] at hevent
    rcases hevent with rfl | rfl | rfl | rfl
    · exact .preTerminal rfl
    · exact .preTerminal rfl
    · exact .activity _ _ _ _ (by simp)
    · exact .activityFailed _ (by unfold Fresh; decide)
  isFailure := rfl
  isBookkeeping := by decide
  isRedrive := rfl

/-- A cycle that failed with a child dispatched. -/
def shipCycle : FailingCycle (doneHistory none paidCalls) where
  records := [.sideEffectRecorded .random none .null,
    .childWorkflowStarted ⟨3⟩ "ship" .null, abandonedChild ⟨3⟩]
  failure := .workflowFailed "lost" none none none
  bookkeeping := []
  redrive := .workflowRedriven 3 0 none
  isRecord := by
    intro event hevent
    simp only [List.mem_cons, List.not_mem_nil, or_false] at hevent
    rcases hevent with rfl | rfl | rfl
    · exact .preTerminal rfl
    · exact .child _ _ _ (by simp)
    · exact .childFailed _
  isFailure := rfl
  isBookkeeping := by decide
  isRedrive := rfl

/-- After both cycles the calls return what they returned, and the mail is sent anew. -/
theorem the_mail_is_sent_anew :
    (SequentialCall.replay (fun _ => "")
      (paidCalls ++ [.activity ⟨4⟩ "mail" .null "default" [] (.completed .null)])
      (atFirstCall none (redrivenHistory (doneHistory none paidCalls) [mailCycle, shipCycle]))).1 =
    [.result (.matched (.str "paid")), .version 1, .result (.matched .null), .result .noMatch] :=
  (redriven_run_replays_as_its_done_part (fun _ => "") none rfl paidCalls (by decide) (by decide)
    [mailCycle, shipCycle] _).trans (by decide +kernel)

end Harvest.Replay
