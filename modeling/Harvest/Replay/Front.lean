import Harvest.Replay.Gates
import Mathlib.Data.List.TakeWhile

/-!
# The front of a replay

What a cycle of activities, signal waits and gates sees: the signals that are stashed, and the
events that are left. `Takes` says what one call does to a front, without cursor, consumed sets or
index.

Proved here:
* `matchActivity_patches`, `matchSignal_patches`: no call deprecates a patch.
* `exec_of_takes`: a matcher that shows a front does what the front says.
-/

namespace Harvest.Replay

open HistoryMatcher
open WorkflowCall (activityTurn signalTurn)

namespace HistoryMatcher

/-! ## Deprecated patches -/

section Patches

variable (m : HistoryMatcher)

theorem stash_patches (i : Nat) :
    (m.stashTransparentExternalEvent i).deprecatedPatches = m.deprecatedPatches := by
  rcases m.stash_cases i with h | ⟨_, _, h⟩ <;> rw [h]

theorem drainLoop_patches (fuel : Nat) :
    (drainLoop fuel m).deprecatedPatches = m.deprecatedPatches := by
  induction fuel generalizing m with
  | zero => rfl
  | succ fuel ih =>
    rw [drainLoop]
    split
    · rfl
    · split_ifs
      · exact (ih _).trans (stash_patches m m.cursor)
      · exact ih _
      · rfl

theorem walkLoop_patches (leaves : Nat → Bool → Bool) (target : ScanTarget) (start n at' : Nat)
    (first : Option Nat) :
    (walkLoop leaves target start n at' first m).matcher.deprecatedPatches = m.deprecatedPatches := by
  induction n generalizing m at' first with
  | zero => rfl
  | succ n ih =>
    have hstashed (first : Option Nat) := (ih (m.stashTransparentExternalEvent at') (at' + 1)
      first).trans (stash_patches m at')
    rw [walkLoop]
    split
    · rfl
    · split
      · exact ih m _ _
      · split
        · rfl
        · split
          · rfl
          · split
            case h_3 => exact hstashed _
            case h_4 =>
              split
              · exact hstashed _
              · rfl
            all_goals exact ih m _ _

theorem indexedLoop_patches (stop : Option Nat) (limit fuel next : Nat) (first : Option Nat) :
    (indexedLoop stop limit fuel m next first).2.deprecatedPatches = m.deprecatedPatches := by
  induction fuel generalizing m next first with
  | zero => rfl
  | succ fuel ih =>
    simp only [indexedLoop]
    split
    · split_ifs
      · rw [ih, stash_patches]
        split <;> rfl
      · split <;> rfl
    · split <;> rfl

theorem findScanStopWith_patches (leaves : Nat → Bool → Bool) (target : ScanTarget) (start : Nat) :
    (m.findScanStopWith leaves target start).2.deprecatedPatches = m.deprecatedPatches := by
  rw [findScanStopWith]
  have hwalk := walkLoop_patches m leaves target start (m.events.length - start) start none
  dsimp only
  split
  · exact hwalk
  · split_ifs
    · exact hwalk
    · exact (indexedLoop_patches _ _ _ _ _ _).trans hwalk

theorem settleTerminal_patches (terminal : Nat) (first : Option Nat) :
    (m.settleTerminal terminal first).deprecatedPatches = m.deprecatedPatches := by
  unfold settleTerminal
  cases first with
  | none => rfl
  | some command =>
    dsimp only
    cases (m.events[terminal]?).bind settledActivity with
    | none => rfl
    | some id =>
      dsimp only [consumeProgress]
      split_ifs <;> rfl

theorem rewindOpenActivity_patches (id : ActivityExecId) (first : Option Nat) :
    (m.rewindOpenActivity id first).2.deprecatedPatches = m.deprecatedPatches := by
  unfold rewindOpenActivity
  cases first <;> rfl

theorem scanActivityTerminal_patches (id : ActivityExecId) (start : Nat) :
    (m.scanActivityTerminal id start).2.deprecatedPatches = m.deprecatedPatches := by
  have hscan := findScanStopWith_patches m m.leavesWalk (.activity id) start
  rw [scanActivityTerminal, scanActivityTerminalWith]
  dsimp only
  split
  · exact (rewindOpenActivity_patches _ _ _).trans hscan
  · split
    · exact (rewindOpenActivity_patches _ _ _).trans hscan
    · exact (settleTerminal_patches _ _ _).trans hscan

theorem prepareMatch_patches (hexternal : m.external = .new) (hplain : NoExternal m.ahead) :
    m.prepareMatch.deprecatedPatches = m.deprecatedPatches := by
  rw [prepareMatch_eq hexternal hplain]
  exact drainLoop_patches _ _

theorem matchActivity_patches (hexternal : m.external = .new) (hplain : NoExternal m.ahead)
    (name : String) : (m.matchActivity name).2.deprecatedPatches = m.deprecatedPatches := by
  have hprepared := prepareMatch_patches m hexternal hplain
  rw [matchActivity]
  split
  · exact hprepared
  · split
    · split
      · exact hprepared
      · exact (scanActivityTerminal_patches _ _ _).trans hprepared
    · exact hprepared

theorem signalScanStep_patches (at' : Nat) (name : String) (first : Option Nat) :
    (m.signalScanStep at' name none none first).2.deprecatedPatches = m.deprecatedPatches := by
  rcases @signalScanStep_cases m at' name none first none with h | ⟨-, rejected, h⟩ | ⟨payload, -, -, h⟩
  · rw [h]
  · rw [h]
    exact stash_patches _ at'
  · rw [h]
    rfl

theorem firstSignalInterleaved_patches (name : String) (limit fuel next : Nat) :
    (firstSignalInterleaved name limit fuel m next).2.deprecatedPatches = m.deprecatedPatches := by
  induction fuel generalizing m next with
  | zero => rfl
  | succ fuel ih =>
    simp only [firstSignalInterleaved]
    split
    · rfl
    · split
      · split
        · exact ih _ _
        · rfl
      · rfl

theorem matchIndexedSignal_patches (name : String) (fuel next : Nat) (first : Option Nat) :
    (matchIndexedSignal name none fuel m next first).2.deprecatedPatches = m.deprecatedPatches := by
  induction fuel generalizing m next first with
  | zero => rfl
  | succ fuel ih =>
    have hturn {looked : HistoryMatcher} {at' : Nat} {first : Option Nat}
        {scan : (Option HistoryMatch × Option Nat) × HistoryMatcher}
        (hscan : looked.signalScanStep at' name none none first = scan)
        (hlooked : looked.deprecatedPatches = m.deprecatedPatches) :
        scan.2.deprecatedPatches = m.deprecatedPatches := by
      rw [← hscan]
      exact (signalScanStep_patches looked at' name first).trans hlooked
    cases first with
    | some first =>
      simp only [matchIndexedSignal]
      split
      · rfl
      · split
        · rename_i hscan
          exact hturn hscan rfl
        · rename_i hscan
          exact (ih _ _ _).trans (hturn hscan rfl)
    | none =>
      simp only [matchIndexedSignal]
      split
      · exact firstSignalInterleaved_patches _ _ _ _ _
      · split
        · rename_i hscan
          exact hturn hscan (firstSignalInterleaved_patches _ _ _ _ _)
        · rename_i hscan
          exact (ih _ _ _).trans (hturn hscan (firstSignalInterleaved_patches _ _ _ _ _))

theorem signalLoop_patches (leaves : Nat → Bool → Bool) (name : String) (start n at' : Nat)
    (first : Option Nat) :
    (signalLoop leaves name none none start n at' first m).2.deprecatedPatches =
      m.deprecatedPatches := by
  induction n generalizing m at' first with
  | zero => rfl
  | succ n ih =>
    rw [signalLoop]
    split
    · exact matchIndexedSignal_patches _ _ _ _ _
    · split
      · exact ih _ _ _
      · have hstep := signalScanStep_patches m at' name first
        split
        · rename_i hscan
          rw [hscan] at hstep
          exact hstep
        · rename_i hscan
          rw [hscan] at hstep
          exact (ih _ _ _).trans hstep

theorem claimBufferedSignal_patches (name : String) :
    (m.claimBufferedSignal name none).2.deprecatedPatches = m.deprecatedPatches := by
  rw [claimBufferedSignal]
  split <;> rfl

theorem matchSignal_patches (name : String) :
    (m.matchSignal name).2.deprecatedPatches = m.deprecatedPatches := by
  have hclaim := claimBufferedSignal_patches m name
  rw [matchSignal, matchSignalInner, matchSignalInnerWith]
  split
  · rename_i hclaimed
    rw [hclaimed] at hclaim
    exact hclaim
  · rename_i hclaimed
    rw [hclaimed] at hclaim
    dsimp only
    split
    · exact hclaim
    · exact (signalLoop_patches _ _ _ _ _ _ _).trans hclaim

end Patches

end HistoryMatcher

/-! ## Scans that reach the end -/

namespace HistoryMatcher

/-- A walk that goes past everything ahead ends at the end of the history. -/
theorem walkLoop_end {leaves : Nat → Bool → Bool} (hleaves : ∀ walked, leaves walked false = false)
    {target : ScanTarget} {start : Nat} (n at' : Nat) (m : HistoryMatcher)
    (hn : at' + n = m.events.length)
    (hpassed : ∀ entry ∈ m.aheadFrom at', passedBy target entry) :
    ∃ m', walkLoop leaves target start n at' none m = ⟨none, m.events.length, none, m'⟩ := by
  induction n generalizing at' m with
  | zero =>
    obtain rfl : at' = m.events.length := by omega
    exact ⟨m, rfl⟩
  | succ n ih =>
    have hlt : at' < m.events.length := by omega
    rw [walkLoop, Option.isSome_none, hleaves, if_neg Bool.false_ne_true]
    by_cases hconsumed : m.isConsumed at'
    · rw [if_pos hconsumed]
      rw [aheadFrom_of_consumed hconsumed] at hpassed
      exact ih (at' + 1) m (by omega) hpassed
    · rw [if_neg hconsumed]
      obtain ⟨here, hhere⟩ : ∃ here, m.events[at']? = some here :=
        ⟨_, List.getElem?_eq_getElem hlt⟩
      rw [aheadFrom_cons hhere hconsumed] at hpassed
      have hpass := hpassed _ List.mem_cons_self
      have hlater := fun entry hentry => hpassed entry (List.mem_cons_of_mem _ hentry)
      rw [hhere]
      dsimp only
      cases hsignal : (stashEntry (here, at')).isSome with
      | true =>
        cases here with
        | signalReceived name payload =>
          obtain ⟨-, hfilter⟩ := stash_signal hhere
          obtain ⟨m', hwalk⟩ := ih (at' + 1) (m.stashTransparentExternalEvent at')
            (by rw [stash_events]; omega)
            (by rw [hfilter, aheadFrom_filter_of_lt (Nat.lt_succ_self _)]; exact hlater)
          refine ⟨m', ?_⟩
          rw [stash_events] at hwalk
          rw [← hwalk, if_neg (by cases target <;> exact Bool.false_ne_true)]
          rfl
        | _ => cases hsignal
      | false =>
        rw [passedBy, hsignal, Bool.false_or] at hpass
        obtain ⟨m', hwalk⟩ := ih (at' + 1) m (by omega) hlater
        refine ⟨m', ?_⟩
        rw [← hwalk]
        dsimp only at hpass
        generalize activityScanRole here = role at hpass ⊢
        cases role with
        | terminal | progress | fired | childTerminal | pass =>
          rw [if_neg (Bool.eq_false_iff.mp ((Bool.not_eq_true' _).mp hpass))]
        | _ => cases hpass

variable {m : HistoryMatcher}

/-- An activity that has no terminal event yet. -/
theorem scanActivityTerminal_open {id : ActivityExecId} {start : Nat}
    (hstart : start ≤ m.events.length)
    (hpassed : ∀ entry ∈ m.aheadFrom start, passedBy (.activity id) entry) :
    (m.scanActivityTerminal id start).1 = .activityInProgress id := by
  obtain ⟨m', hwalk⟩ := @walkLoop_end _ (leavesWalk_false m) (.activity id) start
    (m.events.length - start) start m (by omega) hpassed
  rw [scanActivityTerminal, scanActivityTerminalWith, findScanStopWith]
  simp only [hwalk, if_true]
  rfl

/-- A wait of which no signal is ahead finds none. -/
theorem signalLoop_end {leaves : Nat → Bool → Bool} (hleaves : ∀ walked, leaves walked false = false)
    {name : String} {start : Nat} (n at' : Nat) (m : HistoryMatcher)
    (hn : at' + n = m.events.length)
    (hothers : ∀ entry ∈ m.aheadFrom at', (stashEntry entry).any fun other => other.name ≠ name) :
    (signalLoop leaves name none none start n at' none m).1 = .noMatch := by
  induction n generalizing at' m with
  | zero => rfl
  | succ n ih =>
    have hlt : at' < m.events.length := by omega
    rw [signalLoop, Option.isSome_none, hleaves, Bool.and_false, if_neg Bool.false_ne_true]
    by_cases hconsumed : m.isConsumed at'
    · rw [if_pos hconsumed]
      rw [aheadFrom_of_consumed hconsumed] at hothers
      exact ih (at' + 1) m (by omega) hothers
    · rw [if_neg hconsumed]
      obtain ⟨here, hhere⟩ : ∃ here, m.events[at']? = some here :=
        ⟨_, List.getElem?_eq_getElem hlt⟩
      rw [aheadFrom_cons hhere hconsumed] at hothers
      have hother := hothers _ List.mem_cons_self
      cases here with
      | signalReceived recorded payload =>
        obtain ⟨-, hfilter⟩ := stash_signal hhere
        have hne : ¬ recorded = name := of_decide_eq_true hother
        rw [signalScanStep, hhere]
        simp only [hne, if_false]
        refine ih (at' + 1) (m.stashTransparentExternalEvent at') (by rw [stash_events]; omega) ?_
        rw [hfilter, aheadFrom_filter_of_lt (Nat.lt_succ_self _)]
        exact fun entry hentry => hothers entry (List.mem_cons_of_mem _ hentry)
      | _ => cases hother

end HistoryMatcher

/-! ## Fronts -/

/-- The signals that are stashed, and the events that are left. -/
structure Front where
  stash : List (String × Json)
  ahead : List WorkflowEvent

/-- The front after the signals of `passed` are stashed. -/
def Front.past (f : Front) (passed rest : List WorkflowEvent) : Front :=
  ⟨f.stash ++ passed.filterMap signalOf, rest⟩

/-- An event of a run, after its start. -/
def isLogged : WorkflowEvent → Bool
  | .activityScheduled _ name _ _ => name ≠ sessionDropReleaseActivityName
  | .signalReceived .. | .markerRecorded .. | .activityStarted .. | .activityHeartbeat ..
  | .activityCompleted .. | .activityFailed .. | .activityTimedOut .. => true
  | _ => false

/-- What a scan for the end of the activity goes past. -/
def passesOver (id : ActivityExecId) (event : WorkflowEvent) : Bool :=
  isSignal event || activityScanRole event = .progress id

/-- A signal of another name. -/
def isOther (name : String) (event : WorkflowEvent) : Bool :=
  (signalOf event).any fun signal => signal.1 ≠ name

namespace Gate

/-- The answer that a marker holds. -/
def read (details : Json) : Gate → Answer
  | patched _ => .patched true
  | version _ min _ => .version ((asU32 details).getD min)

/-- The command that records the gate. -/
def marker : Gate → Command
  | patched patchId => .recordMarker (patchMarkerName patchId) (.num (.posInt 1))
  | version changeId _ max =>
    .recordMarker (versionMarkerName changeId) (.num (.posInt max.toUInt64))

end Gate

/-- What a call does at a front. -/
inductive Takes (fresh : ActivityExecId) (f : Front) : WorkflowCall → Turn → Front → Prop
  | scheduled {name : String} {input : Json} {queue : String}
      (signals : ∀ event ∈ f.ahead, isSignal event) :
      Takes fresh f (.activity name input queue)
        (.parked (.scheduleActivity fresh name input queue)) (f.past f.ahead [])
  | inProgress {id : ActivityExecId} {name : String} {input recorded : Json}
      {queue recordedQueue : String} {front passed : List WorkflowEvent}
      (ahead : f.ahead = front ++ .activityScheduled id name recorded recordedQueue :: passed)
      (signals : ∀ event ∈ front, isSignal event) (skips : ∀ event ∈ passed, passesOver id event) :
      Takes fresh f (.activity name input queue) (.parked (.waitForActivity id))
        (f.past (front ++ passed) [])
  | completed {id : ActivityExecId} {name : String} {input recorded : Json}
      {queue recordedQueue : String} {front passed rest : List WorkflowEvent}
      {stop : WorkflowEvent} {ended : HistoryMatch}
      (ahead : f.ahead =
        front ++ .activityScheduled id name recorded recordedQueue :: (passed ++ stop :: rest))
      (signals : ∀ event ∈ front, isSignal event) (skips : ∀ event ∈ passed, passesOver id event)
      (ends : activityScanRole stop = .terminal id) (result : activityResult stop = some ended) :
      Takes fresh f (.activity name input queue) (.answered (.result ended) none)
        (f.past (front ++ passed) rest)
  | claimed {name : String} {payload : Json} {before after : List (String × Json)}
      (stash : f.stash = before ++ (name, payload) :: after)
      (others : ∀ signal ∈ before, signal.1 ≠ name) :
      Takes fresh f (.signal name) (.answered (.result (.matched payload)) none)
        ⟨before ++ after, f.ahead⟩
  | found {name : String} {payload : Json} {passed rest : List WorkflowEvent}
      (stash : ∀ signal ∈ f.stash, signal.1 ≠ name)
      (ahead : f.ahead = passed ++ .signalReceived name payload :: rest)
      (others : ∀ event ∈ passed, isOther name event) :
      Takes fresh f (.signal name) (.answered (.result (.matched payload)) none)
        (f.past passed rest)
  | unsent {name : String} (stash : ∀ signal ∈ f.stash, signal.1 ≠ name)
      (others : ∀ event ∈ f.ahead, isOther name event) :
      Takes fresh f (.signal name) (.parked (.waitForSignal name)) (f.past f.ahead [])
  | live {gate : Gate} (ahead : f.ahead = []) :
      Takes fresh f (.gate gate) (.answered gate.new (some gate.marker)) f
  | drained {gate : Gate} (left : f.ahead ≠ []) (signals : ∀ event ∈ f.ahead, isSignal event) :
      Takes fresh f (.gate gate)
        (.answered gate.old (if gate.old = gate.new then some gate.marker else none))
        (f.past f.ahead [])
  | taken {gate : Gate} {name : String} {details : Json} {front rest : List WorkflowEvent}
      (ahead : f.ahead = front ++ .markerRecorded name details :: rest)
      (signals : ∀ event ∈ front, isSignal event) (looks : gate.looksFor name) :
      Takes fresh f (.gate gate)
        (.answered (gate.read details)
          (if gate.recordsAgain f.ahead then some gate.marker else none))
        (f.past front rest)
  | absent {gate : Gate} {event : WorkflowEvent} {front rest : List WorkflowEvent}
      (ahead : f.ahead = front ++ event :: rest) (signals : ∀ event ∈ front, isSignal event)
      (stays : ¬ isSignal event)
      (other : ∀ name details, event = .markerRecorded name details → ¬ gate.looksFor name) :
      Takes fresh f (.gate gate) (.answered gate.old none) (f.past front (event :: rest))

/-! ## A matcher and its front -/

/-- The matcher has this front. -/
structure Shows (m : HistoryMatcher) (f : Front) : Prop where
  left : m.left = f.ahead
  stash : m.pendingSignals.entries.map (fun entry => (entry.name, entry.payload)) = f.stash
  external : m.external = .new
  patches : m.deprecatedPatches = fun _ => none
  logged : ∀ event ∈ f.ahead, isLogged event

section Entries

variable {event : WorkflowEvent} {i : Nat}

theorem isDrained_of_logged (h : isLogged event) : isDrained (event, i) = isSignal event := by
  cases event <;> first | rfl | cases h

theorem stashEntry_eq (entry : WorkflowEvent × Nat) :
    (stashEntry entry).map (fun stashed => (stashed.name, stashed.payload)) = signalOf entry.1 := by
  obtain ⟨event, i⟩ := entry
  cases event <;> rfl

theorem map_stashEntry (entries : List (WorkflowEvent × Nat)) :
    (entries.filterMap stashEntry).map (fun stashed => (stashed.name, stashed.payload)) =
      (entries.map Prod.fst).filterMap signalOf := by
  rw [List.map_filterMap, List.filterMap_map]
  congr 1
  funext entry
  exact stashEntry_eq entry

end Entries

namespace Shows

variable {m m' : HistoryMatcher} {f : Front}

theorem logged_of_mem (h : Shows m f) {entry : WorkflowEvent × Nat} (hentry : entry ∈ m.ahead) :
    isLogged entry.1 = true := by
  refine h.logged entry.1 ?_
  rw [← h.left]
  exact List.mem_map_of_mem hentry

theorem noExternal (h : Shows m f) : NoExternal m.ahead := by
  rintro ⟨event, i⟩ hentry hexternal
  have hlogged : isLogged event = true := h.logged_of_mem hentry
  cases event with
  | signalReceived => rfl
  | activityScheduled | markerRecorded | activityStarted | activityHeartbeat | activityCompleted
  | activityFailed | activityTimedOut => cases hexternal
  | _ => cases hlogged

/-- After a call that moved on. -/
theorem moves (h : Shows m f) {passed rest : List (WorkflowEvent × Nat)}
    (hmoves : Moves m m' passed rest) (hpatches : m'.deprecatedPatches = m.deprecatedPatches)
    (hrest : ∀ entry ∈ rest, entry ∈ m.ahead) :
    Shows m' (f.past (passed.map Prod.fst) (rest.map Prod.fst)) where
  left := congrArg (List.map Prod.fst) hmoves.ahead
  stash := by
    rw [hmoves.pending, List.map_append, h.stash, map_stashEntry]
    rfl
  external := hmoves.external.trans h.external
  patches := hpatches.trans h.patches
  logged := by
    intro event hevent
    obtain ⟨entry, hentry, rfl⟩ := List.mem_map.mp hevent
    exact h.logged_of_mem (hrest entry hentry)

theorem advance (h : Shows m f) : Shows m.advanceToNextUnconsumedEvent f :=
  ⟨(congrArg (List.map Prod.fst) (advance_ahead m)).trans h.left, h.stash, h.external, h.patches,
    h.logged⟩

/-- What is ahead, when a part of what is left is only signals. -/
theorem split (h : Shows m f) {front rest : List WorkflowEvent} {event : WorkflowEvent}
    (hahead : f.ahead = front ++ event :: rest) (hsignals : ∀ event ∈ front, isSignal event)
    (hstays : ¬ isSignal event) :
    ∃ signals i later, m.ahead.takeWhile isDrained = signals ∧
      m.ahead.dropWhile isDrained = (event, i) :: later ∧ signals.map Prod.fst = front ∧
      later.map Prod.fst = rest := by
  have hleft : m.ahead.map Prod.fst = front ++ event :: rest := h.left.trans hahead
  obtain ⟨signals, others, hsplit, rfl, hothers⟩ := List.map_eq_append_iff.mp hleft
  obtain ⟨⟨event', i⟩, later, rfl, rfl, rfl⟩ := List.map_eq_cons_iff.mp hothers
  have hlogged := fun entry hentry => @logged_of_mem m f h entry hentry
  rw [hsplit] at hlogged
  have hdrained : ∀ entry ∈ signals, isDrained entry = true := fun entry hentry =>
    (isDrained_of_logged (hlogged entry (List.mem_append_left _ hentry))).trans
      (hsignals entry.1 (List.mem_map_of_mem hentry))
  have hstop : ¬ isDrained (event', i) = true := by
    rw [isDrained_of_logged (hlogged (event', i) (List.mem_append_right _ List.mem_cons_self))]
    exact hstays
  refine ⟨signals, i, later, ?_, ?_, rfl, rfl⟩
  · rw [hsplit, List.takeWhile_append_of_pos hdrained, List.takeWhile_cons_of_neg hstop,
      List.append_nil]
  · rw [hsplit, List.dropWhile_append_of_pos hdrained, List.dropWhile_cons_of_neg hstop]

/-- When only signals are left, a match drains them all. -/
theorem all_drained (h : Shows m f) (hsignals : ∀ event ∈ f.ahead, isSignal event) :
    m.ahead.takeWhile isDrained = m.ahead ∧ m.ahead.dropWhile isDrained = [] := by
  have hdrained : ∀ entry ∈ m.ahead, isDrained entry = true := by
    intro entry hentry
    refine (isDrained_of_logged (h.logged_of_mem hentry)).trans (hsignals entry.1 ?_)
    rw [← h.left]
    exact List.mem_map_of_mem hentry
  exact ⟨List.takeWhile_eq_self_iff.mpr hdrained, List.dropWhile_eq_nil_iff.mpr hdrained⟩

/-- The drain stashes the signals in front. -/
theorem drained (h : Shows m f) :
    m.advanceToNextUnconsumedEvent.drainEarlySignals.AtHead ∧
      Shows m.advanceToNextUnconsumedEvent.drainEarlySignals
        (f.past ((m.ahead.takeWhile isDrained).map Prod.fst)
          ((m.ahead.dropWhile isDrained).map Prod.fst)) := by
  obtain ⟨hhead, hahead, hstashes⟩ := drainEarlySignals_ahead m h.noExternal
  exact ⟨hhead, h.moves ⟨hahead, hstashes.pending, hstashes.external⟩ (drainLoop_patches _ _)
    fun entry hentry => (List.dropWhile_suffix _).mem hentry⟩

theorem isReplaying (h : Shows m f) : m.isReplaying = ! f.ahead.isEmpty := by
  rw [isReplaying_eq, ← h.left, HistoryMatcher.left, List.isEmpty_map]

/-- Where the matcher stands, when something is ahead. -/
theorem cons (h : Shows m f) (hhead : m.AtHead) {event : WorkflowEvent}
    {rest : List WorkflowEvent} (hahead : f.ahead = event :: rest) :
    m.events[m.cursor]? = some event ∧
      Shows { m with cursor := m.cursor + 1 }.advanceToNextUnconsumedEvent ⟨f.stash, rest⟩ := by
  obtain ⟨⟨event', i⟩, later, hsplit, rfl, rfl⟩ := List.map_eq_cons_iff.mp (h.left.trans hahead)
  obtain ⟨rfl, -, hevent, -, hlater⟩ := hhead.cons hsplit
  refine ⟨hevent, advance ⟨?_, h.stash, h.external, h.patches, fun event hevent => ?_⟩⟩
  · exact congrArg (List.map Prod.fst) hlater
  · refine h.logged event ?_
    rw [hahead]
    exact List.mem_cons_of_mem _ hevent

end Shows

/-! ## Calls at a front -/

section Calls

variable {m : HistoryMatcher} {f : Front}

/-- The turn that the front says, and the front after a call that is answered. -/
def Does (fresh : ActivityExecId) (m : HistoryMatcher) (call : WorkflowCall) (turn : Turn)
    (f' : Front) : Prop :=
  (call.exec fresh m).1 = turn ∧ (turn.answer.isSome → Shows (call.exec fresh m).2 f')

theorem passedBy_of_passesOver {id : ActivityExecId} {event : WorkflowEvent} {i : Nat}
    (h : passesOver id event) : passedBy (.activity id) (event, i) = true := by
  rcases Bool.or_eq_true_iff.mp h with hsignal | hprogress
  · cases event with
    | signalReceived => rfl
    | _ => cases hsignal
  · rw [passedBy, of_decide_eq_true hprogress]
    exact Bool.or_true _

theorem does_parked {fresh : ActivityExecId} {call : WorkflowCall} {pushed : Command} {f' : Front}
    (h : (call.exec fresh m).1 = .parked pushed) : Does fresh m call (.parked pushed) f' :=
  ⟨h, fun hanswered => absurd hanswered Bool.false_ne_true⟩

/-- A call of an activity that was not reached before. -/
theorem does_scheduled {fresh : ActivityExecId} {name : String} {input : Json} {queue : String}
    {f' : Front} (h : Shows m f) (hsignals : ∀ event ∈ f.ahead, isSignal event) :
    Does fresh m (.activity name input queue) (.parked (.scheduleActivity fresh name input queue))
      f' := by
  have hahead := (prepareMatch_ahead h.external h.noExternal).2.1
  rw [(h.all_drained hsignals).2] at hahead
  have hended : m.prepareMatch.isReplaying = false := by
    rw [isReplaying_eq, hahead]
    rfl
  have hmatch : (m.matchActivity name).1 = .noMatch := by
    rw [matchActivity]
    simp only [hended, Bool.not_false, if_true]
  exact does_parked (congrArg (activityTurn fresh name input queue) hmatch)

/-- A call of an activity that runs. -/
theorem does_inProgress {fresh id : ActivityExecId} {name : String} {input recorded : Json}
    {queue recordedQueue : String} {front passed : List WorkflowEvent} {f' : Front} (h : Shows m f)
    (hahead : f.ahead = front ++ .activityScheduled id name recorded recordedQueue :: passed)
    (hsignals : ∀ event ∈ front, isSignal event) (hover : ∀ event ∈ passed, passesOver id event) :
    Does fresh m (.activity name input queue) (.parked (.waitForActivity id)) f' := by
  obtain ⟨signals, i, later, -, hdrop, -, rfl⟩ := h.split hahead hsignals Bool.false_ne_true
  obtain ⟨hhead, hprepared, -⟩ := prepareMatch_ahead h.external h.noExternal
  rw [hdrop] at hprepared
  obtain ⟨rfl, hreplaying, hevent, hlt, hlater⟩ := hhead.cons hprepared
  have hopen := @scanActivityTerminal_open { m.prepareMatch with
      cursor := m.prepareMatch.cursor + 1 } id (m.prepareMatch.cursor + 1) hlt
    (hlater ▸ fun entry hentry => passedBy_of_passesOver (hover entry.1 (List.mem_map_of_mem hentry)))
  have hmatch : (m.matchActivity name).1 = .activityInProgress id := by
    rw [matchActivity]
    simp only [hreplaying, hevent, Bool.not_true, Bool.false_eq_true, if_false, ne_eq,
      not_true_eq_false]
    exact hopen
  exact does_parked (congrArg (activityTurn fresh name input queue) hmatch)

/-- A call of an activity that has ended. -/
theorem does_completed {fresh id : ActivityExecId} {name : String} {input recorded : Json}
    {queue recordedQueue : String} {front passed rest : List WorkflowEvent} {stop : WorkflowEvent}
    {ended : HistoryMatch} (h : Shows m f)
    (hahead : f.ahead =
      front ++ .activityScheduled id name recorded recordedQueue :: (passed ++ stop :: rest))
    (hsignals : ∀ event ∈ front, isSignal event) (hover : ∀ event ∈ passed, passesOver id event)
    (hends : activityScanRole stop = .terminal id) (hresult : activityResult stop = some ended) :
    Does fresh m (.activity name input queue) (.answered (.result ended) none)
      (f.past (front ++ passed) rest) := by
  obtain ⟨signals, i, later, htake, hdrop, rfl, hlater⟩ :=
    h.split hahead hsignals Bool.false_ne_true
  obtain ⟨progress, others, rfl, rfl, hothers⟩ := List.map_eq_append_iff.mp hlater
  obtain ⟨⟨stop', j⟩, left, rfl, rfl, rfl⟩ := List.map_eq_cons_iff.mp hothers
  obtain ⟨hmatch, hmoves⟩ := matchActivity_ahead h.external h.noExternal hdrop
    (fun entry hentry => passedBy_of_passesOver (hover entry.1 (List.mem_map_of_mem hentry)))
    (by rw [hends]; exact decide_eq_true rfl) hresult
  have hturn : activityTurn fresh name input queue ended = .answered (.result ended) none := by
    cases stop' <;> first | cases hresult; rfl | cases hresult
  refine ⟨(congrArg (activityTurn fresh name input queue) hmatch).trans hturn, fun _ => ?_⟩
  have hshows := h.moves hmoves (matchActivity_patches m h.external h.noExternal name)
    fun entry hentry => (List.dropWhile_suffix _).mem (hdrop ▸ List.mem_cons_of_mem _
      (List.mem_append_right _ (List.mem_cons_of_mem _ hentry)))
  rw [htake, List.map_append] at hshows
  exact hshows

/-- A wait that takes a signal from the stash. -/
theorem does_claimed {fresh : ActivityExecId} {name : String} {payload : Json}
    {before after : List (String × Json)} (h : Shows m f)
    (hstash : f.stash = before ++ (name, payload) :: after)
    (hothers : ∀ signal ∈ before, signal.1 ≠ name) :
    Does fresh m (.signal name) (.answered (.result (.matched payload)) none)
      ⟨before ++ after, f.ahead⟩ := by
  obtain ⟨front, later, hsplit, rfl, hlater⟩ := List.map_eq_append_iff.mp (h.stash.trans hstash)
  obtain ⟨entry, rest, rfl, hentry, rfl⟩ := List.map_eq_cons_iff.mp hlater
  obtain ⟨rfl, rfl⟩ := Prod.mk.inj hentry
  let takes (other : StashedSignal) : Bool :=
    decide (other.name = entry.name) && accepts none other.index other.payload
  have hfront : ∀ other ∈ front, ¬ takes other := by
    intro other hother htakes
    exact hothers _ (List.mem_map_of_mem hother)
      (of_decide_eq_true (Bool.and_eq_true_iff.mp htakes).1)
  have hhere : takes entry = true := Bool.and_eq_true_iff.mpr ⟨decide_eq_true rfl, rfl⟩
  have hfind : m.pendingSignals.removeFirst entry.name (fun entry =>
      accepts none entry.index entry.payload) = some (entry, ⟨front ++ rest⟩) := by
    change (m.pendingSignals.entries.find? takes).map (fun entry =>
      (entry, (⟨m.pendingSignals.entries.eraseP takes⟩ : SignalStash))) = _
    rw [hsplit, List.find?_append, List.find?_eq_none.mpr hfront, List.find?_cons_of_pos hhere,
      List.eraseP_append_right _ hfront, List.eraseP_cons_of_pos hhere]
    rfl
  have hclaim : m.matchSignal entry.name = (.matched entry.payload, { m with
      predicateRejectedSignalEvents := m.predicateRejectedSignalEvents ∪
        (((m.pendingSignals.ofName entry.name).takeWhile fun entry =>
          ! accepts none entry.index entry.payload).map StashedSignal.index).toFinset
      pendingSignals := ⟨front ++ rest⟩
      delivered := m.delivered ++ [entry.index] }) := by
    rw [matchSignal, matchSignalInner, matchSignalInnerWith, claimBufferedSignal]
    simp only [hfind]
  rw [Does, WorkflowCall.exec, hclaim]
  refine ⟨rfl, fun _ => ⟨h.left, ?_, h.external, h.patches, h.logged⟩⟩
  exact List.map_append

/-- A wait that has no signal in the stash. -/
theorem claimBufferedSignal_none {name : String} (h : Shows m f)
    (hstash : ∀ signal ∈ f.stash, signal.1 ≠ name) :
    ∀ entry ∈ m.pendingSignals.entries, entry.name ≠ name := by
  intro entry hentry
  refine hstash (entry.name, entry.payload) ?_
  rw [← h.stash]
  exact List.mem_map_of_mem hentry

/-- A wait that finds its signal ahead. -/
theorem does_found {fresh : ActivityExecId} {name : String} {payload : Json}
    {passed rest : List WorkflowEvent} (h : Shows m f)
    (hstash : ∀ signal ∈ f.stash, signal.1 ≠ name)
    (hahead : f.ahead = passed ++ .signalReceived name payload :: rest)
    (hothers : ∀ event ∈ passed, isOther name event) :
    Does fresh m (.signal name) (.answered (.result (.matched payload)) none)
      (f.past passed rest) := by
  obtain ⟨front, later, hsplit, rfl, hlater⟩ := List.map_eq_append_iff.mp (h.left.trans hahead)
  obtain ⟨⟨event, i⟩, left, rfl, rfl, rfl⟩ := List.map_eq_cons_iff.mp hlater
  have hignored : ∀ entry ∈ front, ignoredBy name entry = true := by
    rintro ⟨event, j⟩ hentry
    have hother : isOther name event = true := hothers _ (List.mem_map_of_mem hentry)
    cases event with
    | signalReceived => exact hother
    | _ => cases hother
  obtain ⟨hmatch, hmoves⟩ :=
    matchSignal_ahead (claimBufferedSignal_none h hstash) hsplit hignored
  refine ⟨congrArg (signalTurn name) hmatch, fun _ => ?_⟩
  exact h.moves hmoves (matchSignal_patches m name) fun entry hentry => by
    rw [hsplit]
    exact List.mem_append_right _ (List.mem_cons_of_mem _ hentry)

/-- A wait whose signal has not arrived. -/
theorem does_unsent {fresh : ActivityExecId} {name : String} {f' : Front} (h : Shows m f)
    (hstash : ∀ signal ∈ f.stash, signal.1 ≠ name)
    (hothers : ∀ event ∈ f.ahead, isOther name event) :
    Does fresh m (.signal name) (.parked (.waitForSignal name)) f' := by
  have hpending := claimBufferedSignal_none h hstash
  have hremove : (m.pendingSignals.removeFirst name fun entry =>
      accepts none entry.index entry.payload) = none := by
    rw [SignalStash.removeFirst, Option.map_eq_none_iff, List.find?_eq_none]
    intro entry hentry
    simp [hpending entry hentry]
  have hmatch : (m.matchSignal name).1 = .noMatch := by
    rw [matchSignal, matchSignalInner, matchSignalInnerWith, claimBufferedSignal]
    simp only [hremove]
    split
    · rfl
    · rename_i hreplaying
      have hlt := cursor_lt_of_isReplaying _ (by simpa using hreplaying)
      refine signalLoop_end (leavesWalk_false m) _ _ _ (Nat.add_sub_of_le hlt.le) ?_
      rintro ⟨event, i⟩ hentry
      change _ ∈ HistoryMatcher.ahead _ at hentry
      rw [advance_ahead] at hentry
      have hother : isOther name event = true := by
        refine hothers event ?_
        rw [← h.left]
        exact List.mem_map_of_mem hentry
      cases event with
      | signalReceived => exact hother
      | _ => cases hother
  exact does_parked (congrArg (signalTurn name) hmatch)

/-! ## Gates at a front -/

namespace Shows

theorem at_end (h : Shows m f) (hahead : f.ahead = []) :
    m.advanceToNextUnconsumedEvent.isReplaying = false := by
  rw [h.advance.isReplaying, hahead]
  rfl

theorem before_end (h : Shows m f) (hahead : f.ahead ≠ []) :
    m.advanceToNextUnconsumedEvent.isReplaying = true := by
  rw [h.advance.isReplaying, List.isEmpty_eq_false_iff.mpr hahead]
  rfl

/-- Only signals are left: the drain reaches the end. -/
theorem drained_end (h : Shows m f) (hsignals : ∀ event ∈ f.ahead, isSignal event) :
    m.advanceToNextUnconsumedEvent.drainEarlySignals.isReplaying = false ∧
      Shows m.advanceToNextUnconsumedEvent.drainEarlySignals (f.past f.ahead []) := by
  obtain ⟨-, hshows⟩ := h.drained
  obtain ⟨htake, hdrop⟩ := h.all_drained hsignals
  rw [htake, hdrop, ← HistoryMatcher.left, h.left] at hshows
  exact ⟨hshows.isReplaying, hshows⟩

/-- The drain reaches an event that is no signal. -/
theorem drained_at (h : Shows m f) {front rest : List WorkflowEvent} {event : WorkflowEvent}
    (hahead : f.ahead = front ++ event :: rest) (hsignals : ∀ event ∈ front, isSignal event)
    (hstays : ¬ isSignal event) {d : HistoryMatcher}
    (hd : m.advanceToNextUnconsumedEvent.drainEarlySignals = d) :
    d.isReplaying = true ∧ d.events[d.cursor]? = some event ∧
      Shows d (f.past front (event :: rest)) ∧
      Shows { d with cursor := d.cursor + 1 }.advanceToNextUnconsumedEvent (f.past front rest) := by
  obtain ⟨hhead, hshows⟩ := h.drained
  obtain ⟨signals, i, later, htake, hdrop, rfl, rfl⟩ := h.split hahead hsignals hstays
  rw [htake, hdrop, hd] at hshows
  rw [hd] at hhead
  obtain ⟨hevent, hnext⟩ := hshows.cons hhead rfl
  exact ⟨hshows.isReplaying, hevent, hshows, hnext⟩

end Shows

section Version

variable {changeId : String} {min max : UInt32}

theorem matchVersion_live (h : Shows m f) (hahead : f.ahead = []) :
    ∃ m₁, m.matchVersion changeId min max = (max, m₁) ∧ Shows m₁ f := by
  rw [matchVersion]
  simp only [h.at_end hahead, Bool.not_false, if_true]
  exact ⟨_, rfl, h.advance.left, h.stash, h.external, h.patches, h.logged⟩

theorem matchVersion_drained (h : Shows m f) (hleft : f.ahead ≠ [])
    (hsignals : ∀ event ∈ f.ahead, isSignal event) :
    ∃ m₁, m.matchVersion changeId min max = (min, m₁) ∧ Shows m₁ (f.past f.ahead []) := by
  obtain ⟨hended, hshows⟩ := h.drained_end hsignals
  rw [matchVersion]
  simp only [h.before_end hleft, hended, Bool.not_true, Bool.not_false, Bool.false_eq_true, if_false,
    if_true]
  exact ⟨_, rfl, hshows⟩

theorem matchVersion_taken (h : Shows m f) {front rest : List WorkflowEvent} {details : Json}
    (hahead : f.ahead = front ++ .markerRecorded (versionMarkerName changeId) details :: rest)
    (hsignals : ∀ event ∈ front, isSignal event) :
    ∃ m₁, m.matchVersion changeId min max = ((asU32 details).getD min, m₁) ∧
      Shows m₁ (f.past front rest) := by
  obtain ⟨hreplaying, hevent, -, hnext⟩ := h.drained_at hahead hsignals Bool.false_ne_true rfl
  rw [matchVersion]
  simp only [h.before_end (by simp [hahead]), hreplaying, hevent, Bool.not_true, Bool.false_eq_true,
    if_false, if_true]
  exact ⟨_, rfl, hnext⟩

theorem matchVersion_absent (h : Shows m f) {front rest : List WorkflowEvent} {event : WorkflowEvent}
    (hahead : f.ahead = front ++ event :: rest) (hsignals : ∀ event ∈ front, isSignal event)
    (hstays : ¬ isSignal event)
    (hother : ∀ details, event ≠ .markerRecorded (versionMarkerName changeId) details) :
    ∃ m₁, m.matchVersion changeId min max = (min, m₁) ∧ Shows m₁ (f.past front (event :: rest)) := by
  obtain ⟨hreplaying, hevent, hshows, -⟩ := h.drained_at hahead hsignals hstays rfl
  rw [matchVersion]
  simp only [h.before_end (by simp [hahead]), hreplaying, hevent, Bool.not_true, Bool.false_eq_true,
    if_false]
  cases event with
  | markerRecorded name details =>
    have hne : name ≠ versionMarkerName changeId := fun hname => hother details (by rw [hname])
    simp only [hne, if_false]
    exact ⟨_, rfl, hshows⟩
  | _ => exact ⟨_, rfl, hshows⟩

end Version

section Patched

variable {patchId : String}

theorem matchPatchMarker_live (h : Shows m f) (hahead : f.ahead = []) :
    ∃ m₁, m.matchPatchMarker patchId = (.newlyPatched, m₁) ∧ Shows m₁ f := by
  rw [matchPatchMarker, h.patches]
  simp only [h.at_end hahead, Bool.not_false, if_true]
  exact ⟨_, rfl, h.advance.left, h.stash, h.external, h.patches, h.logged⟩

theorem matchPatchMarker_drained (h : Shows m f) (hleft : f.ahead ≠ [])
    (hsignals : ∀ event ∈ f.ahead, isSignal event) :
    ∃ m₁, m.matchPatchMarker patchId = (.absent, m₁) ∧ Shows m₁ (f.past f.ahead []) := by
  obtain ⟨hended, hshows⟩ := h.drained_end hsignals
  rw [matchPatchMarker, h.patches]
  simp only [h.before_end hleft, hended, Bool.not_true, Bool.not_false, Bool.false_eq_true, if_false,
    if_true]
  exact ⟨_, rfl, hshows⟩

theorem matchPatchMarker_taken (h : Shows m f) {front rest : List WorkflowEvent} {name : String}
    {details : Json} (hahead : f.ahead = front ++ .markerRecorded name details :: rest)
    (hsignals : ∀ event ∈ front, isSignal event)
    (hname : name = patchMarkerName patchId ∨ name = versionMarkerName patchId) :
    ∃ m₁, m.matchPatchMarker patchId = (.recorded, m₁) ∧ Shows m₁ (f.past front rest) := by
  obtain ⟨hreplaying, hevent, -, hnext⟩ := h.drained_at hahead hsignals Bool.false_ne_true rfl
  rw [matchPatchMarker, h.patches]
  simp only [h.before_end (by simp [hahead]), hreplaying, hevent, hname, Bool.not_true,
    Bool.false_eq_true, if_false, if_true]
  exact ⟨_, rfl, hnext⟩

theorem matchPatchMarker_absent (h : Shows m f) {front rest : List WorkflowEvent}
    {event : WorkflowEvent} (hahead : f.ahead = front ++ event :: rest)
    (hsignals : ∀ event ∈ front, isSignal event) (hstays : ¬ isSignal event)
    (hother : ∀ name details, event = .markerRecorded name details →
      ¬ (name = patchMarkerName patchId ∨ name = versionMarkerName patchId)) :
    ∃ m₁, m.matchPatchMarker patchId = (.absent, m₁) ∧ Shows m₁ (f.past front (event :: rest)) := by
  obtain ⟨hreplaying, hevent, hshows, -⟩ := h.drained_at hahead hsignals hstays rfl
  rw [matchPatchMarker, h.patches]
  simp only [h.before_end (by simp [hahead]), hreplaying, hevent, Bool.not_true, Bool.false_eq_true,
    if_false]
  cases event with
  | markerRecorded name details =>
    have hne := hother name details rfl
    simp only [hne, if_false]
    exact ⟨_, rfl, hshows⟩
  | _ => exact ⟨_, rfl, hshows⟩

end Patched

section Gates

variable {fresh : ActivityExecId} {gate : Gate}

theorem does_gate {answer : Answer} {pushed : Option Command} {m₁ : HistoryMatcher} {f' : Front}
    (hexec : gate.exec m = ((answer, pushed), m₁)) (hshows : Shows m₁ f') :
    Does fresh m (.gate gate) (.answered answer pushed) f' := by
  rw [Does, WorkflowCall.exec, hexec]
  exact ⟨rfl, fun _ => hshows⟩

theorem does_live (h : Shows m f) (hahead : f.ahead = []) :
    Does fresh m (.gate gate) (.answered gate.new (some gate.marker)) f := by
  cases gate with
  | patched patchId =>
    obtain ⟨m₁, hmatch, hshows⟩ := @matchPatchMarker_live m f patchId h hahead
    refine does_gate ?_ hshows
    rw [Gate.exec, patched, hmatch]
    rfl
  | version changeId min max =>
    obtain ⟨m₁, hmatch, hshows⟩ := @matchVersion_live _ f changeId min max h.advance hahead
    refine does_gate ?_ hshows
    have hended : m₁.isReplaying = false := by
      rw [hshows.isReplaying, hahead]
      rfl
    rw [Gate.exec, version, hmatch]
    simp only [hended, Bool.not_false, decide_true, Bool.and_self, if_true]
    rfl

theorem does_drained (h : Shows m f) (hleft : f.ahead ≠ [])
    (hsignals : ∀ event ∈ f.ahead, isSignal event) :
    Does fresh m (.gate gate)
      (.answered gate.old (if gate.old = gate.new then some gate.marker else none))
      (f.past f.ahead []) := by
  cases gate with
  | patched patchId =>
    obtain ⟨m₁, hmatch, hshows⟩ := @matchPatchMarker_drained m f patchId h hleft hsignals
    refine does_gate ?_ hshows
    rw [Gate.exec, patched, hmatch]
    rfl
  | version changeId min max =>
    obtain ⟨m₁, hmatch, hshows⟩ :=
      @matchVersion_drained _ f changeId min max h.advance hleft hsignals
    refine does_gate ?_ hshows
    have hended : m₁.isReplaying = false := hshows.isReplaying
    rw [Gate.exec, version, hmatch]
    simp only [hended, Bool.not_false, Bool.true_and, decide_eq_true_eq, Gate.old, Gate.new,
      Answer.version.injEq]
    rfl

theorem dropWhile_signals {front rest : List WorkflowEvent} {event : WorkflowEvent}
    (hsignals : ∀ event ∈ front, isSignal event) (hstays : ¬ isSignal event) :
    (front ++ event :: rest).dropWhile isSignal = event :: rest := by
  rw [List.dropWhile_append_of_pos hsignals, List.dropWhile_cons_of_neg hstays]

theorem does_taken {name : String} {details : Json} {front rest : List WorkflowEvent} (h : Shows m f)
    (hahead : f.ahead = front ++ .markerRecorded name details :: rest)
    (hsignals : ∀ event ∈ front, isSignal event) (hlooks : gate.looksFor name) :
    Does fresh m (.gate gate)
      (.answered (gate.read details) (if gate.recordsAgain f.ahead then some gate.marker else none))
      (f.past front rest) := by
  cases gate with
  | patched patchId =>
    obtain ⟨m₁, hmatch, hshows⟩ :=
      matchPatchMarker_taken h hahead hsignals (of_decide_eq_true hlooks)
    refine does_gate ?_ hshows
    rw [Gate.exec, patched, hmatch]
    rfl
  | version changeId min max =>
    obtain rfl : name = versionMarkerName changeId := of_decide_eq_true hlooks
    obtain ⟨m₁, hmatch, hshows⟩ :=
      @matchVersion_taken _ f changeId min max h.advance front rest details hahead hsignals
    refine does_gate ?_ hshows
    have hreplaying : m₁.isReplaying = ! rest.isEmpty := hshows.isReplaying
    have hagain : (Gate.version changeId min max).recordsAgain f.ahead =
        (rest.isEmpty && (asU32 details).getD min = max) := by
      rw [Gate.recordsAgain, hahead, @dropWhile_signals front rest
        (.markerRecorded (versionMarkerName changeId) details) hsignals Bool.false_ne_true]
      cases rest <;> simp
    rw [Gate.exec, version, hmatch, hagain]
    simp only [hreplaying, Bool.not_not]
    rfl

theorem does_absent {event : WorkflowEvent} {front rest : List WorkflowEvent} (h : Shows m f)
    (hahead : f.ahead = front ++ event :: rest) (hsignals : ∀ event ∈ front, isSignal event)
    (hstays : ¬ isSignal event)
    (hother : ∀ name details, event = .markerRecorded name details → ¬ gate.looksFor name) :
    Does fresh m (.gate gate) (.answered gate.old none) (f.past front (event :: rest)) := by
  cases gate with
  | patched patchId =>
    obtain ⟨m₁, hmatch, hshows⟩ := @matchPatchMarker_absent m f patchId h front rest event hahead
      hsignals hstays fun name details hevent hname => hother name details hevent
        (decide_eq_true hname)
    refine does_gate ?_ hshows
    rw [Gate.exec, patched, hmatch]
    rfl
  | version changeId min max =>
    obtain ⟨m₁, hmatch, hshows⟩ := @matchVersion_absent _ f changeId min max h.advance front rest
      event hahead hsignals hstays fun details hevent => hother _ details hevent (decide_eq_true rfl)
    refine does_gate ?_ hshows
    have hreplaying : m₁.isReplaying = true := hshows.isReplaying
    rw [Gate.exec, version, hmatch]
    simp only [hreplaying, Bool.not_true, Bool.false_and, Bool.false_eq_true, if_false]
    rfl

end Gates

/-- **A matcher does what its front says.** -/
theorem exec_of_takes {fresh : ActivityExecId} {call : WorkflowCall} {turn : Turn} {f' : Front}
    (h : Shows m f) (htakes : Takes fresh f call turn f') : Does fresh m call turn f' := by
  cases htakes with
  | scheduled signals => exact does_scheduled h signals
  | inProgress ahead signals skips => exact does_inProgress h ahead signals skips
  | completed ahead signals skips ends result => exact does_completed h ahead signals skips ends result
  | claimed stash others => exact does_claimed h stash others
  | found stash ahead others => exact does_found h stash ahead others
  | unsent stash others => exact does_unsent h stash others
  | live ahead => exact does_live h ahead
  | drained left signals => exact does_drained h left signals
  | taken ahead signals looks => exact does_taken h ahead signals looks
  | absent ahead signals stays other => exact does_absent h ahead signals stays other

end Calls

end Harvest.Replay
