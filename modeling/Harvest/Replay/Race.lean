import Harvest.Replay.Calls
import Mathlib.Order.Bounds.Basic

/-!
# Races of a signal and a deadline

A race is decided by what is recorded first: a signal of its name that no call has returned, or
the fire of its timer. Where a signal waits, in history or in the stash, makes no difference.

Proved here:
* `raceLoop_skip`: the scan goes on at an event that does not decide the race.
* `race_is_decided_by_history_order`: the result of the race, in every reachable state.
-/

namespace Harvest.Replay

open HistoryMatcher

namespace HistoryMatcher

/-- A signal of the name that no call has returned: it is unconsumed, or in the stash. -/
def Undelivered (m : HistoryMatcher) (signalName : String) (i : Nat) : Prop :=
  (∃ payload, m.signalAt i = some (signalName, payload)) ∧
    (¬ m.isConsumed i ∨ ∃ entry ∈ m.pendingSignals.entries, entry.index = i)

/-- An unconsumed fire of the timer. -/
def Fires (m : HistoryMatcher) (timerId : String) (i : Nat) : Prop :=
  ¬ m.isConsumed i ∧ (m.events[i]?).any (isFireOf timerId)

/-- An event that ends the scan of a race without a winner. -/
def Barrier (m : HistoryMatcher) (i : Nat) : Prop :=
  ¬ m.isConsumed i ∧ (m.events[i]?).any fun event =>
    decide (activityScanRole event = .barrier) && ! isTransparentExternalEvent event &&
      ! isUpdateEvent event

/-- Every entry of the stash is the signal of its event. -/
def Sound (m : HistoryMatcher) : Prop :=
  ∀ entry ∈ m.pendingSignals.entries, m.signalAt entry.index = some (entry.name, entry.payload)

/-- The second matcher differs only in what the scan did at `at'`. -/
structure After (signalName : String) (at' : Nat) (m m' : HistoryMatcher) : Prop where
  events : m'.events = m.events
  consumed : ∀ i, i ≠ at' → m'.isConsumed i = m.isConsumed i
  undelivered : ∀ i, m'.Undelivered signalName i ↔ m.Undelivered signalName i
  sound : m.Sound → m'.Sound

variable {m m' : HistoryMatcher} {signalName timerId : String} {at' : Nat}

theorem After.refl (signalName : String) (at' : Nat) (m : HistoryMatcher) :
    After signalName at' m m :=
  ⟨rfl, fun _ _ => rfl, fun _ => Iff.rfl, id⟩

theorem After.fires (h : After signalName at' m m') {i : Nat} (hi : i ≠ at') :
    m'.Fires timerId i ↔ m.Fires timerId i := by
  unfold Fires
  rw [h.events, h.consumed i hi]

theorem After.barrier (h : After signalName at' m m') {i : Nat} (hi : i ≠ at') :
    m'.Barrier i ↔ m.Barrier i := by
  unfold Barrier
  rw [h.events, h.consumed i hi]

theorem signalAt_eq_some {name : String} {payload : Json} :
    m.signalAt at' = some (name, payload) ↔
      m.events[at']? = some (.signalReceived name payload) := by
  unfold HistoryMatcher.signalAt signalIn
  constructor
  · intro h
    cases hevent : m.events[at']? with
    | none =>
      rw [hevent] at h
      cases h
    | some event =>
      rw [hevent] at h
      cases event <;> cases h
      rfl
  · intro h
    rw [h]
    rfl

/-- Stashing an event that is no signal of the race. -/
theorem after_stash (hother : ∀ payload, m.signalAt at' ≠ some (signalName, payload)) :
    After signalName at' m (m.stashTransparentExternalEvent at') := by
  -- the stash gains at most the signal at this position
  have hentries : ∃ new, (m.stashTransparentExternalEvent at').pendingSignals.entries =
      m.pendingSignals.entries ++ new ∧ ∀ entry ∈ new, entry.index = at' ∧
        m.signalAt entry.index = some (entry.name, entry.payload) := by
    cases hsignal : m.signalAt at' with
    | none =>
      refine ⟨[], ?_, nofun⟩
      rw [(quiet_stash hsignal).pendingSignals, List.append_nil]
    | some signal =>
      obtain ⟨name, payload⟩ := signal
      rw [stash_eq_stashSignal hsignal]
      refine ⟨[⟨name, payload, at'⟩], rfl, fun entry hmem => ?_⟩
      rw [List.mem_singleton.mp hmem]
      exact ⟨rfl, hsignal⟩
  obtain ⟨new, hentries, hnew⟩ := hentries
  refine ⟨stash_events m at', fun i hi => stash_isConsumed_of_ne hi, fun i => ?_, fun h => ?_⟩
  · unfold Undelivered
    rw [stash_signalAt, hentries]
    refine and_congr_right fun ⟨payload, hsignal⟩ => ?_
    have hne : i ≠ at' := by
      rintro rfl
      exact hother payload hsignal
    rw [stash_isConsumed_of_ne hne]
    refine or_congr_right ⟨?_, ?_⟩
    · rintro ⟨entry, hmem, hindex⟩
      rcases List.mem_append.mp hmem with hmem | hmem
      · exact ⟨entry, hmem, hindex⟩
      · exact absurd (hindex.symm.trans (hnew entry hmem).1) hne
    · rintro ⟨entry, hmem, hindex⟩
      exact ⟨entry, List.mem_append_left _ hmem, hindex⟩
  · intro entry hmem
    rw [stash_signalAt]
    rw [hentries] at hmem
    rcases List.mem_append.mp hmem with hmem | hmem
    · exact h entry hmem
    · exact (hnew entry hmem).2

/-! ## The scan -/

theorem takeStashedSignalAt_eq_none (h : ¬ m.Undelivered signalName at') :
    m.takeStashedSignalAt at' signalName = none := by
  unfold takeStashedSignalAt SignalStash.removeFirst
  split_ifs with hsignal
  · rw [Option.map_map, Option.map_eq_none_iff, List.find?_eq_none]
    intro entry hmem htakes
    rw [Bool.and_eq_true, decide_eq_true_eq, decide_eq_true_eq] at htakes
    refine h ⟨?_, Or.inr ⟨entry, hmem, htakes.2⟩⟩
    obtain ⟨event, hevent, hname⟩ := (Option.any_eq_true _ _).mp hsignal
    cases event <;> first | cases hname | skip
    next name payload =>
      obtain rfl : name = signalName := of_decide_eq_true hname
      exact ⟨payload, signalAt_eq_some.mpr hevent⟩
  · rfl

theorem takeStashedSignalAt_eq_some {payload : Json} (hsound : m.Sound)
    (hsignal : m.signalAt at' = some (signalName, payload)) {entry : StashedSignal}
    (hmem : entry ∈ m.pendingSignals.entries) (hindex : entry.index = at') :
    ∃ m', m.takeStashedSignalAt at' signalName = some (payload, m') := by
  have hentry (other : StashedSignal) (hother : other ∈ m.pendingSignals.entries)
      (hat : other.index = at') : (other.name, other.payload) = (signalName, payload) := by
    have hother := hsound other hother
    rw [hat, hsignal] at hother
    exact (Option.some.inj hother).symm
  have hany : (m.events[at']?).any (isSignalOf signalName) := by
    rw [signalAt_eq_some.mp hsignal]
    exact decide_eq_true rfl
  have hname := (Prod.mk.inj (hentry entry hmem hindex)).1
  have hfind : (m.pendingSignals.entries.find? fun entry =>
      decide (entry.name = signalName) && decide (entry.index = at')).isSome := by
    rw [List.find?_isSome]
    exact ⟨entry, hmem, by simp [hname, hindex]⟩
  obtain ⟨found, hfound⟩ := Option.isSome_iff_exists.mp hfind
  have hat : found.index = at' := by
    have htakes := List.find?_some hfound
    rw [Bool.and_eq_true] at htakes
    exact of_decide_eq_true htakes.2
  have hpayload := (Prod.mk.inj (hentry found (List.mem_of_find?_eq_some hfound) hat)).2
  unfold takeStashedSignalAt SignalStash.removeFirst
  rw [if_pos hany, hfound, ← hpayload]
  exact ⟨_, rfl⟩

/-- **The scan goes on** at an event that does not decide the race. -/
theorem raceLoop_skip {n : Nat} (first : Option Nat) (hlt : at' < m.events.length)
    (hsignal : ¬ m.Undelivered signalName at') (hfire : ¬ m.Fires timerId at')
    (hbarrier : ¬ m.Barrier at') :
    ∃ m' first', After signalName at' m m' ∧
      raceLoop signalName timerId (n + 1) at' first m =
        raceLoop signalName timerId n (at' + 1) first' m' := by
  have hself := After.refl signalName at' m
  by_cases hconsumed : m.isConsumed at'
  · refine ⟨m, first, hself, ?_⟩
    rw [raceLoop, if_pos hconsumed, takeStashedSignalAt_eq_none hsignal]
  · have hother (payload : Json) : m.signalAt at' ≠ some (signalName, payload) :=
      fun h => hsignal ⟨⟨payload, h⟩, Or.inl hconsumed⟩
    have hstash := after_stash hother
    obtain ⟨event, hevent⟩ : ∃ event, m.events[at']? = some event :=
      ⟨_, List.getElem?_eq_getElem hlt⟩
    rw [raceLoop, if_neg hconsumed, hevent]
    split
    · next heq => cases heq
    · next recordedName payload heq =>
      obtain rfl := Option.some.inj heq
      have hname : recordedName ≠ signalName := by
        rintro rfl
        exact hother payload (signalAt_eq_some.mpr hevent)
      rw [if_neg hname]
      exact ⟨_, first, hstash, rfl⟩
    · next other _ heq =>
      obtain rfl := Option.some.inj heq
      have hnot : ¬ isFireOf timerId event := fun h => hfire ⟨hconsumed, by rw [hevent]; exact h⟩
      rw [if_neg hnot]
      by_cases hupdate : isUpdateEvent event
      · rw [if_pos hupdate]
        exact ⟨m, first, hself, rfl⟩
      · rw [if_neg hupdate]
        split
        · exact ⟨m, _, hself, rfl⟩
        · exact ⟨m, _, hself, rfl⟩
        · exact ⟨m, first, hself, rfl⟩
        · exact ⟨m, first, hself, rfl⟩
        · exact ⟨m, first, hself, rfl⟩
        · exact ⟨m, first, hself, rfl⟩
        · exact ⟨m, first, hself, rfl⟩
        · exact ⟨_, first, hstash, rfl⟩
        · next hrole =>
          have htransparent : isTransparentExternalEvent event := by
            by_contra hopaque
            refine hbarrier ⟨hconsumed, ?_⟩
            rw [hevent, Option.any_some, hrole]
            simp [Bool.eq_false_iff.mpr hopaque, hupdate]
          rw [if_pos htransparent]
          exact ⟨_, first, hstash, rfl⟩

/-- A signal decides the race, in history or in the stash. -/
theorem raceLoop_signal {n : Nat} (first : Option Nat) (hsound : m.Sound)
    (h : m.Undelivered signalName at') :
    ∃ payload, m.signalAt at' = some (signalName, payload) ∧
      (raceLoop signalName timerId (n + 1) at' first m).1 = .signalWon payload := by
  obtain ⟨⟨payload, hsignal⟩, hwaits⟩ := h
  refine ⟨payload, hsignal, ?_⟩
  have hevent := signalAt_eq_some.mp hsignal
  by_cases hconsumed : m.isConsumed at'
  · obtain ⟨entry, hmem, hindex⟩ := hwaits.resolve_left (not_not_intro hconsumed)
    obtain ⟨m', htake⟩ := takeStashedSignalAt_eq_some hsound hsignal hmem hindex
    rw [raceLoop, if_pos hconsumed, htake]
  · rw [raceLoop, if_neg hconsumed, hevent]
    dsimp only
    rw [if_pos rfl]

theorem raceLoop_fire {n : Nat} (first : Option Nat) (h : m.Fires timerId at') :
    (raceLoop signalName timerId (n + 1) at' first m).1 = .timerWon := by
  obtain ⟨hconsumed, hfire⟩ := h
  obtain ⟨event, hevent, hfire⟩ := (Option.any_eq_true _ _).mp hfire
  rw [raceLoop, if_neg hconsumed, hevent]
  split
  · next heq => cases heq
  · next heq =>
    obtain rfl := Option.some.inj heq
    cases hfire
  · next heq =>
    obtain rfl := Option.some.inj heq
    rw [if_pos hfire]

theorem raceLoop_end (signalName timerId : String) (at' : Nat) (first : Option Nat)
    (m : HistoryMatcher) : (raceLoop signalName timerId 0 at' first m).1 = .inProgress := by
  unfold raceLoop
  rfl

/-- Nothing in the range decides the race. -/
def Undecided (m : HistoryMatcher) (signalName timerId : String) (start stop : Nat) : Prop :=
  ∀ i, start ≤ i → i < stop →
    ¬ m.Undelivered signalName i ∧ ¬ m.Fires timerId i ∧ ¬ m.Barrier i

theorem After.undecided (h : After signalName at' m m') {stop : Nat}
    (hrange : m.Undecided signalName timerId at' stop) :
    m'.Undecided signalName timerId (at' + 1) stop := by
  intro i hle hlt
  have hne : i ≠ at' := by omega
  rw [h.undelivered, h.fires hne, h.barrier hne]
  exact hrange i (by omega) hlt

/-- The scan reaches the first event that decides the race, or the end. -/
theorem raceLoop_reaches {n k : Nat} (first : Option Nat) (hn : at' + (n + k) = m.events.length)
    (hrange : m.Undecided signalName timerId at' (at' + n)) (hsound : m.Sound) :
    ∃ m' first', m'.events = m.events ∧ m'.Sound ∧
      (∀ i, m'.Undelivered signalName i ↔ m.Undelivered signalName i) ∧
      (∀ i, at' + n ≤ i → m'.isConsumed i = m.isConsumed i) ∧
      raceLoop signalName timerId (n + k) at' first m =
        raceLoop signalName timerId k (at' + n) first' m' := by
  induction n generalizing m at' first with
  | zero =>
    exact ⟨m, first, rfl, hsound, fun _ => Iff.rfl, fun _ _ => rfl, by rw [Nat.zero_add]; rfl⟩
  | succ n ih =>
    obtain ⟨hsignal, hfire, hbarrier⟩ := hrange at' (Nat.le_refl _) (by omega)
    obtain ⟨m₁, first₁, hafter, hloop⟩ :=
      @raceLoop_skip m signalName timerId at' (n + k) first (by omega) hsignal hfire hbarrier
    have hrange₁ := hafter.undecided hrange
    rw [show at' + (n + 1) = at' + 1 + n by omega] at hrange₁ ⊢
    obtain ⟨m₂, first₂, hevents, hsound₂, hundelivered, hconsumed, hrest⟩ :=
      @ih m₁ (at' + 1) first₁ (by rw [hafter.events]; omega) hrange₁ (hafter.sound hsound)
    refine ⟨m₂, first₂, hevents.trans hafter.events, hsound₂,
      fun i => (hundelivered i).trans (hafter.undelivered i), fun i hle => ?_, ?_⟩
    · rw [hconsumed i hle, hafter.consumed i (by omega)]
    · rw [show n + 1 + k = n + k + 1 by omega, hloop, hrest]

/-! ## Before the race -/

theorem prepareMatch_spares (m : HistoryMatcher) :
    Spares m m.prepareMatch ∧ (m.prepareMatch.cursor < m.prepareMatch.events.length →
      ¬ m.prepareMatch.isConsumed m.prepareMatch.cursor) := by
  obtain ⟨hdrain, -, hend⟩ := drainLoop_spec m.events.length m.advanceToNextUnconsumedEvent
    (Nat.le_add_left _ _) m.advanceToNext_unconsumed
  obtain ⟨hscan, hcursor⟩ := Spares.scanAhead m.advanceToNextUnconsumedEvent.drainEarlySignals
  have hadvance : Spares m m.advanceToNextUnconsumedEvent := ⟨rfl, fun _ => id, fun _ => id⟩
  refine ⟨(hadvance.trans hdrain).trans hscan, fun hlt => ?_⟩
  have hlt' : m.advanceToNextUnconsumedEvent.drainEarlySignals.cursor <
      m.advanceToNextUnconsumedEvent.drainEarlySignals.events.length := by
    rw [← hscan.events, ← hcursor]
    exact hlt
  have hblocks := hscan.spares _ (hend hlt')
  rw [show m.prepareMatch.cursor = _ from hcursor]
  exact hblocks.1

theorem drainLoop_cursor_le (fuel : Nat) (m : HistoryMatcher) :
    m.cursor ≤ (drainLoop fuel m).cursor := by
  induction fuel generalizing m with
  | zero => exact Nat.le_refl _
  | succ fuel ih =>
    unfold drainLoop
    split
    · exact Nat.le_refl _
    · have hnext (m₁ : HistoryMatcher) :
          m₁.cursor ≤ (drainLoop fuel m₁.advanceToNextUnconsumedEvent).cursor :=
        Nat.le_trans m₁.advanceToNext_cursor_le (ih _)
      split_ifs
      · exact Nat.le_trans (Nat.le_succ m.cursor)
          (hnext { m.stashTransparentExternalEvent m.cursor with cursor := m.cursor + 1 })
      · exact Nat.le_trans (Nat.le_succ m.cursor) (hnext { m with
          consumedSignalEvents := insert m.cursor m.consumedSignalEvents
          cursor := m.cursor + 1 })
      · exact Nat.le_refl _

theorem prepareMatch_cursor_le (m : HistoryMatcher) : m.cursor ≤ m.prepareMatch.cursor := by
  have hscan := (Spares.scanAhead m.advanceToNextUnconsumedEvent.drainEarlySignals).2
  rw [show m.prepareMatch.cursor = _ from hscan]
  exact Nat.le_trans m.advanceToNext_cursor_le (drainLoop_cursor_le _ _)

theorem Spares.fires_iff (h : Spares m m') (i : Nat) : m'.Fires timerId i ↔ m.Fires timerId i := by
  unfold Fires
  rw [h.events]
  refine and_congr_left fun hfire => not_congr ⟨fun hdone => ?_, h.grows i⟩
  by_contra hnew
  obtain ⟨event, hevent, hfire⟩ := (Option.any_eq_true _ _).mp hfire
  refine (h.spares i ⟨hnew, event, hevent, ?_, ?_⟩).1 hdone <;> cases event <;>
    first | cases hfire | exact nofun

theorem Spares.barrier_iff (h : Spares m m') (i : Nat) : m'.Barrier i ↔ m.Barrier i := by
  unfold Barrier
  rw [h.events]
  refine and_congr_left fun hbarrier => not_congr ⟨fun hdone => ?_, h.grows i⟩
  by_contra hnew
  obtain ⟨event, hevent, hbarrier⟩ := (Option.any_eq_true _ _).mp hbarrier
  rw [Bool.and_eq_true, Bool.and_eq_true, Bool.not_eq_true', Bool.not_eq_true'] at hbarrier
  refine (h.spares i ⟨hnew, event, hevent, ?_, ?_⟩).1 hdone
  · rw [hbarrier.1.2]
    exact nofun
  · rw [hbarrier.2]
    exact nofun

end HistoryMatcher

variable {v : View}

/-- Undelivered is not delivered. -/
theorem Mail.undelivered_iff (h : Mail v) {signalName : String} {i : Nat} :
    v.matcher.Undelivered signalName i ↔
      (∃ payload, v.matcher.signalAt i = some (signalName, payload)) ∧
        i ∉ v.matcher.delivered := by
  refine and_congr_right fun ⟨payload, hsignal⟩ => ?_
  have hlt : i < v.matcher.events.length := lt_of_signalIn (by
    show (v.matcher.signalAt i).isSome
    rw [hsignal]
    rfl)
  have hsome : (v.signalAt i).isSome := by
    rw [v.signalAt_visible hlt, hsignal]
    rfl
  constructor
  · rintro (hnew | ⟨entry, hmem, rfl⟩) hdelivered
    · exact hnew (h.returned i hdelivered).2.1
    · exact (h.returned _ hdelivered).2.2
        (List.mem_map_of_mem (List.mem_append_left _ hmem))
  · intro hnot
    by_cases hdone : v.matcher.isConsumed i
    · right
      obtain ⟨entry, hmem, hindex⟩ :=
        List.mem_map.mp ((h.kept i hsome hdone).resolve_right hnot)
      rcases List.mem_append.mp hmem with hmem | hmem
      · exact ⟨entry, hmem, hindex⟩
      · have hle := h.boxed.le entry hmem
        omega
    · exact Or.inl hdone

theorem Mail.sound (h : Mail v) : v.matcher.Sound := by
  intro entry hmem
  rw [← v.signalAt_visible (h.visible entry hmem)]
  exact h.signal entry (List.mem_append_left _ hmem)

theorem Mail.clear (h : Mail v) : v.matcher.Clear v.matcher.cursor := by
  intro i hi hsignal
  refine h.cursor i hi ?_
  rw [v.signalAt_visible (lt_of_signalIn hsignal)]
  exact hsignal

/-- A race that finds its timer is in a matcher that still replays. -/
theorem Reachable.mail_prepareMatch {history : List WorkflowEvent} (h : Reachable history v)
    (hlt : v.matcher.prepareMatch.cursor < v.matcher.prepareMatch.events.length) :
    Mail v ∧ Mail ⟨v.matcher.prepareMatch, v.cuts⟩ := by
  have hlength := congrArg List.length (prepareMatch_spares v.matcher).1.events
  have hmail : Mail v := by
    refine h.mail_or_spent.resolve_right fun hspent => ?_
    have hcursor := hspent.cursor
    have hle := v.matcher.prepareMatch_cursor_le
    simp only [View.full, List.length_append] at hcursor
    omega
  refine ⟨hmail, ?_⟩
  exact hmail.goes (prepareMatch_goes hmail.clear).1

/-- The first signal recorded before the race is the first one that the stash holds. -/
theorem Mail.race_early (h : Mail v) {signalName : String} {entry : StashedSignal}
    {rest : SignalStash}
    (hfound : v.matcher.pendingSignals.removeFirst signalName
      (fun entry => decide (entry.index < v.matcher.cursor)) = some (entry, rest)) :
    v.matcher.signalAt entry.index = some (signalName, entry.payload) ∧
      entry.index < v.matcher.cursor ∧
      IsLeast {i | v.matcher.Undelivered signalName i} entry.index := by
  obtain ⟨rfl, htakes, before, after, hentries, -, hbefore⟩ :=
    SignalStash.removeFirst_eq_some hfound
  have hlt : entry.index < v.matcher.cursor := of_decide_eq_true htakes
  have hmem : entry ∈ v.matcher.pendingSignals.entries := by
    rw [hentries]
    exact List.mem_append_right _ List.mem_cons_self
  have hsignal := h.sound entry hmem
  refine ⟨hsignal, hlt, ⟨⟨entry.payload, hsignal⟩, Or.inr ⟨entry, hmem, rfl⟩⟩, ?_⟩
  rintro i ⟨⟨payload, hi⟩, hwaits⟩
  by_contra hbelow
  have hcursor : i < v.matcher.cursor := by omega
  -- a signal before the cursor is consumed, so it is in the stash
  have hdone : v.matcher.isConsumed i := h.clear i hcursor (by rw [hi]; rfl)
  obtain ⟨other, hother, rfl⟩ := hwaits.resolve_left (not_not_intro hdone)
  have hname : other.name = entry.name := by
    have hsame := h.sound other hother
    rw [hi] at hsame
    exact (Prod.mk.inj (Option.some.inj hsame)).1.symm
  rw [hentries] at hother
  rcases List.mem_append.mp hother with hother | hother
  · exact hbefore other hother ⟨hname, decide_eq_true hcursor⟩
  · have hsorted := (List.pairwise_append.mp h.sorted).1
    rw [hentries] at hsorted
    rcases List.mem_cons.mp hother with rfl | hother
    · exact hbelow (Nat.le_refl _)
    · have hafter := (List.pairwise_cons.mp (List.pairwise_append.mp hsorted).2.1).1 other hother
      omega

/-- No signal was recorded before the race if the stash holds none. -/
theorem Mail.race_late (h : Mail v) {signalName : String}
    (hnone : v.matcher.pendingSignals.removeFirst signalName
      (fun entry => decide (entry.index < v.matcher.cursor)) = none) {i : Nat}
    (hi : v.matcher.Undelivered signalName i) : v.matcher.cursor ≤ i := by
  obtain ⟨⟨payload, hsignal⟩, hwaits⟩ := hi
  by_contra hbelow
  have hcursor : i < v.matcher.cursor := Nat.not_le.mp hbelow
  have hdone : v.matcher.isConsumed i := h.clear i hcursor (by rw [hsignal]; rfl)
  obtain ⟨entry, hmem, rfl⟩ := hwaits.resolve_left (not_not_intro hdone)
  have hname : entry.name = signalName := by
    have hsame := h.sound entry hmem
    rw [hsignal] at hsame
    exact (Prod.mk.inj (Option.some.inj hsame)).1.symm
  exact SignalStash.removeFirst_eq_none hnone entry hmem ⟨hname, decide_eq_true hcursor⟩

/-- The race of a matcher that stands at the start of its timer. -/
theorem HistoryMatcher.raceLoop_decides {m : HistoryMatcher} {signalName timerId : String}
    {start : Nat} (hsound : m.Sound) (hstart : start ≤ m.events.length)
    (hafter : ∀ i, m.Undelivered signalName i → start ≤ i) :
    let result := (raceLoop signalName timerId (m.events.length - start) start none m).1
    (∀ s, IsLeast {i | m.Undelivered signalName i} s →
      (∀ f, start ≤ f → m.Fires timerId f → s < f) →
      (∀ i, start ≤ i → i < s → ¬ m.Barrier i) →
        ∃ payload, m.signalAt s = some (signalName, payload) ∧ result = .signalWon payload) ∧
    (∀ f, IsLeast {i | start ≤ i ∧ m.Fires timerId i} f →
      (∀ s, m.Undelivered signalName s → f < s) →
      (∀ i, start ≤ i → i < f → ¬ m.Barrier i) → result = .timerWon) ∧
    ((∀ s, ¬ m.Undelivered signalName s) → (∀ f, start ≤ f → ¬ m.Fires timerId f) →
      (∀ i, start ≤ i → ¬ m.Barrier i) → result = .inProgress) := by
  intro result
  -- the scan reaches every position up to which nothing decides the race
  have hreaches (stop : Nat) (hle : start ≤ stop) (hstop : stop ≤ m.events.length)
      (hrange : m.Undecided signalName timerId start stop) :
      ∃ m' first', m'.events = m.events ∧ m'.Sound ∧
        (∀ i, m'.Undelivered signalName i ↔ m.Undelivered signalName i) ∧
        (∀ i, stop ≤ i → m'.isConsumed i = m.isConsumed i) ∧
        result = (raceLoop signalName timerId (m.events.length - stop) stop first' m').1 := by
    obtain ⟨n, rfl⟩ := Nat.exists_eq_add_of_le hle
    have hlength : m.events.length - start = n + (m.events.length - (start + n)) := by omega
    obtain ⟨m', first', hevents, hsound', hundelivered, hconsumed, hloop⟩ :=
      @raceLoop_reaches m signalName timerId start n (m.events.length - (start + n)) none
        (by omega) hrange hsound
    refine ⟨m', first', hevents, hsound', hundelivered, hconsumed, ?_⟩
    show (raceLoop signalName timerId (m.events.length - start) start none m).1 = _
    rw [hlength, hloop]
  refine ⟨fun s hs hfires hbarrier => ?_, fun f hf hsignals hbarrier => ?_,
    fun hsignals hfires hbarrier => ?_⟩
  · have hlt : s < m.events.length := by
      obtain ⟨⟨payload, hsignal⟩, -⟩ := hs.1
      exact (List.getElem?_eq_some_iff.mp (signalAt_eq_some.mp hsignal)).1
    obtain ⟨m', first', hevents, hsound', hundelivered, -, hresult⟩ :=
      hreaches s (hafter s hs.1) hlt.le fun i hle hi =>
        ⟨fun h => Nat.not_le.mpr hi (hs.2 h), fun h => Nat.lt_asymm hi (hfires i hle h),
          hbarrier i hle hi⟩
    obtain ⟨payload, hsignal, hwon⟩ :=
      @raceLoop_signal m' signalName timerId s (m.events.length - s - 1) first' hsound'
        ((hundelivered s).mpr hs.1)
    refine ⟨payload, ?_, ?_⟩
    · rw [HistoryMatcher.signalAt, ← hevents]
      exact hsignal
    · rw [hresult, show m.events.length - s = m.events.length - s - 1 + 1 by omega]
      exact hwon
  · have hlt : f < m.events.length := by
      obtain ⟨event, hevent, -⟩ := (Option.any_eq_true _ _).mp hf.1.2.2
      exact (List.getElem?_eq_some_iff.mp hevent).1
    obtain ⟨m', first', hevents, -, -, hconsumed, hresult⟩ :=
      hreaches f hf.1.1 hlt.le fun i hle hi =>
        ⟨fun h => Nat.lt_asymm hi (hsignals i h), fun h => Nat.not_le.mpr hi (hf.2 ⟨hle, h⟩),
          hbarrier i hle hi⟩
    have hfire : m'.Fires timerId f := by
      unfold Fires
      rw [hevents, hconsumed f (Nat.le_refl _)]
      exact hf.1.2
    rw [hresult, show m.events.length - f = m.events.length - f - 1 + 1 by omega]
    exact raceLoop_fire first' hfire
  · obtain ⟨m', first', -, -, -, -, hresult⟩ :=
      hreaches m.events.length hstart (Nat.le_refl _) fun i hle _ =>
        ⟨hsignals i, hfires i hle, hbarrier i hle⟩
    rw [hresult, Nat.sub_self]
    exact raceLoop_end _ _ _ _ _

/-- **A race is decided by history order.** Let `s` be the first signal of the race that no call
has returned, and `f` the first unconsumed fire of its timer after the start. The earlier one
wins, and neither leaves the race open, if the scan meets no barrier before. -/
theorem race_is_decided_by_history_order (history : List WorkflowEvent) (v : View)
    (hreach : Reachable history v) (signalName timerId : String)
    (expectedDuration : Option UInt64) (id : TimerId) (duration : UInt64)
    (hstart : v.matcher.prepareMatch.events[v.matcher.prepareMatch.cursor]? =
      some (.timerStarted id duration))
    (hid : id.name = timerId) (hduration : durationDiffers expectedDuration duration = none) :
    let m := v.matcher
    let start := m.prepareMatch.cursor
    let signals := {i | m.Undelivered signalName i}
    let fires := {i | start < i ∧ m.Fires timerId i}
    let result := (m.matchSignalOrTimer signalName timerId expectedDuration).1
    (∀ s, IsLeast signals s → (∀ f ∈ fires, s < f) →
      (∀ i, start < i → i < s → ¬ m.Barrier i) →
        ∃ payload, m.signalAt s = some (signalName, payload) ∧ result = .signalWon payload) ∧
    (∀ f, IsLeast fires f → (∀ s ∈ signals, f < s) →
      (∀ i, start < i → i < f → ¬ m.Barrier i) → result = .timerWon) ∧
    (signals = ∅ → fires = ∅ → (∀ i, start < i → ¬ m.Barrier i) → result = .inProgress) := by
  intro m start signals fires result
  obtain ⟨hspares, hunconsumed⟩ := m.prepareMatch_spares
  have hlt := (List.getElem?_eq_some_iff.mp hstart).1
  obtain ⟨hmail, hprepared⟩ := hreach.mail_prepareMatch hlt
  -- what is before the race and what is after it, seen before or after the preparation
  have hsignalAt (i : Nat) : m.prepareMatch.signalAt i = m.signalAt i := by
    rw [HistoryMatcher.signalAt, hspares.events]
    rfl
  have hundelivered (i : Nat) :
      m.prepareMatch.Undelivered signalName i ↔ m.Undelivered signalName i := by
    have hbefore := @Mail.undelivered_iff _ hmail signalName i
    have hafter := @Mail.undelivered_iff _ hprepared signalName i
    rw [hbefore, hafter, hsignalAt, (prepareMatch_goes hmail.clear).2.2]
  have hsignals : {i | m.prepareMatch.Undelivered signalName i} = signals :=
    Set.ext hundelivered
  cases hearly : m.prepareMatch.pendingSignals.removeFirst signalName
      (fun entry => decide (entry.index < m.prepareMatch.cursor)) with
  | some found =>
    obtain ⟨entry, pending⟩ := found
    have hresult : result = .signalWon entry.payload := by
      show (m.matchSignalOrTimer signalName timerId expectedDuration).1 = _
      rw [matchSignalOrTimer, hearly]
    obtain ⟨hsignal, hbefore, hleast⟩ := hprepared.race_early hearly
    rw [hsignals] at hleast
    refine ⟨fun s hs _ _ => ?_, fun f hf hlater _ => ?_, fun hempty _ _ => ?_⟩
    · obtain rfl := hs.unique hleast
      exact ⟨entry.payload, (hsignalAt _).symm.trans hsignal, hresult⟩
    · have hstarted : start < f := hf.1.1
      exact absurd (hlater entry.index hleast.1) (Nat.lt_asymm (Nat.lt_trans hbefore hstarted))
    · rw [hempty] at hleast
      exact hleast.1.elim
  | none =>
    have hreplaying : m.prepareMatch.isReplaying := by
      rw [isReplaying_iff]
      exact ⟨_, Nat.le_refl _, hlt, hunconsumed hlt⟩
    have hloop : result = (raceLoop signalName timerId
        (m.prepareMatch.events.length - (start + 1)) (start + 1) none
        { m.prepareMatch with cursor := start + 1 }).1 := by
      show (m.matchSignalOrTimer signalName timerId expectedDuration).1 = _
      rw [matchSignalOrTimer, hearly, hreplaying, hstart]
      simp only [Bool.not_true, Bool.false_eq_true, if_false, hid, hduration, ne_eq,
        not_true_eq_false]
      rfl
    have hafter (i : Nat) (hi : m.prepareMatch.Undelivered signalName i) : start + 1 ≤ i := by
      refine Nat.lt_of_le_of_ne (hprepared.race_late hearly hi) ?_
      rintro rfl
      obtain ⟨⟨payload, hsignal⟩, -⟩ := hi
      have hevent := signalAt_eq_some.mp hsignal
      rw [hstart] at hevent
      cases hevent
    obtain ⟨hwon, hfired, hopen⟩ := @raceLoop_decides { m.prepareMatch with cursor := start + 1 }
      signalName timerId (start + 1) hprepared.sound hlt hafter
    have hfires (i : Nat) : m.prepareMatch.Fires timerId i ↔ m.Fires timerId i :=
      hspares.fires_iff i
    have hbarriers (i : Nat) : m.prepareMatch.Barrier i ↔ m.Barrier i := hspares.barrier_iff i
    have hfireSet : {i | start + 1 ≤ i ∧ m.prepareMatch.Fires timerId i} = fires :=
      Set.ext fun i => and_congr_right fun _ => hfires i
    rw [hloop]
    refine ⟨fun s hs hlater hclear => ?_, fun f hf hlater hclear => ?_,
      fun hempty hnone hclear => ?_⟩
    · obtain ⟨payload, hsignal, hresult⟩ := hwon s (hsignals ▸ hs)
        (fun f hle hf => hlater f ⟨hle, (hfires f).mp hf⟩)
        fun i hle hi => mt (hbarriers i).mp (hclear i hle hi)
      exact ⟨payload, (hsignalAt s).symm.trans hsignal, hresult⟩
    · exact hfired f (hfireSet ▸ hf) (fun s hs => hlater s ((hundelivered s).mp hs))
        fun i hle hi => mt (hbarriers i).mp (hclear i hle hi)
    · refine hopen (fun s hs => ?_) (fun f hle hf => ?_)
        fun i hle => mt (hbarriers i).mp (hclear i hle)
      · have hmem : s ∈ signals := (hundelivered s).mp hs
        rw [hempty] at hmem
        exact hmem
      · have hmem : f ∈ fires := ⟨hle, (hfires f).mp hf⟩
        rw [hnone] at hmem
        exact hmem

/-- A race that a signal wins. -/
def raceHistory : List WorkflowEvent :=
  [.timerStarted ⟨"race"⟩ 5, .signalReceived "go" (.str "a"), .timerFired ⟨"race"⟩]

/-- The scan of another call has stashed the signal. -/
theorem race_after_stash :
    let m := (new raceHistory).stashSignal 1 "go" (.str "a")
    Reachable raceHistory ⟨m, []⟩ ∧
      (m.matchSignalOrTimer "go" "race" (some 5)).1 = .signalWon (.str "a") := by
  intro m
  have hreach : Reachable raceHistory ⟨m, []⟩ := by
    refine Relation.ReflTransGen.single (.pass (@Pass.stash ⟨new raceHistory, []⟩ 1 "go" (.str "a")
      rfl (by decide +kernel) fun i hi hsignal => ?_))
    obtain rfl : i = 0 := by omega
    cases hsignal
  refine ⟨hreach, ?_⟩
  have hstart : m.prepareMatch.events[m.prepareMatch.cursor]? =
      some (.timerStarted ⟨"race"⟩ 5) := by
    decide +kernel
  obtain ⟨hwon, -, -⟩ := race_is_decided_by_history_order raceHistory ⟨m, []⟩ hreach "go" "race"
    (some 5) ⟨"race"⟩ 5 hstart rfl (by decide)
  have hsignal : ∀ i, (∃ payload, m.signalAt i = some ("go", payload)) → i = 1 := by
    rintro i ⟨payload, hi⟩
    have hlt := (List.getElem?_eq_some_iff.mp (signalAt_eq_some.mp hi)).1
    match i, hlt with
    | 0, _ => cases hi
    | 1, _ => rfl
    | 2, _ => cases hi
  have hcursor : m.prepareMatch.cursor = 0 := by decide +kernel
  obtain ⟨payload, hpayload, hresult⟩ := hwon 1
    ⟨⟨⟨.str "a", rfl⟩, Or.inr ⟨⟨"go", .str "a", 1⟩, List.mem_singleton.mpr rfl, rfl⟩⟩,
      fun i hi => (hsignal i hi.1).ge⟩
    (fun f hf => by
      have hpos : 0 < f := hcursor ▸ hf.1
      refine Nat.lt_of_le_of_ne hpos ?_
      rintro rfl
      exact nomatch hf.2.2)
    fun i hlt hi => by
      have hpos : 0 < i := hcursor ▸ hlt
      omega
  cases hpayload
  exact hresult

end Harvest.Replay
