import Harvest.Replay.Refine

/-!
# Asking whether a call is live

`prepare_match` moves the cursor past consumed events, drains the signals and external events at
it, and consumes external terminals far ahead before it says whether the matcher replays. The
probe `would_replay_after_prepare` answers from one pass over the untouched state.

Both ask for an unconsumed event at or after the cursor that no drain takes. No part of
`prepare_match` consumes such an event or moves the cursor past one, and the drain stops at the
first or at the end.
-/

namespace Harvest.Replay

/-! ## Skipping consumed positions -/

section SkipFrom

variable {p : Nat → Bool}

theorem of_lt_skipFrom {n i j : Nat} (hi : i ≤ j) (hj : j < skipFrom p n i) : p j := by
  induction n generalizing i with
  | zero => exact absurd hj (by unfold skipFrom; omega)
  | succ n ih =>
    unfold skipFrom at hj
    split_ifs at hj with hp
    · rcases Nat.eq_or_lt_of_le hi with rfl | hlt
      · exact hp
      · exact ih hlt hj
    · exact absurd hj (by omega)

theorem skipFrom_le (n i : Nat) : skipFrom p n i ≤ i + n := by
  induction n generalizing i with
  | zero => exact le_rfl
  | succ n ih =>
    unfold skipFrom
    split_ifs
    · have := ih (i + 1)
      omega
    · omega

/-- A walk that stopped early stopped at a position that does not hold. -/
theorem not_of_skipFrom_lt {n i : Nat} (h : skipFrom p n i < i + n) : ¬ p (skipFrom p n i) := by
  induction n generalizing i with
  | zero => exact absurd h (by unfold skipFrom; omega)
  | succ n ih =>
    unfold skipFrom at h ⊢
    split_ifs at h ⊢ with hp
    · exact ih (by omega)
    · exact hp

end SkipFrom

namespace HistoryMatcher

variable {m m' : HistoryMatcher}

/-- Replay goes on exactly while a visible event at or after the cursor is unconsumed. -/
theorem isReplaying_iff :
    m.isReplaying ↔ ∃ i, m.cursor ≤ i ∧ i < m.events.length ∧ ¬ m.isConsumed i := by
  let consumed := m.consumedOutOfOrderEvents ∪ m.consumedSignalEvents ∪ m.transparentEvents
  have hmem (i : Nat) : i ∈ consumed ↔ m.isConsumed i := by
    simp only [consumed, isConsumed, Finset.mem_union, Bool.or_eq_true, decide_eq_true_eq]
  constructor
  · intro h
    have hlt : skipFrom m.isConsumed consumed.card m.cursor < m.events.length := of_decide_eq_true h
    refine ⟨_, le_skipFrom _ _ _, hlt, fun hstop => ?_⟩
    -- The walk has read more consumed positions than there are.
    have hend : m.cursor + consumed.card ≤ skipFrom m.isConsumed consumed.card m.cursor :=
      Nat.le_of_not_lt fun hearly => not_of_skipFrom_lt hearly hstop
    have hsub : Finset.Icc m.cursor (m.cursor + consumed.card) ⊆ consumed := by
      intro j hj
      rw [Finset.mem_Icc] at hj
      rw [hmem]
      rcases Nat.lt_or_ge j (skipFrom m.isConsumed consumed.card m.cursor) with hlt | hge
      · exact of_lt_skipFrom hj.1 hlt
      · obtain rfl : j = skipFrom m.isConsumed consumed.card m.cursor := by omega
        exact hstop
    have := Finset.card_le_card hsub
    rw [Nat.card_Icc] at this
    omega
  · rintro ⟨i, hle, hlt, hnew⟩
    refine decide_eq_true (Nat.lt_of_le_of_lt (Nat.le_of_not_lt fun h => hnew ?_) hlt)
    exact of_lt_skipFrom hle h

/-! ## Events that no drain takes -/

/-- The event at `i` is unconsumed and no drain takes it. -/
def Blocks (m : HistoryMatcher) (i : Nat) : Prop :=
  ¬ m.isConsumed i ∧ ∃ event, m.events[i]? = some event ∧
    ¬ isTransparentExternalEvent event ∧ ¬ isUpdateEvent event

/-- An event at or after the cursor blocks the drains. -/
def Blocked (m : HistoryMatcher) : Prop := ∃ i, m.cursor ≤ i ∧ m.Blocks i

theorem wouldReplayAfterPrepare_iff : m.wouldReplayAfterPrepare ↔ m.Blocked := by
  unfold wouldReplayAfterPrepare Blocked Blocks
  simp only [List.any_eq_true, Bool.and_eq_true, Bool.not_eq_true', Option.any_eq_true]
  constructor
  · rintro ⟨i, hi, hnew, event, hevent, htransparent, hupdate⟩
    obtain ⟨k, hk, rfl⟩ := List.mem_iff_getElem.mp hi
    rw [List.getElem_drop, List.getElem_range] at *
    exact ⟨_, Nat.le_add_right _ _, by simpa using hnew, event, hevent, by simpa using htransparent,
      by simpa using hupdate⟩
  · rintro ⟨i, hle, hnew, event, hevent, htransparent, hupdate⟩
    have hlt : i < m.events.length := (List.getElem?_eq_some_iff.mp hevent).1
    refine ⟨i, ?_, by simpa using hnew, event, hevent, by simpa using htransparent,
      by simpa using hupdate⟩
    rw [List.mem_iff_getElem]
    refine ⟨i - m.cursor, by simp; omega, ?_⟩
    rw [List.getElem_drop, List.getElem_range]
    omega

/-- The second state consumed more, but no event that blocks. -/
structure Spares (m m' : HistoryMatcher) : Prop where
  events : m'.events = m.events
  grows : ∀ i, m.isConsumed i → m'.isConsumed i
  spares : ∀ i, m.Blocks i → m'.Blocks i

theorem Spares.refl (m : HistoryMatcher) : Spares m m := ⟨rfl, fun _ => id, fun _ => id⟩

theorem Spares.trans {m₁ m₂ m₃ : HistoryMatcher} (h₁ : Spares m₁ m₂) (h₂ : Spares m₂ m₃) :
    Spares m₁ m₃ :=
  ⟨h₂.events.trans h₁.events, fun i hi => h₂.grows i (h₁.grows i hi),
    fun i hi => h₂.spares i (h₁.spares i hi)⟩

theorem Spares.blocks_iff (h : Spares m m') (i : Nat) : m'.Blocks i ↔ m.Blocks i := by
  refine ⟨fun hi => ⟨fun hold => hi.1 (h.grows i hold), ?_⟩, h.spares i⟩
  rw [← h.events]
  exact hi.2

/-- Consuming an event that a drain takes spares every event that blocks. -/
theorem Spares.consume {at' : Nat} (hevents : m'.events = m.events)
    (hconsumed : ∀ i, m'.isConsumed i = (m.isConsumed i || decide (i = at')))
    (hdrained : (m.events[at']?).any fun event =>
      isTransparentExternalEvent event || isUpdateEvent event) : Spares m m' := by
  refine ⟨hevents, fun i hi => by simp [hconsumed, hi], fun i hi => ?_⟩
  obtain ⟨hnew, event, hevent, htransparent, hupdate⟩ := hi
  have hne : i ≠ at' := by
    rintro rfl
    rw [hevent] at hdrained
    simp [htransparent, hupdate] at hdrained
  refine ⟨by simp [hconsumed, hnew, hne], event, ?_, htransparent, hupdate⟩
  rw [hevents]
  exact hevent

/-- A change of the stashed external calls spares everything. -/
theorem Spares.withExternal (m : HistoryMatcher) (external : ExternalCalls) :
    Spares m { m with external := external } := ⟨rfl, fun _ => id, fun _ => id⟩

/-- Only an external terminal is resolved, and a drain takes those. -/
theorem Spares.resolveStashedTerminal (m : HistoryMatcher) (at' : Nat) :
    Spares m (m.resolveStashedTerminal at') := by
  have hinsert (external : ExternalCalls)
      (h : (m.events[at']?).any fun event =>
        isTransparentExternalEvent event || isUpdateEvent event) :
      Spares m { m with
        external := external
        consumedSignalEvents := insert at' m.consumedSignalEvents } := by
    refine Spares.consume rfl (fun i => ?_) h
    simp only [isConsumed, Finset.mem_insert]
    by_cases hi : i = at' <;> simp [hi]
  unfold HistoryMatcher.resolveStashedTerminal
  dsimp only
  split
  · rename_i external hresolved
    apply hinsert
    revert hresolved
    split <;> intro hresolved <;>
      first | exact absurd hresolved (by simp) | simp_all [isTransparentExternalEvent]
  · exact Spares.refl m

@[simp] theorem resolveStashedTerminal_cursor (m : HistoryMatcher) (at' : Nat) :
    (m.resolveStashedTerminal at').cursor = m.cursor := by
  unfold HistoryMatcher.resolveStashedTerminal
  dsimp only
  split <;> rfl

/-! ## The scan ahead -/

/-- A relation that holds over every change of the stashed external calls, and over every terminal
that is resolved. -/
structure Absorbs (R : HistoryMatcher → HistoryMatcher → Prop) : Prop where
  refl : ∀ m, R m m
  trans : ∀ m₁ m₂ m₃, R m₁ m₂ → R m₂ m₃ → R m₁ m₃
  external : ∀ (m : HistoryMatcher) (external : ExternalCalls), R m { m with external := external }
  resolve : ∀ m at', R m (m.resolveStashedTerminal at')

namespace Absorbs

variable {R : HistoryMatcher → HistoryMatcher → Prop}

theorem nextExternalTerminal (h : Absorbs R) (m : HistoryMatcher) (key : Option ExternalKey)
    (next : Nat) : R m (m.nextExternalTerminal key next).2 := by
  cases key with
  | some key => exact h.refl m
  | none => exact h.external m _

theorem resolveExternalTerminals (h : Absorbs R) (key : Option ExternalKey) (stop fuel : Nat)
    (m : HistoryMatcher) (next : Nat) :
    R m (HistoryMatcher.resolveExternalTerminals key stop fuel m next) := by
  induction fuel generalizing m next with
  | zero => exact h.refl m
  | succ fuel ih =>
    unfold HistoryMatcher.resolveExternalTerminals
    have hnext := h.nextExternalTerminal m key next
    split_ifs
    · dsimp only
      generalize m.nextExternalTerminal key next = found at hnext
      cases found.1.filter (· < stop) with
      | none => exact hnext
      | some at' => exact h.trans _ _ _ (h.trans _ _ _ hnext (h.resolve found.2 at')) (ih _ _)
    · exact h.refl m

theorem scanAhead (h : Absorbs R) (m : HistoryMatcher) :
    R m m.scanAheadForExternalSignalTerminals := by
  have hfold (stop fuel next : Nat) (keys : List ExternalKey) (m : HistoryMatcher) :
      R m (keys.foldl (fun m key =>
        HistoryMatcher.resolveExternalTerminals (some key) stop fuel m next) m) := by
    induction keys generalizing m with
    | nil => exact h.refl m
    | cons key keys ih =>
      exact h.trans _ _ _ (h.resolveExternalTerminals (some key) stop fuel m next) (ih _)
  unfold scanAheadForExternalSignalTerminals
  split_ifs with hempty
  · exact h.external m _
  · dsimp only
    split_ifs with hcovered
    · exact h.refl m
    · -- the terminals before the covered range, those of new keys in it, and those after it
      refine h.trans _ _ _ ?_ (h.resolveExternalTerminals none _ _ _ _)
      refine h.trans _ _ _ ?_ (h.external _ _)
      refine h.trans _ _ _ ?_ (hfold _ _ _ _ _)
      exact h.trans _ _ _ (h.external m _) (h.resolveExternalTerminals none _ _ _ _)

end Absorbs

/-- **The scan ahead** spares every event that blocks, and leaves the cursor. -/
theorem Spares.scanAhead (m : HistoryMatcher) :
    Spares m m.scanAheadForExternalSignalTerminals ∧
      m.scanAheadForExternalSignalTerminals.cursor = m.cursor := by
  have habsorbs : Absorbs fun m m' => Spares m m' ∧ m'.cursor = m.cursor :=
    { refl := fun m => ⟨Spares.refl m, rfl⟩
      trans := fun _ _ _ h₁ h₂ => ⟨h₁.1.trans h₂.1, h₂.2.trans h₁.2⟩
      external := fun m external => ⟨Spares.withExternal m external, rfl⟩
      resolve := fun m at' =>
        ⟨Spares.resolveStashedTerminal m at', resolveStashedTerminal_cursor m at'⟩ }
  exact habsorbs.scanAhead m

/-! ## The drain -/

theorem advanceToNext_cursor_le (m : HistoryMatcher) :
    m.cursor ≤ m.advanceToNextUnconsumedEvent.cursor := le_skipFrom _ _ _

/-- Moving past consumed events moves past nothing that blocks. -/
theorem blocked_advanceToNext (m : HistoryMatcher) :
    m.advanceToNextUnconsumedEvent.Blocked ↔ m.Blocked := by
  constructor
  · rintro ⟨i, hle, hi⟩
    exact ⟨i, m.advanceToNext_cursor_le.trans hle, hi⟩
  · rintro ⟨i, hle, hi⟩
    refine ⟨i, Nat.le_of_not_lt fun hlt => hi.1 ?_, hi⟩
    exact of_lt_skipFrom hle hlt

theorem advanceToNext_unconsumed (m : HistoryMatcher)
    (h : m.advanceToNextUnconsumedEvent.cursor < m.events.length) :
    ¬ m.isConsumed m.advanceToNextUnconsumedEvent.cursor := by
  apply not_of_skipFrom_lt
  exact lt_of_lt_of_le h (by omega)

/-- Taking the event at the cursor takes nothing that blocks. -/
theorem Spares.blocked_next (h : Spares m m') (hcursor : m'.cursor = m.cursor + 1)
    (hdrained : ¬ m.Blocks m.cursor) : m'.Blocked ↔ m.Blocked := by
  constructor
  · rintro ⟨i, hle, hi⟩
    exact ⟨i, by omega, (h.blocks_iff i).mp hi⟩
  · rintro ⟨i, hle, hi⟩
    have hne : i ≠ m.cursor := by
      rintro rfl
      exact hdrained hi
    exact ⟨i, by omega, h.spares i hi⟩

/-- A drain that started at an unconsumed event ends at an event that blocks, or at the end. -/
theorem drainLoop_spec (fuel : Nat) (m : HistoryMatcher) (hfuel : m.events.length ≤ m.cursor + fuel)
    (hnew : m.cursor < m.events.length → ¬ m.isConsumed m.cursor) :
    let m' := drainLoop fuel m
    Spares m m' ∧ (m'.Blocked ↔ m.Blocked) ∧
      (m'.cursor < m'.events.length → m'.Blocks m'.cursor) := by
  induction fuel generalizing m with
  | zero => exact ⟨Spares.refl m, Iff.rfl, fun h => absurd hfuel (Nat.not_le_of_lt h)⟩
  | succ fuel ih =>
    have hturn (m₁ : HistoryMatcher) (hspares : Spares m m₁) (hcursor : m₁.cursor = m.cursor + 1)
        (hdrained : ¬ m.Blocks m.cursor) :
        let m' := drainLoop fuel m₁.advanceToNextUnconsumedEvent
        Spares m m' ∧ (m'.Blocked ↔ m.Blocked) ∧
          (m'.cursor < m'.events.length → m'.Blocks m'.cursor) := by
      have hle := m₁.advanceToNext_cursor_le
      have hevents := hspares.events
      obtain ⟨hrest, hblocked, hend⟩ := ih m₁.advanceToNextUnconsumedEvent
        (by show m₁.events.length ≤ _; rw [hevents]; omega) m₁.advanceToNext_unconsumed
      have hadvance : Spares m₁ m₁.advanceToNextUnconsumedEvent :=
        ⟨rfl, fun _ => id, fun _ => id⟩
      refine ⟨hspares.trans (hadvance.trans hrest), ?_, hend⟩
      rw [hblocked, blocked_advanceToNext, hspares.blocked_next hcursor hdrained]
    unfold drainLoop
    cases hevent : m.events[m.cursor]? with
    | none =>
      have hlen := List.getElem?_eq_none_iff.mp hevent
      exact ⟨Spares.refl m, Iff.rfl, fun h => absurd hlen (Nat.not_le_of_lt h)⟩
    | some event =>
      dsimp only
      split_ifs with htransparent hupdate
      · have hany : (m.events[m.cursor]?).any isTransparentExternalEvent := by
          rw [hevent]; exact htransparent
        refine hturn { m.stashTransparentExternalEvent m.cursor with cursor := m.cursor + 1 }
          ?_ rfl ?_
        · refine Spares.consume (stash_events m _) (stash_isConsumed m _ hany) ?_
          rw [hevent]
          simp [htransparent]
        · rintro ⟨-, event', hevent', htransparent', -⟩
          obtain rfl : event = event' := Option.some.inj (hevent.symm.trans hevent')
          exact htransparent' htransparent
      · refine hturn { m with
          consumedSignalEvents := insert m.cursor m.consumedSignalEvents
          cursor := m.cursor + 1 } ?_ rfl ?_
        · refine @Spares.consume m _ m.cursor rfl (fun i => ?_) ?_
          · simp only [isConsumed, Finset.mem_insert]
            by_cases hi : i = m.cursor <;> simp [hi]
          · rw [hevent]
            simp [hupdate]
        · rintro ⟨-, event', hevent', -, hupdate'⟩
          obtain rfl : event = event' := Option.some.inj (hevent.symm.trans hevent')
          exact hupdate' hupdate
      · exact ⟨Spares.refl m, Iff.rfl, fun h => ⟨hnew h, event, hevent, htransparent, hupdate⟩⟩

/-! ## The probe -/

/-- What `prepareMatch` reports. -/
theorem prepareMatch_isReplaying_iff (m : HistoryMatcher) :
    m.prepareMatch.isReplaying ↔ m.Blocked := by
  obtain ⟨hdrain, hblocked, hend⟩ := drainLoop_spec m.events.length m.advanceToNextUnconsumedEvent
    (Nat.le_add_left _ _) m.advanceToNext_unconsumed
  obtain ⟨hscan, hcursor⟩ := Spares.scanAhead m.advanceToNextUnconsumedEvent.drainEarlySignals
  rw [blocked_advanceToNext] at hblocked
  rw [← hblocked, isReplaying_iff]
  constructor
  · rintro ⟨i, hle, hlt, -⟩
    have hvisible : m.advanceToNextUnconsumedEvent.drainEarlySignals.cursor <
        m.advanceToNextUnconsumedEvent.drainEarlySignals.events.length := by
      rw [← hscan.events, ← hcursor]
      exact lt_of_le_of_lt hle hlt
    exact ⟨_, le_rfl, hend hvisible⟩
  · rintro ⟨i, hle, hi⟩
    obtain ⟨hnew, event, hevent, -⟩ := hscan.spares i hi
    exact ⟨i, hcursor.le.trans hle, (List.getElem?_eq_some_iff.mp hevent).1, hnew⟩

/-- `prepare_match` as a call. -/
def prepareCall : StateM HistoryMatcher Bool := fun m => (m.prepareMatch.isReplaying, m.prepareMatch)

/-- `would_replay_after_prepare` as a call. It takes the matcher by shared reference. -/
def probeCall : StateM HistoryMatcher Bool := fun m => (m.wouldReplayAfterPrepare, m)

/-- **The probe agrees with the real step**, in every state of the matcher, and no call after it
can tell that it was made. -/
theorem probe_agrees_with_prepare (m : HistoryMatcher) :
    (probeCall.run m).1 = (prepareCall.run m).1 ∧
      ∀ (β : Type) (later : StateM HistoryMatcher β),
        (probeCall *> later).run m = later.run m := by
  refine ⟨?_, fun β later => rfl⟩
  show m.wouldReplayAfterPrepare = m.prepareMatch.isReplaying
  rw [Bool.eq_iff_iff, wouldReplayAfterPrepare_iff, prepareMatch_isReplaying_iff]

end HistoryMatcher
end Harvest.Replay
