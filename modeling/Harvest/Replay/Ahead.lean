import Harvest.Replay.Serving

/-!
# What lies ahead of a replay

The unconsumed events at or after the cursor, with their positions. A matcher without external
calls looks at nothing else: what a call returns, and what lies ahead after it, depend on what lies
ahead before it.

Proved here:
* `advance_ahead`, `isReplaying_eq`: moving the cursor to the next unconsumed event changes
  nothing ahead, and a matcher replays while something is ahead.
* `prepareMatch_ahead`: preparing a match drains the signals and updates in front.
-/

namespace Harvest.Replay

/-- The unconsumed events of `events`, the first of which stands at `i`. -/
def unconsumed (consumed : Nat → Bool) : List WorkflowEvent → Nat → List (WorkflowEvent × Nat)
  | [], _ => []
  | event :: rest, i =>
    if consumed i then unconsumed consumed rest (i + 1)
    else (event, i) :: unconsumed consumed rest (i + 1)

section Unconsumed

variable {consumed consumed' : Nat → Bool}

theorem unconsumed_congr {events : List WorkflowEvent} {i : Nat}
    (h : ∀ j, i ≤ j → j < i + events.length → consumed j = consumed' j) :
    unconsumed consumed events i = unconsumed consumed' events i := by
  induction events generalizing i with
  | nil => rfl
  | cons event rest ih =>
    have hrest : unconsumed consumed rest (i + 1) = unconsumed consumed' rest (i + 1) :=
      ih fun j hj hlt => h j (by omega) (by rw [List.length_cons]; omega)
    rw [unconsumed, unconsumed, h i (Nat.le_refl i) (by simp), hrest]

theorem unconsumed_eq_nil {events : List WorkflowEvent} {i : Nat}
    (h : ∀ j, i ≤ j → j < i + events.length → consumed j = true) :
    unconsumed consumed events i = [] := by
  induction events generalizing i with
  | nil => rfl
  | cons event rest ih =>
    rw [unconsumed, if_pos (h i (Nat.le_refl i) (by simp))]
    exact ih fun j hj hlt => h j (by omega) (by rw [List.length_cons]; omega)

/-- Consuming more leaves out the entries at these positions. -/
theorem unconsumed_filter {more : Nat → Bool} (h : ∀ j, consumed' j = (consumed j || more j))
    (events : List WorkflowEvent) (i : Nat) :
    unconsumed consumed' events i =
      (unconsumed consumed events i).filter fun entry => ! more entry.2 := by
  induction events generalizing i with
  | nil => rfl
  | cons event rest ih =>
    rw [unconsumed, unconsumed, h i, ih]
    cases consumed i <;> cases hmore : more i <;> simp [hmore]

theorem mem_unconsumed {events : List WorkflowEvent} {i j : Nat} {event : WorkflowEvent} :
    (event, j) ∈ unconsumed consumed events i ↔
      i ≤ j ∧ events[j - i]? = some event ∧ consumed j = false := by
  induction events generalizing i with
  | nil => simp [unconsumed]
  | cons first rest ih =>
    have hrest : (event, j) ∈ unconsumed consumed rest (i + 1) ↔
        i < j ∧ (first :: rest)[j - i]? = some event ∧ consumed j = false := by
      rw [ih]
      refine and_congr_right fun hlt => ?_
      have hsub : j - i = (j - (i + 1)) + 1 := by omega
      rw [hsub, List.getElem?_cons_succ]
    rw [unconsumed]
    cases hconsumed : consumed i with
    | true =>
      rw [if_pos rfl, hrest]
      constructor
      · rintro ⟨hlt, hget, hnew⟩
        exact ⟨hlt.le, hget, hnew⟩
      · rintro ⟨hle, hget, hnew⟩
        refine ⟨lt_of_le_of_ne hle ?_, hget, hnew⟩
        rintro rfl
        rw [hconsumed] at hnew
        cases hnew
    | false =>
      rw [if_neg Bool.false_ne_true, List.mem_cons, hrest, Prod.mk.injEq]
      constructor
      · rintro (⟨rfl, rfl⟩ | ⟨hlt, hget, hnew⟩)
        · exact ⟨le_rfl, by simp, hconsumed⟩
        · exact ⟨hlt.le, hget, hnew⟩
      · rintro ⟨hle, hget, hnew⟩
        rcases hle.eq_or_lt with rfl | hlt
        · rw [Nat.sub_self] at hget
          exact .inl ⟨(Option.some.inj hget).symm, rfl⟩
        · exact .inr ⟨hlt, hget, hnew⟩

end Unconsumed

namespace HistoryMatcher

/-- The unconsumed events from position `i` on. -/
def aheadFrom (m : HistoryMatcher) (i : Nat) : List (WorkflowEvent × Nat) :=
  unconsumed m.isConsumed (m.events.drop i) i

/-- The unconsumed events from the cursor on. -/
def ahead (m : HistoryMatcher) : List (WorkflowEvent × Nat) := m.aheadFrom m.cursor

variable {m m' : HistoryMatcher} {i j : Nat} {event : WorkflowEvent}

theorem aheadFrom_end (h : m.events.length ≤ i) : m.aheadFrom i = [] := by
  rw [aheadFrom, List.drop_of_length_le h]
  rfl

theorem aheadFrom_of_consumed (h : m.isConsumed i) : m.aheadFrom i = m.aheadFrom (i + 1) := by
  by_cases hlt : i < m.events.length
  · rw [aheadFrom, List.drop_eq_getElem_cons hlt, unconsumed, if_pos h]
    rfl
  · rw [aheadFrom_end (by omega), aheadFrom_end (by omega)]

theorem aheadFrom_cons (hevent : m.events[i]? = some event) (h : ¬ m.isConsumed i) :
    m.aheadFrom i = (event, i) :: m.aheadFrom (i + 1) := by
  obtain ⟨hlt, rfl⟩ := List.getElem?_eq_some_iff.mp hevent
  rw [aheadFrom, List.drop_eq_getElem_cons hlt, unconsumed, if_neg h]
  rfl

theorem mem_aheadFrom : (event, j) ∈ m.aheadFrom i ↔
    i ≤ j ∧ m.events[j]? = some event ∧ m.isConsumed j = false := by
  rw [aheadFrom, mem_unconsumed]
  refine and_congr_right fun hle => ?_
  rw [List.getElem?_drop, Nat.add_sub_of_le hle]

/-- The first entry ahead, and that nothing before it is. -/
theorem aheadFrom_eq_cons {rest : List (WorkflowEvent × Nat)}
    (h : m.aheadFrom i = (event, j) :: rest) :
    i ≤ j ∧ j < m.events.length ∧ m.events[j]? = some event ∧ m.isConsumed j = false ∧
      rest = m.aheadFrom (j + 1) ∧ ∀ k, i ≤ k → k < j → m.isConsumed k := by
  have hn : ∃ n, m.events.length - i = n := ⟨_, rfl⟩
  obtain ⟨n, hn⟩ := hn
  induction n generalizing i with
  | zero =>
    rw [aheadFrom_end (by omega)] at h
    cases h
  | succ n ih =>
    have hlt : i < m.events.length := by omega
    by_cases hconsumed : m.isConsumed i
    · rw [aheadFrom_of_consumed hconsumed] at h
      obtain ⟨hle, hj, hevent, hnew, hrest, hbefore⟩ := ih h (by omega)
      refine ⟨by omega, hj, hevent, hnew, hrest, fun k hk hkj => ?_⟩
      rcases hk.eq_or_lt with rfl | hk
      · exact hconsumed
      · exact hbefore k hk hkj
    · rw [aheadFrom_cons (List.getElem?_eq_getElem hlt) hconsumed] at h
      obtain ⟨hentry, hrest⟩ := List.cons.inj h
      obtain ⟨rfl, rfl⟩ := Prod.mk.inj hentry
      exact ⟨le_rfl, hlt, List.getElem?_eq_getElem hlt, Bool.eq_false_iff.mpr hconsumed, hrest.symm,
        fun k hk hkj => by omega⟩

theorem aheadFrom_eq_nil : m.aheadFrom i = [] ↔
    ∀ j, i ≤ j → j < m.events.length → m.isConsumed j := by
  constructor
  · intro h j hle hlt
    by_contra hnot
    have hmem : (m.events.get ⟨j, hlt⟩, j) ∈ m.aheadFrom i :=
      mem_aheadFrom.mpr ⟨hle, List.getElem?_eq_getElem hlt, Bool.eq_false_iff.mpr hnot⟩
    rw [h] at hmem
    cases hmem
  · intro h
    refine unconsumed_eq_nil fun j hle hlt => h j hle ?_
    rw [List.length_drop] at hlt
    omega

/-- The positions ahead increase. -/
theorem aheadFrom_sorted (m : HistoryMatcher) (i : Nat) :
    (m.aheadFrom i).Pairwise fun entry later => entry.2 < later.2 := by
  rw [aheadFrom]
  generalize m.events.drop i = events
  induction events generalizing i with
  | nil => exact .nil
  | cons event rest ih =>
    rw [unconsumed]
    split_ifs
    · exact ih (i + 1)
    · exact .cons (fun later hlater => (mem_unconsumed.mp hlater).1) (ih (i + 1))

/-- Positions before `i` do not matter. -/
theorem aheadFrom_congr (hevents : m'.events.drop i = m.events.drop i)
    (hconsumed : ∀ j, i ≤ j → m'.isConsumed j = m.isConsumed j) :
    m'.aheadFrom i = m.aheadFrom i := by
  rw [aheadFrom, aheadFrom, hevents]
  exact unconsumed_congr fun j hle _ => hconsumed j hle

theorem aheadFrom_filter {more : Nat → Bool} (hevents : m'.events = m.events)
    (hconsumed : ∀ j, m'.isConsumed j = (m.isConsumed j || more j)) :
    m'.aheadFrom i = (m.aheadFrom i).filter fun entry => ! more entry.2 := by
  rw [aheadFrom, aheadFrom, hevents]
  exact unconsumed_filter hconsumed _ _

/-! ## The cursor -/

theorem aheadFrom_skipFrom (n i : Nat) :
    m.aheadFrom (skipFrom m.isConsumed n i) = m.aheadFrom i := by
  induction n generalizing i with
  | zero => rfl
  | succ n ih =>
    rw [skipFrom]
    split_ifs with h
    · rw [ih, aheadFrom_of_consumed h]
    · rfl

/-- Moving the cursor to the next unconsumed event changes nothing ahead. -/
@[simp] theorem advance_ahead (m : HistoryMatcher) :
    m.advanceToNextUnconsumedEvent.ahead = m.ahead :=
  aheadFrom_skipFrom _ _

theorem skipFrom_eq {consumed : Nat → Bool} {n i j : Nat} (hle : i ≤ j) (hn : j ≤ i + n)
    (hbefore : ∀ k, i ≤ k → k < j → consumed k) (hj : j < i + n → consumed j = false) :
    skipFrom consumed n i = j := by
  induction n generalizing i with
  | zero =>
    rw [skipFrom]
    omega
  | succ n ih =>
    rw [skipFrom]
    rcases hle.eq_or_lt with rfl | hlt
    · rw [hj (by omega), if_neg Bool.false_ne_true]
    · rw [if_pos (hbefore i le_rfl hlt)]
      exact ih (by omega) (by omega) (fun k hk => hbefore k (by omega)) fun h => hj (by omega)

/-- The cursor stands at what is ahead. -/
theorem advance_cursor {rest : List (WorkflowEvent × Nat)} (h : m.ahead = (event, j) :: rest) :
    m.advanceToNextUnconsumedEvent.cursor = j := by
  obtain ⟨hle, hlt, -, hnew, -, hbefore⟩ := aheadFrom_eq_cons h
  exact skipFrom_eq hle (by omega) hbefore fun _ => hnew

theorem le_skipFrom_of_consumed {consumed : Nat → Bool} {n i j : Nat} (hn : j ≤ i + n)
    (hall : ∀ k, i ≤ k → k < j → consumed k) : j ≤ skipFrom consumed n i := by
  induction n generalizing i with
  | zero => exact hn
  | succ n ih =>
    rw [skipFrom]
    split_ifs with h
    · exact ih (by omega) fun k hk => hall k (by omega)
    · by_contra hlt
      exact h (hall i le_rfl (by omega))

/-- The consumed events that follow each other are no more than the consumed events. -/
theorem consumed_run_le (h : ∀ k, i ≤ k → k < j → m.isConsumed k) :
    j ≤ i + (m.consumedOutOfOrderEvents ∪ m.consumedSignalEvents ∪ m.transparentEvents).card := by
  have hsubset : Finset.Ico i j ⊆
      m.consumedOutOfOrderEvents ∪ m.consumedSignalEvents ∪ m.transparentEvents := by
    intro k hk
    obtain ⟨hle, hlt⟩ := Finset.mem_Ico.mp hk
    have hconsumed := h k hle hlt
    simpa [isConsumed, or_assoc] using hconsumed
  have hcard := Finset.card_le_card hsubset
  rw [Nat.card_Ico] at hcard
  omega

/-- A matcher replays while something is ahead. -/
theorem isReplaying_eq (m : HistoryMatcher) : m.isReplaying = ! m.ahead.isEmpty := by
  rw [isReplaying]
  cases hahead : m.ahead with
  | nil =>
    refine decide_eq_false fun hlt => ?_
    have hall := aheadFrom_eq_nil.mp hahead
    have := le_skipFrom_of_consumed (consumed_run_le hall) hall
    omega
  | cons entry rest =>
    obtain ⟨event, j⟩ := entry
    obtain ⟨hle, hlt, -, hnew, -, hbefore⟩ := aheadFrom_eq_cons hahead
    refine decide_eq_true ?_
    rw [skipFrom_eq hle (consumed_run_le hbefore) hbefore fun _ => hnew]
    exact hlt

/-- The cursor stands at an unconsumed event or after the last one. -/
def AtHead (m : HistoryMatcher) : Prop := m.cursor < m.events.length → ¬ m.isConsumed m.cursor

theorem AtHead.cursor_eq (h : m.AtHead) {rest : List (WorkflowEvent × Nat)}
    (hahead : m.ahead = (event, j) :: rest) : m.cursor = j := by
  obtain ⟨hle, hlt, -, -, -, hbefore⟩ := aheadFrom_eq_cons hahead
  by_contra hne
  exact h (by omega) (hbefore m.cursor le_rfl (by omega))

theorem atHead_advance (m : HistoryMatcher) : m.advanceToNextUnconsumedEvent.AtHead := by
  intro hlt
  change skipFrom m.isConsumed (m.events.length - m.cursor) m.cursor < m.events.length at hlt
  change ¬ m.isConsumed (skipFrom m.isConsumed (m.events.length - m.cursor) m.cursor)
  cases hahead : m.ahead with
  | nil =>
    have hall := aheadFrom_eq_nil.mp hahead
    have hle := @le_skipFrom_of_consumed m.isConsumed (m.events.length - m.cursor) m.cursor
      m.events.length (by omega) hall
    omega
  | cons entry rest =>
    have hcursor := advance_cursor hahead
    change skipFrom m.isConsumed (m.events.length - m.cursor) m.cursor = entry.2 at hcursor
    rw [hcursor]
    exact Bool.eq_false_iff.mp (aheadFrom_eq_cons hahead).2.2.2.1

theorem AtHead.ahead_eq (h : m.AtHead) (hevent : m.events[m.cursor]? = some event) :
    m.ahead = (event, m.cursor) :: m.aheadFrom (m.cursor + 1) :=
  aheadFrom_cons hevent (h (List.getElem?_eq_some_iff.mp hevent).1)

theorem length_unconsumed_le (consumed : Nat → Bool) (events : List WorkflowEvent) (i : Nat) :
    (unconsumed consumed events i).length ≤ events.length := by
  induction events generalizing i with
  | nil => exact le_rfl
  | cons event rest ih =>
    rw [unconsumed]
    split_ifs
    · exact (ih _).trans (Nat.le_succ _)
    · exact Nat.succ_le_succ (ih _)

/-! ## Draining -/

end HistoryMatcher

/-- The entry that a signal leaves in the stash. -/
def stashEntry : WorkflowEvent × Nat → Option StashedSignal
  | (.signalReceived name payload, i) => some ⟨name, payload, i⟩
  | _ => none

/-- What a match drains in front of its command. -/
def isDrained (entry : WorkflowEvent × Nat) : Bool :=
  isTransparentExternalEvent entry.1 || isUpdateEvent entry.1

/-- The only events that a scan stashes are signals. -/
def NoExternal (events : List (WorkflowEvent × Nat)) : Prop :=
  ∀ entry ∈ events, isTransparentExternalEvent entry.1 → (stashEntry entry).isSome

/-- The second matcher has stashed the signals of `passed`. -/
structure Stashes (m m' : HistoryMatcher) (passed : List (WorkflowEvent × Nat)) : Prop where
  events : m'.events = m.events
  pending : m'.pendingSignals.entries = m.pendingSignals.entries ++ passed.filterMap stashEntry
  external : m'.external = m.external

namespace Stashes

variable {m m₁ m₂ : HistoryMatcher} {passed more : List (WorkflowEvent × Nat)}

theorem refl (m : HistoryMatcher) : Stashes m m [] := ⟨rfl, (List.append_nil _).symm, rfl⟩

theorem trans (h₁ : Stashes m m₁ passed) (h₂ : Stashes m₁ m₂ more) :
    Stashes m m₂ (passed ++ more) := by
  refine ⟨h₂.events.trans h₁.events, ?_, h₂.external.trans h₁.external⟩
  rw [h₂.pending, h₁.pending, List.filterMap_append, List.append_assoc]

end Stashes

namespace HistoryMatcher

variable {m m' : HistoryMatcher} {i j : Nat} {event : WorkflowEvent}

/-- Stashing the signal at `j`: it is no longer ahead. -/
theorem stash_signal {name : String} {payload : Json}
    (hevent : m.events[j]? = some (.signalReceived name payload)) :
    Stashes m (m.stashTransparentExternalEvent j) [(.signalReceived name payload, j)] ∧
      ∀ i, (m.stashTransparentExternalEvent j).aheadFrom i =
        (m.aheadFrom i).filter fun entry => ! decide (entry.2 = j) := by
  have hstash : m.stashTransparentExternalEvent j = m.stashSignal j name payload := by
    rw [stashTransparentExternalEvent, hevent]
  rw [hstash]
  refine ⟨⟨rfl, rfl, rfl⟩, fun i => ?_⟩
  rw [← hstash]
  exact @aheadFrom_filter m _ i (fun k => decide (k = j)) (stash_events m j)
    (stash_isConsumed m j (by rw [hevent]; rfl))

theorem aheadFrom_filter_of_lt (h : j < i) :
    (m.aheadFrom i).filter (fun entry => ! decide (entry.2 = j)) = m.aheadFrom i := by
  refine List.filter_eq_self.mpr fun entry hentry => ?_
  have := (mem_aheadFrom.mp hentry).1
  simp only [Bool.not_eq_true', decide_eq_false_iff_not]
  omega

/-- One turn of the drain, at a signal or an update in front. -/
theorem drainLoop_succ {fuel : Nat} {rest : List (WorkflowEvent × Nat)} (hhead : m.AtHead)
    (hplain : NoExternal m.ahead) (hahead : m.ahead = (event, j) :: rest)
    (hdrained : isDrained (event, j)) :
    ∃ m₁, drainLoop (fuel + 1) m = drainLoop fuel m₁ ∧ m₁.AtHead ∧ m₁.ahead = rest ∧
      Stashes m m₁ [(event, j)] := by
  obtain rfl := hhead.cursor_eq hahead
  obtain ⟨-, -, hevent, -, hrest, -⟩ := aheadFrom_eq_cons hahead
  rw [drainLoop, hevent]
  dsimp only
  by_cases hexternal : isTransparentExternalEvent event
  · rw [if_pos hexternal]
    have hsignal := hplain _ (hahead ▸ List.mem_cons_self) hexternal
    cases event with
    | signalReceived name payload =>
      obtain ⟨hstashes, hfilter⟩ := stash_signal hevent
      refine ⟨_, rfl, atHead_advance _, ?_, hstashes.events, hstashes.pending, hstashes.external⟩
      rw [advance_ahead, hrest]
      exact (hfilter (m.cursor + 1)).trans (aheadFrom_filter_of_lt (Nat.lt_succ_self _))
    | _ => cases hsignal
  · have hupdate : isUpdateEvent event := (Bool.or_eq_true_iff.mp hdrained).resolve_left hexternal
    rw [if_neg hexternal, if_pos hupdate]
    refine ⟨_, rfl, atHead_advance _, ?_, rfl, ?_, rfl⟩
    · rw [advance_ahead, hrest]
      refine aheadFrom_congr rfl fun k hk => ?_
      have hne : k ≠ m.cursor := by
        change m.cursor + 1 ≤ k at hk
        omega
      simp [isConsumed, Finset.mem_insert, hne]
    · have hnone : stashEntry (event, m.cursor) = none := by
        cases event <;> first | rfl | cases hupdate
      rw [List.filterMap_cons_none hnone]
      exact (List.append_nil _).symm

/-- **Draining** passes the signals and updates in front. -/
theorem drainLoop_ahead (fuel : Nat) (m : HistoryMatcher) (hhead : m.AtHead)
    (hplain : NoExternal m.ahead) (hfuel : m.ahead.length ≤ fuel) :
    (drainLoop fuel m).AtHead ∧ (drainLoop fuel m).ahead = m.ahead.dropWhile isDrained ∧
      Stashes m (drainLoop fuel m) (m.ahead.takeWhile isDrained) := by
  induction fuel generalizing m with
  | zero =>
    have hnil : m.ahead = [] := List.eq_nil_of_length_eq_zero (Nat.le_zero.mp hfuel)
    rw [hnil, drainLoop]
    exact ⟨hhead, hnil, Stashes.refl m⟩
  | succ fuel ih =>
    cases hahead : m.ahead with
    | nil =>
      have hnone : m.events[m.cursor]? = none := by
        cases hevent : m.events[m.cursor]? with
        | none => rfl
        | some event =>
          rw [hhead.ahead_eq hevent] at hahead
          cases hahead
      rw [drainLoop, hnone]
      exact ⟨hhead, hahead, Stashes.refl m⟩
    | cons entry rest =>
      obtain ⟨event, j⟩ := entry
      by_cases hdrained : isDrained (event, j)
      · obtain ⟨m₁, heq, hhead₁, hahead₁, hstashes⟩ :=
          @drainLoop_succ m j event fuel rest hhead hplain hahead hdrained
        rw [hahead] at hfuel hplain
        obtain ⟨hhead₂, hahead₂, hstashes₂⟩ := ih m₁ hhead₁
          (hahead₁ ▸ fun entry hentry => hplain entry (List.mem_cons_of_mem _ hentry))
          (by rw [hahead₁]; exact Nat.le_of_succ_le_succ hfuel)
        rw [heq, List.dropWhile_cons_of_pos hdrained, List.takeWhile_cons_of_pos hdrained]
        rw [hahead₁] at hahead₂ hstashes₂
        exact ⟨hhead₂, hahead₂, hstashes.trans hstashes₂⟩
      · obtain rfl := hhead.cursor_eq hahead
        obtain ⟨-, -, hevent, -, -, -⟩ := aheadFrom_eq_cons hahead
        obtain ⟨hexternal, hupdate⟩ := not_or.mp fun h => hdrained (Bool.or_eq_true_iff.mpr h)
        rw [drainLoop, hevent, List.dropWhile_cons_of_neg hdrained,
          List.takeWhile_cons_of_neg hdrained]
        dsimp only
        rw [if_neg hexternal, if_neg hupdate]
        exact ⟨hhead, hahead, Stashes.refl m⟩

theorem drainEarlySignals_ahead (m : HistoryMatcher) (hplain : NoExternal m.ahead) :
    m.advanceToNextUnconsumedEvent.drainEarlySignals.AtHead ∧
      m.advanceToNextUnconsumedEvent.drainEarlySignals.ahead = m.ahead.dropWhile isDrained ∧
      Stashes m m.advanceToNextUnconsumedEvent.drainEarlySignals
        (m.ahead.takeWhile isDrained) := by
  have hlength : m.ahead.length ≤ m.events.length :=
    (length_unconsumed_le _ _ _).trans (by rw [List.length_drop]; omega)
  obtain ⟨hhead, hahead, hstashes⟩ := drainLoop_ahead m.events.length
    m.advanceToNextUnconsumedEvent (atHead_advance m) (by rwa [advance_ahead])
    (by rwa [advance_ahead])
  rw [advance_ahead] at hahead hstashes
  exact ⟨hhead, hahead, hstashes.events, hstashes.pending, hstashes.external⟩

/-- Without external calls the scan for their terminals does nothing. -/
theorem prepareMatch_eq (hexternal : m.external = .new) (hplain : NoExternal m.ahead) :
    m.prepareMatch = m.advanceToNextUnconsumedEvent.drainEarlySignals := by
  have hnew := (drainEarlySignals_ahead m hplain).2.2.external.trans hexternal
  rw [prepareMatch]
  generalize m.advanceToNextUnconsumedEvent.drainEarlySignals = d at hnew
  rw [scanAheadForExternalSignalTerminals, if_pos (by rw [hnew]; rfl), hnew]
  cases d
  cases hnew
  rfl

/-- **Preparing a match** moves the cursor to the next command and drains what is in front. -/
theorem prepareMatch_ahead (hexternal : m.external = .new) (hplain : NoExternal m.ahead) :
    m.prepareMatch.AtHead ∧ m.prepareMatch.ahead = m.ahead.dropWhile isDrained ∧
      Stashes m m.prepareMatch (m.ahead.takeWhile isDrained) := by
  rw [prepareMatch_eq hexternal hplain]
  exact drainEarlySignals_ahead m hplain

/-- The matcher stands at an event that is ahead. -/
theorem AtHead.cons (hhead : m.AtHead) {rest : List (WorkflowEvent × Nat)}
    (hahead : m.ahead = (event, j) :: rest) :
    m.cursor = j ∧ m.isReplaying = true ∧ m.events[j]? = some event ∧ j < m.events.length ∧
      m.aheadFrom (j + 1) = rest := by
  obtain ⟨-, hlt, hevent, -, hrest, -⟩ := aheadFrom_eq_cons hahead
  refine ⟨hhead.cursor_eq hahead, ?_, hevent, hlt, hrest.symm⟩
  rw [isReplaying_eq, hahead]
  rfl

/-! ## The terminal scan -/

/-- What a scan for the target goes past before it has met a command: signals, which it stashes,
and events that are neither a stop nor a command nor a barrier. -/
def passedBy (target : ScanTarget) (entry : WorkflowEvent × Nat) : Bool :=
  (stashEntry entry).isSome ||
    match activityScanRole entry.1 with
    | .terminal _ | .progress _ | .fired _ | .childTerminal _ | .pass =>
      ! target.stopsAt (activityScanRole entry.1)
    | _ => false

/-- **The walk** ends at the stop, past what is in front of it. -/
theorem walkLoop_ahead {leaves : Nat → Bool → Bool} (hleaves : ∀ walked, leaves walked false = false)
    {target : ScanTarget} {start stop : Nat} {rest : List (WorkflowEvent × Nat)} (n at' : Nat)
    (m : HistoryMatcher) (passed : List (WorkflowEvent × Nat)) (hn : at' + n = m.events.length)
    (hahead : m.aheadFrom at' = passed ++ (event, stop) :: rest)
    (hpassed : ∀ entry ∈ passed, passedBy target entry)
    (hstop : target.stopsAt (activityScanRole event)) :
    ∃ m', walkLoop leaves target start n at' none m = ⟨some (some stop), stop, none, m'⟩ ∧
      m'.cursor = m.cursor ∧ m'.activityScanIndex = m.activityScanIndex ∧
      m'.aheadFrom (stop + 1) = rest ∧ Stashes m m' passed := by
  induction n generalizing at' m passed with
  | zero =>
    rw [aheadFrom_end (by omega)] at hahead
    cases passed <;> cases hahead
  | succ n ih =>
    have hlt : at' < m.events.length := by omega
    rw [walkLoop, Option.isSome_none, hleaves, if_neg Bool.false_ne_true]
    by_cases hconsumed : m.isConsumed at'
    · rw [if_pos hconsumed]
      rw [aheadFrom_of_consumed hconsumed] at hahead
      exact ih (at' + 1) m passed (by omega) hahead hpassed
    · rw [if_neg hconsumed]
      obtain ⟨here, hhere⟩ : ∃ here, m.events[at']? = some here :=
        ⟨_, List.getElem?_eq_getElem hlt⟩
      rw [aheadFrom_cons hhere hconsumed] at hahead
      rw [hhere]
      dsimp only
      cases passed with
      | nil =>
        obtain ⟨hentry, hrest⟩ := List.cons.inj hahead
        obtain ⟨rfl, rfl⟩ := Prod.mk.inj hentry
        rw [if_pos hstop]
        exact ⟨m, rfl, rfl, rfl, hrest, Stashes.refl m⟩
      | cons entry passed =>
        obtain ⟨rfl, hrest⟩ := List.cons.inj hahead
        have hpass := hpassed _ List.mem_cons_self
        have hlater := fun entry hentry => hpassed entry (List.mem_cons_of_mem _ hentry)
        cases hsignal : (stashEntry (here, at')).isSome with
        | true =>
          cases here with
          | signalReceived name payload =>
            obtain ⟨hstashes, hfilter⟩ := stash_signal hhere
            obtain ⟨m', hwalk, hcursor, hindex, hafter, hstashes'⟩ :=
              ih (at' + 1) (m.stashTransparentExternalEvent at') passed
                (by rw [stash_events]; omega)
                (by rw [hfilter, aheadFrom_filter_of_lt (Nat.lt_succ_self _)]; exact hrest) hlater
            refine ⟨m', ?_, hcursor.trans (stash_cursor m at'), hindex.trans (stash_index m at'),
              hafter, hstashes.trans hstashes'⟩
            rw [← hwalk, if_neg (by cases target <;> exact Bool.false_ne_true)]
            rfl
          | _ => cases hsignal
        | false =>
          rw [passedBy, hsignal, Bool.false_or] at hpass
          have hnone : stashEntry (here, at') = none := Option.not_isSome_iff_eq_none.mp
            (Bool.eq_false_iff.mp hsignal)
          obtain ⟨m', hwalk, hcursor, hindex, hafter, hstashes'⟩ :=
            ih (at' + 1) m passed (by omega) hrest hlater
          refine ⟨m', ?_, hcursor, hindex, hafter, hstashes'.events, ?_, hstashes'.external⟩
          · rw [← hwalk]
            dsimp only at hpass
            generalize activityScanRole here = role at hpass ⊢
            cases role with
            | terminal | progress | fired | childTerminal | pass =>
              rw [if_neg (Bool.eq_false_iff.mp ((Bool.not_eq_true' _).mp hpass))]
            | _ => cases hpass
          · rw [List.filterMap_cons_none hnone]
            exact hstashes'.pending

theorem leavesWalk_false (m : HistoryMatcher) (walked : Nat) : m.leavesWalk walked false = false :=
  rfl

/-- The scan ends at the stop, with no command before it. -/
theorem findScanStop_ahead {target : ScanTarget} {start stop : Nat}
    {passed rest : List (WorkflowEvent × Nat)} (hstart : start ≤ m.events.length)
    (hahead : m.aheadFrom start = passed ++ (event, stop) :: rest)
    (hpassed : ∀ entry ∈ passed, passedBy target entry)
    (hstop : target.stopsAt (activityScanRole event)) :
    ∃ m', m.findScanStop target start = ((some stop, none), m') ∧ m'.cursor = m.cursor ∧
      m'.aheadFrom (stop + 1) = rest ∧ Stashes m m' passed := by
  obtain ⟨m', hwalk, hcursor, -, hafter, hstashes⟩ := @walkLoop_ahead event _
    (leavesWalk_false m) target start stop rest (m.events.length - start) start m passed (by omega)
    hahead hpassed hstop
  rw [findScanStop, findScanStopWith]
  simp only [hwalk]
  exact ⟨_, rfl, hcursor, hafter, hstashes.events, hstashes.pending, hstashes.external⟩

end HistoryMatcher

/-- What a call does: the events that are ahead after it, and the signals among those it went
past. -/
structure Moves (m m' : HistoryMatcher) (passed rest : List (WorkflowEvent × Nat)) : Prop where
  ahead : m'.ahead = rest
  pending : m'.pendingSignals.entries = m.pendingSignals.entries ++ passed.filterMap stashEntry
  external : m'.external = m.external

/-- A call that moves on after the events in front of it were drained. -/
theorem Stashes.moves {m p m' : HistoryMatcher} {front passed rest : List (WorkflowEvent × Nat)}
    {cursor : Nat} (h : Stashes m p front)
    (hmoves : Moves { p with cursor := cursor } m' passed rest) :
    Moves m m' (front ++ passed) rest := by
  refine ⟨hmoves.ahead, ?_, hmoves.external.trans h.external⟩
  rw [hmoves.pending, List.filterMap_append, ← List.append_assoc]
  exact congrArg (· ++ _) h.pending

namespace HistoryMatcher

variable {m m' : HistoryMatcher} {i j : Nat} {event : WorkflowEvent}

theorem aheadFrom_modify {f : WorkflowEvent → WorkflowEvent} (h : j < i) :
    ({ m with events := m.events.modify j f } : HistoryMatcher).aheadFrom i = m.aheadFrom i := by
  refine aheadFrom_congr ?_ fun _ _ => rfl
  refine List.ext_getElem? fun k => ?_
  rw [List.getElem?_drop, List.getElem?_drop]
  exact List.getElem?_modify_ne _ _ (by omega)

theorem scanActivityTerminal_ahead {id : ActivityExecId} {result : HistoryMatch} {start stop : Nat}
    {passed rest : List (WorkflowEvent × Nat)} (hstart : start ≤ m.events.length)
    (hahead : m.aheadFrom start = passed ++ (event, stop) :: rest)
    (hpassed : ∀ entry ∈ passed, passedBy (.activity id) entry)
    (hstop : ScanTarget.stopsAt (.activity id) (activityScanRole event))
    (hresult : activityResult event = some result) :
    (m.scanActivityTerminal id start).1 = result ∧
      Moves m (m.scanActivityTerminal id start).2 passed rest := by
  obtain ⟨m', hscan, hcursor, hafter, hstashes⟩ :=
    findScanStop_ahead hstart hahead hpassed hstop
  have hevent : m.events[stop]? = some event := by
    have hmem : (event, stop) ∈ m.aheadFrom start := by
      rw [hahead]
      exact List.mem_append_right _ List.mem_cons_self
    exact (mem_aheadFrom.mp hmem).2.1
  have hbind : (m'.events[stop]?).bind activityResult = some result := by
    rw [hstashes.events, hevent]
    exact hresult
  rw [scanActivityTerminal, scanActivityTerminalWith]
  rw [findScanStop] at hscan
  simp only [hscan, hbind]
  refine ⟨trivial, ?_, hstashes.pending, hstashes.external⟩
  rw [settleTerminal, advance_ahead]
  exact (aheadFrom_modify (Nat.lt_succ_self stop)).trans hafter

/-- An activity whose terminal event is ahead, past its own progress, signals and updates. -/
theorem matchActivity_ahead {id : ActivityExecId} {name : String} {input : Json} {queue : String}
    {result : HistoryMatch} {stop : Nat} {passed rest : List (WorkflowEvent × Nat)}
    (hexternal : m.external = .new) (hplain : NoExternal m.ahead)
    (hahead : m.ahead.dropWhile isDrained =
      (.activityScheduled id name input queue, j) :: passed ++ (event, stop) :: rest)
    (hpassed : ∀ entry ∈ passed, passedBy (.activity id) entry)
    (hstop : ScanTarget.stopsAt (.activity id) (activityScanRole event))
    (hresult : activityResult event = some result) :
    (m.matchActivity name).1 = result ∧
      Moves m (m.matchActivity name).2 (m.ahead.takeWhile isDrained ++ passed) rest := by
  obtain ⟨hhead, hprepared, hstashes⟩ := prepareMatch_ahead hexternal hplain
  rw [hahead] at hprepared
  rw [matchActivity]
  generalize m.prepareMatch = p at hhead hprepared hstashes
  obtain ⟨rfl, hreplaying, hevent, hlt, hrest⟩ := hhead.cons hprepared
  rw [hreplaying, hevent]
  simp only [Bool.not_true, Bool.false_eq_true, if_false, ne_eq, not_true_eq_false]
  obtain ⟨hmatch, hmoves⟩ := @scanActivityTerminal_ahead { p with cursor := p.cursor + 1 } event id
    result (p.cursor + 1) stop passed rest hlt hrest hpassed hstop hresult
  exact ⟨hmatch, hstashes.moves hmoves⟩

/-- A timer whose fire is ahead, past signals and updates. -/
theorem matchTimerStrict_ahead {id : TimerId} {duration : UInt64} {expected : Option UInt64}
    {stop : Nat} {passed rest : List (WorkflowEvent × Nat)} (hexternal : m.external = .new)
    (hplain : NoExternal m.ahead) (hsame : durationDiffers expected duration = none)
    (hahead : m.ahead.dropWhile isDrained =
      (.timerStarted id duration, j) :: passed ++ (.timerFired id, stop) :: rest)
    (hpassed : ∀ entry ∈ passed, passedBy (.timer id.name) entry) :
    (m.matchTimerStrict id.name expected).1 = .matched .null ∧
      Moves m (m.matchTimerStrict id.name expected).2
        (m.ahead.takeWhile isDrained ++ passed) rest := by
  obtain ⟨hhead, hprepared, hstashes⟩ := prepareMatch_ahead hexternal hplain
  rw [hahead] at hprepared
  rw [matchTimerStrict]
  generalize m.prepareMatch = p at hhead hprepared hstashes
  obtain ⟨rfl, hreplaying, hevent, hlt, hrest⟩ := hhead.cons hprepared
  obtain ⟨m', hscan, hcursor, hafter, hstashes'⟩ := @findScanStop_ahead
    { p with cursor := p.cursor + 1 } (.timerFired id) (.timer id.name) (p.cursor + 1) stop passed
    rest hlt hrest hpassed (decide_eq_true rfl)
  rw [hreplaying, hevent]
  simp only [Bool.not_true, Bool.false_eq_true, if_false, ne_eq, not_true_eq_false, hsame, hscan]
  refine ⟨trivial, hstashes.moves ⟨?_, hstashes'.pending, hstashes'.external⟩⟩
  rw [settleTerminal, advance_ahead]
  exact hafter

/-- A recorded version is read back. -/
theorem asU32_toUInt64 (version : UInt32) :
    asU32 (.num (.posInt version.toUInt64)) = some version := by
  have hlt : version.toNat < 2 ^ 32 := version.toNat_lt
  rw [asU32, if_pos (by rwa [UInt32.toNat_toUInt64]), UInt32.toUInt32_toUInt64]

/-- A version gate whose marker is ahead goes past it. -/
theorem matchVersion_eq {changeId : String} {details : Json} {minVersion maxVersion : UInt32}
    {rest : List (WorkflowEvent × Nat)} (hexternal : m.external = .new)
    (hplain : NoExternal m.ahead)
    (hahead : m.ahead.dropWhile isDrained =
      (.markerRecorded (versionMarkerName changeId) details, j) :: rest) :
    m.matchVersion changeId minVersion maxVersion = ((asU32 details).getD minVersion,
      { m.prepareMatch with
        cursor := m.prepareMatch.cursor + 1 }.advanceToNextUnconsumedEvent) := by
  obtain ⟨hhead, hprepared, -⟩ := drainEarlySignals_ahead m hplain
  have hreplaying : m.advanceToNextUnconsumedEvent.isReplaying = true := by
    rw [isReplaying_eq, advance_ahead]
    cases hnil : m.ahead with
    | nil =>
      rw [hnil] at hahead
      cases hahead
    | cons entry rest => rfl
  rw [hahead] at hprepared
  rw [matchVersion, prepareMatch_eq hexternal hplain]
  generalize m.advanceToNextUnconsumedEvent = a at hhead hprepared hreplaying
  rw [hreplaying]
  generalize a.drainEarlySignals = p at hhead hprepared
  obtain ⟨rfl, hreplaying', hevent, -, -⟩ := hhead.cons hprepared
  simp only [Bool.not_true, Bool.false_eq_true, if_false, hreplaying', hevent, if_true]

theorem matchVersion_ahead {changeId : String} {details : Json} {minVersion maxVersion : UInt32}
    {rest : List (WorkflowEvent × Nat)} (hexternal : m.external = .new)
    (hplain : NoExternal m.ahead)
    (hahead : m.ahead.dropWhile isDrained =
      (.markerRecorded (versionMarkerName changeId) details, j) :: rest) :
    Moves m (m.matchVersion changeId minVersion maxVersion).2 (m.ahead.takeWhile isDrained)
      rest := by
  rw [matchVersion_eq hexternal hplain hahead]
  obtain ⟨hhead, hprepared, hstashes⟩ := prepareMatch_ahead hexternal hplain
  rw [hahead] at hprepared
  generalize m.prepareMatch = p at hhead hprepared hstashes
  obtain ⟨rfl, -, -, -, hrest⟩ := hhead.cons hprepared
  refine ⟨?_, hstashes.pending, hstashes.external⟩
  rw [advance_ahead]
  exact hrest

/-! ## Children -/

/-- The walk for the terminal of a child: what it finds, and what it has seen. -/
theorem childWalk_spec {leaves : Nat → Bool → Bool} {childId : ExecutionId} {start : Nat}
    {events : List WorkflowEvent} (n at' : Nat) :
    let walked := childWalk leaves childId start events n at'
    (∀ k, walked.1 = some k →
      (events[k]?).any fun event => activityScanRole event = .childTerminal childId) ∧
    (walked.1 = none → ∀ k, at' ≤ k → k < walked.2 →
      ¬ (events[k]?).any fun event => activityScanRole event = .childTerminal childId) := by
  induction n generalizing at' with
  | zero => exact ⟨nofun, fun _ k hk hlt => absurd hlt (by change ¬ k < at'; omega)⟩
  | succ n ih =>
    rw [childWalk]
    split_ifs with hleaves hfound
    · exact ⟨nofun, fun _ k hk hlt => absurd hlt (by change ¬ k < at'; omega)⟩
    · refine ⟨fun k hk => ?_, nofun⟩
      obtain rfl := Option.some.inj hk
      exact hfound
    · obtain ⟨hsome, hnone⟩ := ih (at' + 1)
      refine ⟨hsome, fun hwalked k hk hlt => ?_⟩
      rcases hk.eq_or_lt with rfl | hk
      · exact hfound
      · exact hnone hwalked k hk hlt

/-- The search for the terminal of a child finds the only one. -/
theorem findChildTerminal_eq {roles : List ScanRole} (hindexed : Indexed roles m)
    (hfull : roles.length ≤ m.events.length) {childId : ExecutionId} {start terminal : Nat}
    (hrole : (m.events[terminal]?).any fun event => activityScanRole event = .childTerminal childId)
    (hle : start ≤ terminal)
    (honly : ∀ k, ((m.events[k]?).any fun event =>
      activityScanRole event = .childTerminal childId) → k = terminal) :
    (m.findChildTerminal childId start).1 = some terminal := by
  have hlt : terminal < m.events.length := by
    by_contra hnot
    rw [List.getElem?_eq_none (by omega)] at hrole
    cases hrole
  have hroles (k : Nat) : (roles[k]?).any (·.isTerminalOfChild childId) =
      (m.events[k]?).any fun event => activityScanRole event = .childTerminal childId := by
    by_cases hk : k < m.events.length
    · rw [hindexed.role_at hk, Option.any_map]
      congr 1
      funext event
      cases hevent : activityScanRole event <;>
        simp [ScanRole.isTerminalOfChild, eq_comm]
    · rw [List.getElem?_eq_none (by omega), List.getElem?_eq_none (by omega)]
      rfl
  obtain ⟨hsome, hnone⟩ := @childWalk_spec m.leavesWalk childId start m.events
    (m.events.length - start) start
  rw [findChildTerminal, findChildTerminalWith]
  dsimp only
  generalize childWalk m.leavesWalk childId start m.events (m.events.length - start) start = walked
    at hsome hnone
  obtain ⟨found, at'⟩ := walked
  cases found with
  | some k =>
    rw [honly k (hsome k rfl)]
  | none =>
    have hnot : at' ≤ terminal := by
      by_contra hpast
      exact hnone rfl terminal hle (by change terminal < at'; omega) hrole
    dsimp only
    rw [if_neg (by omega)]
    have hextended := (hindexed.noteWalk (at' - start)).extend
    have hfirst := hextended.index.firstChildTerminal childId at'
    change Option.filter (· < m.events.length) ((((m.activityScanIndex.noteWalk (at' - start)).extend
      m.events)).firstChildTerminal childId at') = some terminal
    rw [show ((m.activityScanIndex.noteWalk (at' - start)).extend m.events).firstChildTerminal
      childId at' = _ from hfirst, Option.filter_eq_some_iff]
    refine ⟨List.find?_range_eq_some.mpr ⟨?_, ?_, fun k hk => ?_⟩, decide_eq_true hlt⟩
    · rw [hroles, hrole, Bool.true_and]
      exact decide_eq_true hnot
    · exact List.mem_range.mpr (hlt.trans_le (le_max_right _ _))
    · rw [hroles]
      cases hother : (m.events[k]?).any fun event =>
          decide (activityScanRole event = .childTerminal childId) with
      | false => rfl
      | true => exact absurd (honly k hother) (Nat.ne_of_lt hk)

/-- The search for the terminal of a child changes the index only. -/
theorem findChildTerminal_withIndex (m : HistoryMatcher) (childId : ExecutionId) (start : Nat) :
    ∃ index, (m.findChildTerminal childId start).2 = m.withIndex index := by
  rw [findChildTerminal, findChildTerminalWith]
  dsimp only
  generalize childWalk m.leavesWalk childId start m.events (m.events.length - start) start = walked
  cases walked.1 with
  | some terminal => exact ⟨_, rfl⟩
  | none =>
    dsimp only
    split_ifs
    · exact ⟨_, rfl⟩
    · exact ⟨_, rfl⟩

/-- A child whose only terminal event is ahead. -/
theorem matchChildWorkflow_ahead {roles : List ScanRole} (hindexed : Indexed roles m.prepareMatch)
    (hfull : roles.length ≤ m.events.length) {showJson : Json → String} {id : ExecutionId}
    {name : String} {input : Json} {result : HistoryMatch} {terminal : Nat}
    {rest : List (WorkflowEvent × Nat)} (hexternal : m.external = .new)
    (hplain : NoExternal m.ahead)
    (hahead : m.ahead.dropWhile isDrained = (.childWorkflowStarted id name input, j) :: rest)
    (hterminal : (event, terminal) ∈ rest) (hrole : activityScanRole event = .childTerminal id)
    (hresult : childResult event = some result)
    (honly : ∀ k, ((m.events[k]?).any fun event =>
      activityScanRole event = .childTerminal id) → k = terminal) :
    (m.matchChildWorkflow showJson name input).1 = result ∧
      Moves m (m.matchChildWorkflow showJson name input).2 (m.ahead.takeWhile isDrained)
        (rest.filter fun entry => ! decide (entry.2 = terminal)) := by
  obtain ⟨hhead, hprepared, hstashes⟩ := prepareMatch_ahead hexternal hplain
  rw [hahead] at hprepared
  rw [matchChildWorkflow]
  generalize m.prepareMatch = p at hindexed hhead hprepared hstashes
  obtain ⟨rfl, hreplaying, hevent, hlt, hrest⟩ := hhead.cons hprepared
  rw [← hrest] at hterminal
  obtain ⟨hle, hhere, -⟩ := mem_aheadFrom.mp hterminal
  have hfound := @findChildTerminal_eq p roles hindexed (by rwa [hstashes.events]) id (p.cursor + 1)
    terminal (by rw [hhere]; exact decide_eq_true hrole) hle (by rwa [hstashes.events])
  obtain ⟨index, hindex⟩ := findChildTerminal_withIndex p id (p.cursor + 1)
  have hpair : p.findChildTerminal id (p.cursor + 1) = (some terminal, p.withIndex index) :=
    Prod.ext hfound hindex
  have hbind : ((p.withIndex index).events[terminal]?).bind childResult = some result := by
    change (p.events[terminal]?).bind childResult = some result
    rw [hhere]
    exact hresult
  simp only [hreplaying, hevent, Bool.not_true, Bool.false_eq_true, if_false, ne_eq,
    not_true_eq_false, hpair, Option.bind_some, hbind, Option.map_some]
  refine ⟨trivial, ?_, hstashes.pending, hstashes.external⟩
  rw [advance_ahead, ← hrest]
  refine @aheadFrom_filter p _ (p.cursor + 1) (fun k => decide (k = terminal)) rfl fun k => ?_
  rw [Bool.eq_iff_iff, Bool.or_eq_true, isConsumed_iff, isConsumed_iff, decide_eq_true_eq]
  simp only [withIndex, Finset.mem_insert]
  tauto

/-! ## Signals -/

/-- What a wait for a signal of the name goes past before it has met a command: signals of other
names, which it stashes, and updates. -/
def ignoredBy (name : String) : WorkflowEvent × Nat → Bool
  | (.signalReceived other _, _) => other ≠ name
  | (event, _) => isUpdateEvent event

/-- **The walk of a wait** ends at the first signal of its name. -/
theorem signalLoop_ahead {leaves : Nat → Bool → Bool} (hleaves : ∀ walked, leaves walked false = false)
    {name : String} {payload : Json} {start stop : Nat} {rest : List (WorkflowEvent × Nat)}
    (n at' : Nat) (m : HistoryMatcher) (passed : List (WorkflowEvent × Nat))
    (hn : at' + n = m.events.length)
    (hahead : m.aheadFrom at' = passed ++ (.signalReceived name payload, stop) :: rest)
    (hpassed : ∀ entry ∈ passed, ignoredBy name entry) :
    (signalLoop leaves name none none start n at' none m).1 = .matched payload ∧
      Moves m (signalLoop leaves name none none start n at' none m).2 passed rest := by
  induction n generalizing at' m passed with
  | zero =>
    rw [aheadFrom_end (by omega)] at hahead
    cases passed <;> cases hahead
  | succ n ih =>
    have hlt : at' < m.events.length := by omega
    rw [signalLoop, Option.isSome_none, hleaves, Bool.and_false, if_neg Bool.false_ne_true]
    by_cases hconsumed : m.isConsumed at'
    · rw [if_pos hconsumed]
      rw [aheadFrom_of_consumed hconsumed] at hahead
      exact ih (at' + 1) m passed (by omega) hahead hpassed
    · rw [if_neg hconsumed]
      obtain ⟨here, hhere⟩ : ∃ here, m.events[at']? = some here :=
        ⟨_, List.getElem?_eq_getElem hlt⟩
      rw [aheadFrom_cons hhere hconsumed] at hahead
      cases passed with
      | nil =>
        obtain ⟨hentry, hrest⟩ := List.cons.inj hahead
        obtain ⟨rfl, rfl⟩ := Prod.mk.inj hentry
        rw [signalScanStep, hhere]
        simp only [if_true, accepts, Option.all_none, Option.getD_none]
        refine ⟨trivial, ?_, (List.append_nil _).symm, rfl⟩
        change ({ m.deliverAt at' with
          cursor := at' + 1 } : HistoryMatcher).advanceToNextUnconsumedEvent.ahead = rest
        rw [advance_ahead, ← hrest]
        refine aheadFrom_congr rfl fun k hk => ?_
        have hne : k ≠ at' := by
          change at' + 1 ≤ k at hk
          omega
        change (m.deliverAt at').isConsumed k = m.isConsumed k
        rw [Bool.eq_iff_iff, isConsumed_deliverAt]
        exact or_iff_right hne
      | cons entry passed =>
        obtain ⟨rfl, hrest⟩ := List.cons.inj hahead
        have hpass := hpassed _ List.mem_cons_self
        have hlater := fun entry hentry => hpassed entry (List.mem_cons_of_mem _ hentry)
        cases hsignal : (stashEntry (here, at')).isSome with
        | true =>
          cases here with
          | signalReceived other payload' =>
            obtain ⟨hstashes, hfilter⟩ := stash_signal hhere
            have hne : ¬ other = name := of_decide_eq_true hpass
            obtain ⟨hmatched, hmoves⟩ := ih (at' + 1) (m.stashTransparentExternalEvent at') passed
              (by rw [stash_events]; omega)
              (by rw [hfilter, aheadFrom_filter_of_lt (Nat.lt_succ_self _)]; exact hrest) hlater
            rw [signalScanStep, hhere]
            simp only [hne, if_false]
            exact ⟨hmatched, @Stashes.moves _ _ _ [_] _ _ _ hstashes hmoves⟩
          | _ => cases hsignal
        | false =>
          have hnone : stashEntry (here, at') = none := Option.not_isSome_iff_eq_none.mp
            (Bool.eq_false_iff.mp hsignal)
          have hupdate : isUpdateEvent here = true := by
            cases here with
            | signalReceived => cases hsignal
            | _ => exact hpass
          have hstep : m.signalScanStep at' name none none none = ((none, none), m) := by
            rw [signalScanStep, hhere]
            cases here <;> first | rfl | cases hupdate
          obtain ⟨hmatched, hmoves⟩ := ih (at' + 1) m passed (by omega) hrest hlater
          rw [hstep]
          refine ⟨hmatched, hmoves.ahead, ?_, hmoves.external⟩
          rw [List.filterMap_cons_none hnone]
          exact hmoves.pending

/-- A wait whose signal is ahead and not in the stash. -/
theorem matchSignal_ahead {name : String} {payload : Json} {stop : Nat}
    {passed rest : List (WorkflowEvent × Nat)}
    (hpending : ∀ entry ∈ m.pendingSignals.entries, entry.name ≠ name)
    (hahead : m.ahead = passed ++ (.signalReceived name payload, stop) :: rest)
    (hpassed : ∀ entry ∈ passed, ignoredBy name entry) :
    (m.matchSignal name).1 = .matched payload ∧ Moves m (m.matchSignal name).2 passed rest := by
  have hofName : m.pendingSignals.ofName name = [] :=
    List.filter_eq_nil_iff.mpr fun entry hentry => by simpa using hpending entry hentry
  have hremove : (m.pendingSignals.removeFirst name fun entry =>
      accepts none entry.index entry.payload) = none := by
    rw [SignalStash.removeFirst, Option.map_eq_none_iff, List.find?_eq_none]
    intro entry hentry
    simp [hpending entry hentry]
  have hclaim : m.claimBufferedSignal name none = (none, m) := by
    rw [claimBufferedSignal, hofName]
    simp only [List.takeWhile_nil, List.map_nil, List.toFinset_nil, Finset.union_empty, hremove]
  have hahead' : m.advanceToNextUnconsumedEvent.ahead =
      passed ++ (.signalReceived name payload, stop) :: rest := by
    rw [advance_ahead, hahead]
  have hreplaying : m.advanceToNextUnconsumedEvent.isReplaying = true := by
    rw [isReplaying_eq, hahead']
    cases passed <;> rfl
  have hlt := cursor_lt_of_isReplaying _ hreplaying
  obtain ⟨hmatched, hmoves⟩ := @signalLoop_ahead _ (leavesWalk_false m) name payload
    m.advanceToNextUnconsumedEvent.cursor stop rest _ _ m.advanceToNextUnconsumedEvent passed
    (Nat.add_sub_of_le hlt.le) hahead' hpassed
  rw [matchSignal, matchSignalInner, matchSignalInnerWith, hclaim]
  dsimp only
  rw [hreplaying]
  exact ⟨hmatched, hmoves.ahead, hmoves.pending, hmoves.external⟩

end HistoryMatcher

end Harvest.Replay
