import Harvest.Replay.Matching

/-!
# The index changes no scan

A scan that leaves its walk for the index ends where the walk would have ended, with the same
first command, the same stashes and the same consumed events. The argument goes position by
position: where the walk takes a step that changes nothing, the queries of the index give the
same answers from the next position on.

Proved here:
* `Indexed.findScanStopWith`, `Indexed.settleTerminal`: the activity and timer scan, and settling
  at its stop.
* `Indexed.matchSignalInnerWith`: the wait for a signal.
* `IndexRun.indexes`: every run of builds, queries, consumptions and cuts keeps the index right.
-/

namespace Harvest.Replay

open HistoryMatcher

/-! ## Searching roles -/

section FirstRole

variable {β : Type*} {roles : List β} {consumed consumed' : Nat → Bool} {n bound i : Nat}
  {p : β → Bool}

theorem firstRole_eq_some : firstRole roles consumed n bound p = some i ↔
    i < n ∧ bound ≤ i ∧ ! consumed i ∧ (roles[i]?).any p ∧
      ∀ j < i, bound ≤ j → ! consumed j → ¬ (roles[j]?).any p := by
  unfold firstRole
  rw [List.find?_range_eq_some]
  simp only [Bool.and_eq_true, decide_eq_true_eq, List.mem_range, Bool.not_eq_true']
  constructor
  · rintro ⟨⟨hrole, hle, hnew⟩, hlt, hfirst⟩
    refine ⟨hlt, hle, hnew, hrole, fun j hj hb hc hp => ?_⟩
    have := hfirst j hj
    simp [hb, hc, hp] at this
  · rintro ⟨hlt, hle, hnew, hrole, hfirst⟩
    refine ⟨⟨hrole, hle, hnew⟩, hlt, fun j hj => ?_⟩
    have := hfirst j hj
    by_cases hb : bound ≤ j
    · cases hc : consumed j with
      | true => simp
      | false => simpa [hb, hc] using this hb hc
    · simp [hb]

theorem firstRole_eq_none : firstRole roles consumed n bound p = none ↔
    ∀ i < n, bound ≤ i → ! consumed i → ¬ (roles[i]?).any p := by
  unfold firstRole
  rw [List.find?_eq_none]
  simp only [List.mem_range, Bool.and_eq_true, decide_eq_true_eq, not_and]
  constructor
  · intro h i hi hb hc hp
    exact h i hi hp hb hc
  · intro h i hi hp hb hc
    exact h i hi hb hc hp

/-- Positions that do not count may be left out of the search. -/
theorem firstRole_jump {bound' : Nat} (hle : bound ≤ bound')
    (h : ∀ j, bound ≤ j → j < bound' → ! consumed j → ¬ (roles[j]?).any p) :
    firstRole roles consumed n bound p = firstRole roles consumed n bound' p := by
  unfold firstRole
  congr 1
  funext j
  cases hp : (roles[j]?).any p with
  | false => rfl
  | true =>
    cases hc : consumed j with
    | true => simp
    | false =>
      have hiff : bound ≤ j ↔ bound' ≤ j := by
        by_contra hne
        exact h j (by omega) (by omega) (by simp [hc]) hp
      simp [hiff]

theorem firstRole_skip (h : ¬ (! consumed bound ∧ (roles[bound]?).any p)) :
    firstRole roles consumed n bound p = firstRole roles consumed n (bound + 1) p := by
  refine firstRole_jump (Nat.le_succ bound) fun j hle hlt hc hp => ?_
  obtain rfl : j = bound := by omega
  exact h ⟨hc, hp⟩

theorem firstRole_here (hlt : bound < n) (hnew : ! consumed bound) (hrole : (roles[bound]?).any p) :
    firstRole roles consumed n bound p = some bound :=
  firstRole_eq_some.mpr ⟨hlt, le_rfl, hnew, hrole, fun j hj hb => by omega⟩

/-- What is consumed before the bound does not matter. -/
theorem firstRole_congr (h : ∀ j, bound ≤ j → consumed j = consumed' j) :
    firstRole roles consumed n bound p = firstRole roles consumed' n bound p := by
  unfold firstRole
  congr 1
  funext j
  by_cases hb : bound ≤ j
  · rw [h j hb]
  · simp [hb]

/-- Fewer properties, later. -/
theorem firstRole_eq_none_of_imp {q : β → Bool} (h : firstRole roles consumed n bound p = none)
    (himp : ∀ a, q a → p a) : firstRole roles consumed n bound q = none := by
  rw [firstRole_eq_none] at h ⊢
  intro i hi hb hc hq
  obtain ⟨a, ha, hqa⟩ := (Option.any_eq_true _ _).mp hq
  exact h i hi hb hc ((Option.any_eq_true _ _).mpr ⟨a, ha, himp a hqa⟩)

theorem firstRole_lt (h : firstRole roles consumed n bound p = some i) : i < n :=
  (firstRole_eq_some.mp h).1

end FirstRole

theorem le_skipFrom (p : Nat → Bool) (n i : Nat) : i ≤ skipFrom p n i := by
  induction n generalizing i with
  | zero => exact le_rfl
  | succ n ih =>
    unfold skipFrom
    split_ifs
    · exact (Nat.le_succ i).trans (ih (i + 1))
    · exact le_rfl

/-! ## What stashing an event changes -/

namespace HistoryMatcher

variable (m : HistoryMatcher) (i : Nat)

theorem cursor_lt_of_isReplaying (h : m.isReplaying) : m.cursor < m.events.length :=
  (le_skipFrom _ _ _).trans_lt (of_decide_eq_true h)

/-- Stashing changes nothing, or it consumes the event and changes the stashes. -/
theorem stash_cases : m.stashTransparentExternalEvent i = m ∨ ∃ pending external,
    m.stashTransparentExternalEvent i = { m with
      pendingSignals := pending
      external := external
      consumedSignalEvents := insert i m.consumedSignalEvents } := by
  unfold stashTransparentExternalEvent
  split <;> first | exact Or.inl rfl | exact Or.inr ⟨_, _, rfl⟩

@[simp] theorem stash_events : (m.stashTransparentExternalEvent i).events = m.events := by
  rcases m.stash_cases i with h | ⟨_, _, h⟩ <;> rw [h]

@[simp] theorem stash_cursor : (m.stashTransparentExternalEvent i).cursor = m.cursor := by
  rcases m.stash_cases i with h | ⟨_, _, h⟩ <;> rw [h]

@[simp] theorem stash_index :
    (m.stashTransparentExternalEvent i).activityScanIndex = m.activityScanIndex := by
  rcases m.stash_cases i with h | ⟨_, _, h⟩ <;> rw [h]

@[simp] theorem stash_outOfOrder :
    (m.stashTransparentExternalEvent i).consumedOutOfOrderEvents = m.consumedOutOfOrderEvents := by
  rcases m.stash_cases i with h | ⟨_, _, h⟩ <;> rw [h]

@[simp] theorem stash_transparent :
    (m.stashTransparentExternalEvent i).transparentEvents = m.transparentEvents := by
  rcases m.stash_cases i with h | ⟨_, _, h⟩ <;> rw [h]

theorem stash_consumedSignals (h : (m.events[i]?).any isTransparentExternalEvent) :
    (m.stashTransparentExternalEvent i).consumedSignalEvents = insert i m.consumedSignalEvents := by
  cases hevent : m.events[i]? with
  | none => simp [hevent] at h
  | some event =>
    unfold stashTransparentExternalEvent
    rw [hevent] at h ⊢
    cases event <;> first | rfl | simp [isTransparentExternalEvent] at h

theorem isConsumed_iff {j : Nat} : m.isConsumed j ↔ j ∈ m.consumedOutOfOrderEvents ∨
    j ∈ m.consumedSignalEvents ∨ j ∈ m.transparentEvents := by
  simp [isConsumed, or_assoc]

/-- Stashing forgets nothing that is consumed. -/
theorem stash_consumed_mono {j : Nat} (h : m.isConsumed j) :
    (m.stashTransparentExternalEvent i).isConsumed j := by
  have hsub : m.consumedSignalEvents ⊆ (m.stashTransparentExternalEvent i).consumedSignalEvents := by
    rcases m.stash_cases i with h | ⟨_, _, h⟩ <;> rw [h]
    exact Finset.subset_insert _ _
  rw [isConsumed_iff] at h ⊢
  rw [stash_outOfOrder, stash_transparent]
  rcases h with h | h | h
  · exact Or.inl h
  · exact Or.inr (Or.inl (hsub h))
  · exact Or.inr (Or.inr h)

theorem stash_isConsumed (h : (m.events[i]?).any isTransparentExternalEvent) (j : Nat) :
    (m.stashTransparentExternalEvent i).isConsumed j = (m.isConsumed j || decide (j = i)) := by
  unfold isConsumed
  rw [stash_outOfOrder, stash_transparent, stash_consumedSignals m i h]
  simp only [Finset.mem_insert]
  by_cases hj : j = i <;> simp [hj]

end HistoryMatcher

/-! ## A matcher with its index -/

/-- The index of the matcher holds positions of a history with these roles, of which the matcher
sees a part. -/
structure Indexed (roles : List ScanRole) (m : HistoryMatcher) : Prop where
  agree : m.events.map activityScanRole = roles.take m.events.length
  index : Indexes roles m.isConsumed m.activityScanIndex

/-- The matcher with another index. -/
def HistoryMatcher.withIndex (m : HistoryMatcher) (index : ActivityScanIndex) : HistoryMatcher :=
  { m with activityScanIndex := index }

/-- The matcher without its index. -/
def HistoryMatcher.forgetIndex (m : HistoryMatcher) : HistoryMatcher := m.withIndex .empty

/-- A walk that never leaves for the index. -/
def never : Nat → Bool → Bool := fun _ _ => false

namespace Indexed

variable {roles : List ScanRole} {m : HistoryMatcher} {i : Nat} {event : WorkflowEvent}

theorem role_at (h : Indexed roles m) (hi : i < m.events.length) :
    roles[i]? = (m.events[i]?).map activityScanRole := by
  have := congrArg (·[i]?) h.agree
  simp only [List.getElem?_map, List.getElem?_take, if_pos hi] at this
  exact this.symm

theorem withIndex (h : Indexed roles m) {index : ActivityScanIndex}
    (hindex : Indexes roles m.isConsumed index) : Indexed roles (m.withIndex index) :=
  ⟨h.agree, hindex⟩

/-- What keeps the events and only adds to what is consumed keeps the index. -/
theorem grow (h : Indexed roles m) {m' : HistoryMatcher} (hevents : m'.events = m.events)
    (hindex : m'.activityScanIndex = m.activityScanIndex)
    (hconsumed : ∀ j, m.isConsumed j → m'.isConsumed j) : Indexed roles m' := by
  refine ⟨by rw [hevents]; exact h.agree, ?_⟩
  rw [hindex]
  exact h.index.mono hconsumed

theorem stash (h : Indexed roles m) (i : Nat) :
    Indexed roles (m.stashTransparentExternalEvent i) :=
  h.grow (stash_events m i) (stash_index m i) fun _ => stash_consumed_mono m i

theorem extend (h : Indexed roles m) :
    Indexed roles (m.withIndex (m.activityScanIndex.extend m.events)) :=
  h.withIndex (h.index.extend h.agree)

theorem noteWalk (h : Indexed roles m) (walked : Nat) :
    Indexed roles (m.withIndex (m.activityScanIndex.noteWalk walked)) :=
  h.withIndex (h.index.noteWalk walked)

/-- The first unconsumed event from `next` to before `limit` whose role has the property. -/
theorem first_eq (h : Indexed roles m) {n limit : Nat} (next : Nat) (p : ScanRole → Bool)
    (hlimit : limit ≤ m.events.length) (hn : limit ≤ n) :
    (firstRole roles m.isConsumed n next p).filter (· < limit) =
      firstRole m.events m.isConsumed limit next fun event => p (activityScanRole event) := by
  have hany : ∀ j < limit, (roles[j]?).any p =
      (m.events[j]?).any fun event => p (activityScanRole event) := by
    intro j hj
    rw [h.role_at (by omega), Option.any_map]
  apply Option.ext
  intro i
  rw [Option.filter_eq_some_iff, firstRole_eq_some, firstRole_eq_some]
  simp only [decide_eq_true_eq]
  constructor
  · rintro ⟨⟨-, hle, hnew, hrole, hfirst⟩, hlt⟩
    refine ⟨hlt, hle, hnew, by rwa [← hany i hlt], fun j hj hb hc => ?_⟩
    rw [← hany j (by omega)]
    exact hfirst j hj hb hc
  · rintro ⟨hlt, hle, hnew, hrole, hfirst⟩
    refine ⟨⟨by omega, hle, hnew, by rwa [hany i hlt], fun j hj hb hc => ?_⟩, hlt⟩
    rw [hany j (by omega)]
    exact hfirst j hj hb hc

end Indexed

/-! ## The scan for a signal -/

/-- A command that the scan for `signalName` rewinds to. A deadline of this very wait is none. -/
def rewinds (signalName : String) (event : WorkflowEvent) : Bool :=
  match event with
  | .timerStarted timerId _ => signalTimeoutRaceName timerId.name ≠ some signalName
  | event => (activityScanRole event).isCommand

theorem isCommand_of_rewinds {signalName : String} {event : WorkflowEvent}
    (h : rewinds signalName event) : (activityScanRole event).isCommand := by
  cases event <;> first | rfl | exact h

theorem not_isBarrier_of_isCommand {role : ScanRole} (h : role.isCommand) : ¬ role.isBarrier := by
  cases role <;> simp_all [ScanRole.isCommand, ScanRole.isBarrier]

/-- The signal scan from barrier to barrier, by searches of the history. -/
def signalFrom (signalName : String) (predicate : Option SignalPredicate) :
    Nat → HistoryMatcher → Nat → Option Nat → HistoryMatch × HistoryMatcher
  | 0, m, _, _ => (.noMatch, m)
  | fuel + 1, m, next, first =>
    let barrier := firstRole m.events m.isConsumed m.events.length next
      fun event => (activityScanRole event).isBarrier
    let first := first <|> firstRole m.events m.isConsumed (barrier.getD m.events.length) next
      (rewinds signalName)
    match barrier with
    | none => (.noMatch, m)
    | some at' =>
      match m.signalScanStep at' signalName none predicate first with
      | ((some result, _), m) => (result, m)
      | ((none, first), m) => signalFrom signalName predicate fuel m (at' + 1) first

section Signal

variable {roles : List ScanRole} {m : HistoryMatcher} {at' : Nat} {event : WorkflowEvent}
  {signalName : String} {predicate : Option SignalPredicate} {first : Option Nat}

theorem stash_forgetIndex (m : HistoryMatcher) (at' : Nat) :
    m.forgetIndex.stashTransparentExternalEvent at' =
      (m.stashTransparentExternalEvent at').forgetIndex := by
  have hevents : m.forgetIndex.events = m.events := rfl
  unfold stashTransparentExternalEvent
  rw [hevents]
  cases m.events[at']? with
  | none => rfl
  | some event => cases event <;> rfl

theorem signalScanStep_forgetIndex :
    m.forgetIndex.signalScanStep at' signalName none predicate first =
      ((m.signalScanStep at' signalName none predicate first).1,
        (m.signalScanStep at' signalName none predicate first).2.forgetIndex) := by
  have hevents : m.forgetIndex.events = m.events := rfl
  unfold signalScanStep
  rw [hevents]
  cases m.events[at']? with
  | none => rfl
  | some event =>
    cases event with
    | signalReceived recordedName payload =>
      dsimp only
      split_ifs
      · rfl
      · exact Prod.ext rfl (stash_forgetIndex { m with
          predicateRejectedSignalEvents := insert at' m.predicateRejectedSignalEvents } at')
      · rw [stash_forgetIndex]
    | timerStarted timerId duration =>
      dsimp only
      split_ifs <;> rfl
    | _ =>
      dsimp only [isUpdateEvent, activityScanRole, isTransparentExternalEvent]
      first
      | rfl
      | (cases first <;> rfl)
      | exact Prod.ext rfl (stash_forgetIndex m at')

/-- What the scan does at an unconsumed command. -/
theorem signalScanStep_command (hevent : m.events[at']? = some event)
    (hrewinds : rewinds signalName event) :
    m.signalScanStep at' signalName none predicate first = ((none, first <|> some at'), m) := by
  unfold signalScanStep
  rw [hevent]
  cases event <;> simp_all [rewinds, activityScanRole, ScanRole.isCommand, isUpdateEvent]

/-- What the scan does at an event that is neither a command nor a barrier. -/
theorem signalScanStep_pass (hevent : m.events[at']? = some event)
    (hrewinds : ¬ rewinds signalName event) (hbarrier : ¬ (activityScanRole event).isBarrier) :
    m.signalScanStep at' signalName none predicate first = ((none, first), m) := by
  unfold signalScanStep
  rw [hevent]
  cases event <;>
    simp_all [rewinds, activityScanRole, ScanRole.isCommand, ScanRole.isBarrier, isUpdateEvent]

/-- What the scan leaves: the matcher, the matcher with the event stashed, or the signal
delivered. -/
theorem signalScanStep_cases {tolerate : Option String} :
    (m.signalScanStep at' signalName tolerate predicate first).2 = m ∨
    ((m.events[at']?).any isTransparentExternalEvent ∧ ∃ rejected,
      (m.signalScanStep at' signalName tolerate predicate first).2 =
        { m with predicateRejectedSignalEvents := rejected }.stashTransparentExternalEvent at') ∨
    ∃ payload, m.events[at']? = some (.signalReceived signalName payload) ∧
      accepts predicate at' payload ∧
      m.signalScanStep at' signalName tolerate predicate first = ((some (.matched payload), first),
        { m.deliverAt at' with cursor := first.getD (at' + 1) }.advanceToNextUnconsumedEvent) := by
  have hstash (rejected : Finset Nat) (heq : rejected = m.predicateRejectedSignalEvents) :
      m.stashTransparentExternalEvent at' =
        { m with predicateRejectedSignalEvents := rejected }.stashTransparentExternalEvent at' := by
    rw [heq]
  unfold signalScanStep
  cases hevent : m.events[at']? with
  | none => exact Or.inl rfl
  | some event =>
    cases event with
    | signalReceived recordedName payload =>
      dsimp only
      split_ifs with hname haccepts
      · subst hname
        exact Or.inr (Or.inr ⟨payload, rfl, haccepts, rfl⟩)
      · exact Or.inr (Or.inl ⟨rfl, _, rfl⟩)
      · exact Or.inr (Or.inl ⟨rfl, _, hstash _ rfl⟩)
    | timerStarted timerId duration =>
      dsimp only
      split_ifs <;> exact Or.inl rfl
    | markerRecorded name details =>
      dsimp only
      split_ifs <;> exact Or.inl rfl
    | _ =>
      dsimp only [isUpdateEvent, activityScanRole, isTransparentExternalEvent]
      first
      | exact Or.inl rfl
      | exact Or.inr (Or.inl ⟨rfl, _, hstash _ rfl⟩)
      | (simp only [Bool.false_eq_true, if_false]
         left
         split_ifs <;> rfl)

/-- The scan keeps the events and the index, and only adds to what is consumed. -/
theorem signalScanStep_keeps {tolerate : Option String} :
    (m.signalScanStep at' signalName tolerate predicate first).2.events = m.events ∧
      (m.signalScanStep at' signalName tolerate predicate first).2.activityScanIndex =
        m.activityScanIndex ∧
      ∀ j, m.isConsumed j →
        (m.signalScanStep at' signalName tolerate predicate first).2.isConsumed j := by
  have hcases : (m.signalScanStep at' signalName tolerate predicate first).2 = m ∨ _ :=
    signalScanStep_cases
  rcases hcases with h | ⟨-, rejected, h⟩ | ⟨payload, -, -, h⟩
  · rw [h]
    exact ⟨rfl, rfl, fun _ => id⟩
  · rw [h]
    refine ⟨stash_events _ at', stash_index _ at', fun j hj => stash_consumed_mono _ at' ?_⟩
    exact hj
  · rw [h]
    refine ⟨rfl, rfl, fun j hj => ?_⟩
    rw [isConsumed_iff] at hj ⊢
    rcases hj with hj | hj | hj
    · exact Or.inl hj
    · exact Or.inr (Or.inl (Finset.mem_insert_of_mem hj))
    · exact Or.inr (Or.inr hj)

/-- The lookup of the first command skips the deadlines of this very wait. -/
theorem Indexed.firstSignalInterleaved (h : Indexed roles m) (signalName : String)
    {limit next fuel : Nat}
    (hlimit : limit ≤ m.events.length) (hindexed : limit ≤ m.activityScanIndex.indexed)
    (hfuel : limit - next < fuel) :
    (firstSignalInterleaved signalName limit fuel m next).1 =
        firstRole m.events m.isConsumed limit next (rewinds signalName) ∧
      ∃ index, (HistoryMatcher.firstSignalInterleaved signalName limit fuel m next).2 =
          m.withIndex index ∧
        Indexes roles m.isConsumed index ∧ index.indexed = m.activityScanIndex.indexed := by
  have hrewinds : ∀ event, rewinds signalName event → (activityScanRole event).isCommand :=
    fun _ => isCommand_of_rewinds
  induction fuel generalizing m next with
  | zero => omega
  | succ fuel ih =>
    obtain ⟨hfound, hsame, hindex⟩ := h.index.firstInterleaved next
    have hcommand := h.first_eq next ScanRole.isCommand hlimit hindexed
    simp only [HistoryMatcher.firstSignalInterleaved]
    rw [hfound, hcommand]
    have h' : Indexed roles
        { m with activityScanIndex := (m.activityScanIndex.firstInterleaved next m.isConsumed).2 } :=
      h.withIndex hindex
    cases hfirst : firstRole m.events m.isConsumed limit next
        fun event => (activityScanRole event).isCommand with
    | none => exact ⟨(firstRole_eq_none_of_imp hfirst hrewinds).symm, _, rfl, hindex, hsame⟩
    | some at' =>
      obtain ⟨hlt, hle, hnew, hrole, hbefore⟩ := firstRole_eq_some.mp hfirst
      have hnone : ∀ j, next ≤ j → j < at' → ! m.isConsumed j →
          ¬ (m.events[j]?).any (rewinds signalName) := by
        intro j hb hj hc hany
        obtain ⟨event, hevent, hre⟩ := (Option.any_eq_true _ _).mp hany
        exact hbefore j hj hb hc ((Option.any_eq_true _ _).mpr ⟨event, hevent, hrewinds event hre⟩)
      have hstay (hre : (m.events[at']?).any (rewinds signalName)) :
          firstRole m.events m.isConsumed limit next (rewinds signalName) = some at' :=
        firstRole_eq_some.mpr ⟨hlt, hle, hnew, hre, fun j hj hb => hnone j hb hj⟩
      obtain ⟨event, hevent, -⟩ := (Option.any_eq_true _ _).mp hrole
      cases event with
      | timerStarted timerId duration =>
        simp only [hevent]
        split_ifs with hown
        · -- A deadline of this very wait: the lookup goes on behind it.
          obtain ⟨hrest, index, hkeep, hsound, hsame'⟩ :=
            ih h' hlimit (by rw [← hsame] at hindexed; exact hindexed)
              (show limit - (at' + 1) < fuel by omega)
          refine ⟨?_, index, hkeep, hsound, hsame'.trans hsame⟩
          rw [hrest]
          refine (firstRole_jump (by omega) fun j hb hj hc hany => ?_).symm
          rcases Nat.lt_succ_iff_lt_or_eq.mp hj with hj | rfl
          · exact hnone j hb hj hc hany
          · simp [hevent, rewinds, hown] at hany
        · exact ⟨(hstay (by simp [hevent, rewinds, hown])).symm, _, rfl, hindex, hsame⟩
      | _ =>
        simp only [hevent]
        refine ⟨(hstay ?_).symm, _, rfl, hindex, hsame⟩
        rw [hevent] at hrole ⊢
        exact hrole

theorem Indexed.signalScanStep (h : Indexed roles m) (at' : Nat) (signalName : String)
    (tolerate : Option String) (predicate : Option SignalPredicate) (first : Option Nat) :
    Indexed roles (m.signalScanStep at' signalName tolerate predicate first).2 :=
  h.grow signalScanStep_keeps.1 signalScanStep_keeps.2.1 signalScanStep_keeps.2.2

/-- The queries of one turn: the next barrier and the first command before it. -/
theorem Indexed.matchIndexedSignal_succ (h : Indexed roles m) (fuel next : Nat)
    (first : Option Nat) (hindexed : m.events.length ≤ m.activityScanIndex.indexed) :
    let barrier := firstRole m.events m.isConsumed m.events.length next
      fun event => (activityScanRole event).isBarrier
    let first' := first <|> firstRole m.events m.isConsumed (barrier.getD m.events.length) next
      (rewinds signalName)
    ∃ index, Indexes roles m.isConsumed index ∧ index.indexed = m.activityScanIndex.indexed ∧
      HistoryMatcher.matchIndexedSignal signalName predicate (fuel + 1) m next first =
        match barrier with
        | none => (.noMatch, m.withIndex index)
        | some at' =>
          match (m.withIndex index).signalScanStep at' signalName none predicate first' with
          | ((some result, _), m) => (result, m)
          | ((none, first), m) =>
            HistoryMatcher.matchIndexedSignal signalName predicate fuel m (at' + 1) first := by
  obtain ⟨hfound, hsame, hindex⟩ := h.index.firstBarrier next
  have hbarrier := h.first_eq next ScanRole.isBarrier (le_refl m.events.length) hindexed
  intro barrier first'
  rw [← hfound] at hbarrier
  have hlimit : barrier.getD m.events.length ≤ m.events.length := by
    cases hb : barrier with
    | none => exact le_rfl
    | some at' => exact (firstRole_lt hb).le
  cases hfirst : first with
  | some command =>
    refine ⟨_, hindex, hsame, ?_⟩
    simp only [HistoryMatcher.matchIndexedSignal, hbarrier, first', hfirst]
    rfl
  | none =>
    have h' := h.withIndex hindex
    obtain ⟨hcommand, index, hkeep, hsound, hsame'⟩ :=
      h'.firstSignalInterleaved signalName hlimit
        (show barrier.getD m.events.length ≤ _ from (hlimit.trans hindexed).trans_eq hsame.symm)
        (show barrier.getD m.events.length - next < m.events.length + 1 by omega)
    have hpair : HistoryMatcher.firstSignalInterleaved signalName (barrier.getD m.events.length)
        (m.events.length + 1) (m.withIndex (m.activityScanIndex.firstBarrier next m.isConsumed).2)
        next = (firstRole m.events m.isConsumed (barrier.getD m.events.length) next
          (rewinds signalName), m.withIndex index) :=
      Prod.ext hcommand hkeep
    refine ⟨index, hsound, hsame'.trans hsame, ?_⟩
    simp only [HistoryMatcher.matchIndexedSignal, hbarrier, first', hfirst]
    erw [hpair]
    rfl

/-- **The index path is the search from barrier to barrier.** -/
theorem Indexed.matchIndexedSignal (h : Indexed roles m) (signalName : String)
    (predicate : Option SignalPredicate) (fuel next : Nat) (first : Option Nat)
    (hindexed : m.events.length ≤ m.activityScanIndex.indexed) :
    signalFrom signalName predicate fuel m.forgetIndex next first =
        ((HistoryMatcher.matchIndexedSignal signalName predicate fuel m next first).1,
          (HistoryMatcher.matchIndexedSignal signalName predicate fuel m next first).2.forgetIndex) ∧
      Indexed roles (HistoryMatcher.matchIndexedSignal signalName predicate fuel m next first).2 := by
  induction fuel generalizing m next first with
  | zero => exact ⟨rfl, h⟩
  | succ fuel ih =>
    obtain ⟨index, hsound, hsame, heq⟩ := h.matchIndexedSignal_succ fuel next first hindexed
    have h' := h.withIndex hsound
    rw [heq]
    have hforget : m.forgetIndex.events = m.events ∧ m.forgetIndex.isConsumed = m.isConsumed :=
      ⟨rfl, rfl⟩
    simp only [signalFrom, hforget.1, hforget.2]
    cases firstRole m.events m.isConsumed m.events.length next
        fun event => (activityScanRole event).isBarrier with
    | none => exact ⟨rfl, h'⟩
    | some at' =>
      simp only [Option.getD_some]
      generalize hfirst : (first <|> firstRole m.events m.isConsumed at' next
        (rewinds signalName)) = first'
      have hstep : m.forgetIndex.signalScanStep at' signalName none predicate first' =
          (((m.withIndex index).signalScanStep at' signalName none predicate first').1,
            ((m.withIndex index).signalScanStep at' signalName none predicate first').2.forgetIndex) := by
        show (m.withIndex index).forgetIndex.signalScanStep at' signalName none predicate first' = _
        exact signalScanStep_forgetIndex
      have hkeep := h'.signalScanStep at' signalName none predicate first'
      have hlen : ((m.withIndex index).signalScanStep at' signalName none predicate first').2.events.length ≤
          ((m.withIndex index).signalScanStep at' signalName none predicate
            first').2.activityScanIndex.indexed := by
        rw [signalScanStep_keeps.1, signalScanStep_keeps.2.1]
        exact hindexed.trans_eq hsame.symm
      rw [hstep]
      revert hkeep hlen
      rcases (m.withIndex index).signalScanStep at' signalName none predicate first' with
        ⟨⟨_ | result, first''⟩, m'⟩
      · intro hkeep hlen
        exact ih hkeep (at' + 1) first'' hlen
      · intro hkeep hlen
        exact ⟨rfl, hkeep⟩

/-- A position without a barrier and without a command changes nothing in the search. -/
theorem signalFrom_skip {fuel : Nat}
    (hbarrier : ¬ (! m.isConsumed at' ∧
      (m.events[at']?).any fun event => (activityScanRole event).isBarrier))
    (hcommand : first = none →
      ¬ (! m.isConsumed at' ∧ (m.events[at']?).any (rewinds signalName))) :
    signalFrom signalName predicate fuel m at' first =
      signalFrom signalName predicate fuel m (at' + 1) first := by
  cases fuel with
  | zero => rfl
  | succ fuel =>
    simp only [signalFrom]
    rw [firstRole_skip hbarrier]
    cases first with
    | none => rw [firstRole_skip (hcommand rfl)]
    | some command => rfl

/-- A command ends the search for the first one. -/
theorem signalFrom_command {fuel : Nat} (hnew : ! m.isConsumed at')
    (hevent : m.events[at']? = some event) (hrewinds : rewinds signalName event) :
    signalFrom signalName predicate fuel m at' none =
      signalFrom signalName predicate fuel m (at' + 1) (some at') := by
  have hlt : at' < m.events.length := (List.getElem?_eq_some_iff.mp hevent).1
  have hbarrier : ¬ (! m.isConsumed at' ∧
      (m.events[at']?).any fun event => (activityScanRole event).isBarrier) := by
    rintro ⟨-, hrole⟩
    rw [hevent] at hrole
    exact not_isBarrier_of_isCommand (isCommand_of_rewinds hrewinds) hrole
  cases fuel with
  | zero => rfl
  | succ fuel =>
    simp only [signalFrom]
    rw [firstRole_skip hbarrier]
    have hfirst (limit : Nat) (hlimit : at' < limit) :
        firstRole m.events m.isConsumed limit at' (rewinds signalName) = some at' :=
      firstRole_here hlimit hnew (by simpa [hevent] using hrewinds)
    cases hnext : firstRole m.events m.isConsumed m.events.length (at' + 1)
        fun event => (activityScanRole event).isBarrier with
    | none => rfl
    | some next =>
      have := (firstRole_eq_some.mp hnext).2.1
      simp only [Option.getD_some]
      rw [hfirst next (by omega)]
      rfl

/-- A barrier is what the search finds first. -/
theorem signalFrom_barrier {fuel : Nat} (hnew : ! m.isConsumed at')
    (hevent : m.events[at']? = some event) (hbarrier : (activityScanRole event).isBarrier) :
    signalFrom signalName predicate (fuel + 1) m at' first =
      match m.signalScanStep at' signalName none predicate first with
      | ((some result, _), m) => (result, m)
      | ((none, first), m) => signalFrom signalName predicate fuel m (at' + 1) first := by
  have hlt : at' < m.events.length := (List.getElem?_eq_some_iff.mp hevent).1
  have hfound : firstRole m.events m.isConsumed m.events.length at'
      (fun event => (activityScanRole event).isBarrier) = some at' :=
    firstRole_here hlt hnew (by simpa [hevent] using hbarrier)
  have hnone : firstRole m.events m.isConsumed at' at' (rewinds signalName) = none :=
    firstRole_eq_none.mpr fun i hi hb => by omega
  have hfirst : (first <|> none) = first := by cases first <;> rfl
  simp only [signalFrom, hfound, Option.getD_some, hnone, hfirst]

/-- **The search is the walk**, position by position. -/
theorem signalFrom_eq_walk (start n fuel : Nat) (m : HistoryMatcher) (at' : Nat)
    (first : Option Nat) (hn : at' + n = m.events.length) (hfuel : n < fuel) :
    signalFrom signalName predicate fuel m.forgetIndex at' first =
      ((signalLoop never signalName none predicate start n at' first m).1,
        (signalLoop never signalName none predicate start n at' first m).2.forgetIndex) := by
  induction n generalizing m at' first fuel with
  | zero =>
    obtain ⟨fuel, rfl⟩ := Nat.exists_eq_succ_of_ne_zero (by omega : fuel ≠ 0)
    have hnone : firstRole m.forgetIndex.events m.forgetIndex.isConsumed
        m.forgetIndex.events.length at' (fun event => (activityScanRole event).isBarrier) = none :=
      firstRole_eq_none.mpr fun i hi hb => by
        have : m.forgetIndex.events.length = m.events.length := rfl
        omega
    simp only [signalFrom, hnone]
    rfl
  | succ n ih =>
    have hlt : at' < m.events.length := by omega
    have hevent := List.getElem?_eq_getElem hlt
    simp only [signalLoop, never, Bool.and_false, Bool.false_eq_true, if_false]
    by_cases hconsumed : m.isConsumed at'
    · rw [if_pos hconsumed, ← ih fuel m (at' + 1) first (by omega) (by omega)]
      have hnot : ¬ (! m.forgetIndex.isConsumed at') := by
        show ¬ (! m.isConsumed at')
        simp [hconsumed]
      exact signalFrom_skip (fun h => hnot h.1) fun _ h => hnot h.1
    · rw [if_neg hconsumed]
      have hnew : ! m.forgetIndex.isConsumed at' := by
        show ! m.isConsumed at'
        simpa using hconsumed
      have hevent' : m.forgetIndex.events[at']? = some m.events[at'] := hevent
      by_cases hbarrier : (activityScanRole m.events[at']).isBarrier
      · obtain ⟨fuel, rfl⟩ := Nat.exists_eq_succ_of_ne_zero (by omega : fuel ≠ 0)
        rw [signalFrom_barrier hnew hevent' hbarrier, signalScanStep_forgetIndex]
        have hkeep : (m.signalScanStep at' signalName none predicate first).2.events = m.events :=
          signalScanStep_keeps.1
        revert hkeep
        rcases m.signalScanStep at' signalName none predicate first with ⟨⟨_ | result, first'⟩, m'⟩
        · intro hkeep
          have hlen : m'.events.length = m.events.length := congrArg List.length hkeep
          exact ih fuel m' (at' + 1) first' (by omega) (by omega)
        · intro hkeep
          rfl
      · have hnobarrier : ¬ (! m.forgetIndex.isConsumed at' ∧
            (m.forgetIndex.events[at']?).any fun event => (activityScanRole event).isBarrier) := by
          rw [hevent']
          exact fun h => hbarrier h.2
        by_cases hrewinds : rewinds signalName m.events[at']
        · rw [signalScanStep_command hevent hrewinds]
          dsimp only
          rw [← ih fuel m (at' + 1) (first <|> some at') (by omega) (by omega)]
          cases first with
          | none => exact signalFrom_command hnew hevent' hrewinds
          | some command => exact signalFrom_skip hnobarrier fun h => by cases h
        · rw [signalScanStep_pass hevent hrewinds hbarrier]
          dsimp only
          rw [← ih fuel m (at' + 1) first (by omega) (by omega)]
          refine signalFrom_skip hnobarrier fun _ h => hrewinds ?_
          rw [hevent'] at h
          exact h.2

/-- A signal scan that leaves its walk anywhere ends as the walk does. -/
theorem Indexed.signalLoop (h : Indexed roles m) {leaves : Nat → Bool → Bool}
    {tolerate : Option String} {start n : Nat} (hn : at' + n = m.events.length) :
    let indexed := HistoryMatcher.signalLoop leaves signalName tolerate predicate start n at' first m
    let walked := HistoryMatcher.signalLoop never signalName tolerate predicate start n at' first m
    (indexed.1 = walked.1 ∧ indexed.2.forgetIndex = walked.2.forgetIndex) ∧
      Indexed roles indexed.2 := by
  induction n generalizing m at' first with
  | zero => exact ⟨⟨rfl, rfl⟩, h.noteWalk _⟩
  | succ n ih =>
    intro indexed walked
    by_cases hleaves : tolerate.isNone && leaves (at' - start) first.isSome
    · -- The scan leaves here; the walk goes on, and so does the search.
      have hnone : tolerate = none := by simpa using (Bool.and_eq_true_iff.mp hleaves).1
      subst hnone
      have h' := (h.noteWalk (at' - start)).extend
      have hlen : m.events.length ≤ ((m.activityScanIndex.noteWalk (at' - start)).extend
          m.events).indexed := by
        exact le_max_right _ _
      obtain ⟨hpath, hkeep⟩ :=
        h'.matchIndexedSignal signalName predicate (m.events.length + 1) at' first hlen
      have hwalk : signalFrom signalName predicate (m.events.length + 1) m.forgetIndex at' first = _ :=
        signalFrom_eq_walk start (n + 1) (m.events.length + 1) m at' first hn (by omega)
      have heq : indexed = HistoryMatcher.matchIndexedSignal signalName predicate
          (m.events.length + 1) (m.withIndex ((m.activityScanIndex.noteWalk (at' - start)).extend
            m.events)) at' first := by
        simp only [indexed, HistoryMatcher.signalLoop, if_pos hleaves]
        rfl
      have hsame := hpath.symm.trans hwalk
      rw [heq]
      exact ⟨Prod.mk.inj hsame, hkeep⟩
    · simp only [indexed, walked, HistoryMatcher.signalLoop, if_neg hleaves, never, Bool.and_false,
        Bool.false_eq_true, if_false]
      split_ifs with hconsumed
      · exact ih h (by omega)
      · have hkeep := h.signalScanStep at' signalName tolerate predicate first
        have hevents : (m.signalScanStep at' signalName tolerate predicate first).2.events =
          m.events := signalScanStep_keeps.1
        revert hkeep hevents
        rcases m.signalScanStep at' signalName tolerate predicate first with
          ⟨⟨_ | result, first'⟩, m'⟩
        · intro hkeep hevents
          have hlen : m'.events.length = m.events.length := congrArg List.length hevents
          exact ih hkeep (by omega)
        · intro hkeep hevents
          exact ⟨⟨rfl, rfl⟩, hkeep.noteWalk _⟩

/-- **The indexed signal wait equals its walk**, wherever it leaves the walk. -/
theorem Indexed.matchSignalInnerWith (h : Indexed roles m) (leaves : Nat → Bool → Bool)
    (signalName : String) (tolerate : Option String) (predicate : Option SignalPredicate) :
    let indexed := m.matchSignalInnerWith leaves signalName tolerate predicate
    let walked := m.matchSignalInnerWith never signalName tolerate predicate
    (indexed.1 = walked.1 ∧ indexed.2.forgetIndex = walked.2.forgetIndex) ∧
      Indexed roles indexed.2 := by
  have hclaim : Indexed roles (m.claimBufferedSignal signalName predicate).2 := by
    unfold claimBufferedSignal
    dsimp only
    split <;> exact ⟨h.agree, h.index⟩
  simp only [HistoryMatcher.matchSignalInnerWith]
  revert hclaim
  rcases m.claimBufferedSignal signalName predicate with ⟨_ | output, m'⟩
  · intro hclaim
    have hadvance : Indexed roles m'.advanceToNextUnconsumedEvent := ⟨hclaim.agree, hclaim.index⟩
    dsimp only
    split_ifs with hreplaying
    · exact ⟨⟨rfl, rfl⟩, hadvance⟩
    · refine hadvance.signalLoop ?_
      have := cursor_lt_of_isReplaying _ (by simpa using hreplaying)
      omega
  · intro hclaim
    exact ⟨⟨rfl, rfl⟩, hclaim⟩

end Signal

/-! ## The scan for the end of an activity or a timer -/

/-- The terminal scan from barrier to barrier, by searches of the history. -/
def terminalFrom (stop : Option Nat) (limit : Nat) :
    Nat → HistoryMatcher → Nat → Option Nat → (Option Nat × Option Nat) × HistoryMatcher
  | 0, m, _, first => ((stop, first), m)
  | fuel + 1, m, next, first =>
    let barrier := firstRole m.events m.isConsumed limit next
      fun event => (activityScanRole event).isBarrier
    let first := first <|> firstRole m.events m.isConsumed (barrier.getD limit) next
      fun event => (activityScanRole event).isCommand
    match barrier with
    | some at' =>
      if (m.events[at']?).any isTransparentExternalEvent then
        terminalFrom stop limit fuel (m.stashTransparentExternalEvent at') (at' + 1) first
      else ((none, first), m)
    | none => ((stop, first), m)

section Terminal

variable {roles : List ScanRole} {m : HistoryMatcher} {at' limit : Nat} {event : WorkflowEvent}
  {stop first : Option Nat}

theorem indexedLoop_events (stop : Option Nat) (limit fuel : Nat) (m : HistoryMatcher) (next : Nat)
    (first : Option Nat) :
    (HistoryMatcher.indexedLoop stop limit fuel m next first).2.events = m.events := by
  induction fuel generalizing m next first with
  | zero => rfl
  | succ fuel ih =>
    simp only [HistoryMatcher.indexedLoop]
    split
    · split_ifs
      · rw [ih, stash_events]
        split <;> rfl
      · split <;> rfl
    · split <;> rfl

/-- The queries of one turn: the next barrier and the first command before it. -/
theorem Indexed.indexedLoop_succ (h : Indexed roles m) (stop : Option Nat) (fuel next : Nat)
    (first : Option Nat) (hlimit : limit ≤ m.events.length)
    (hindexed : limit ≤ m.activityScanIndex.indexed) :
    let barrier := firstRole m.events m.isConsumed limit next
      fun event => (activityScanRole event).isBarrier
    let first' := first <|> firstRole m.events m.isConsumed (barrier.getD limit) next
      fun event => (activityScanRole event).isCommand
    ∃ index, Indexes roles m.isConsumed index ∧ index.indexed = m.activityScanIndex.indexed ∧
      HistoryMatcher.indexedLoop stop limit (fuel + 1) m next first =
        match barrier with
        | some at' =>
          if (m.events[at']?).any isTransparentExternalEvent then
            HistoryMatcher.indexedLoop stop limit fuel
              ((m.withIndex index).stashTransparentExternalEvent at') (at' + 1) first'
          else ((none, first'), m.withIndex index)
        | none => ((stop, first'), m.withIndex index) := by
  obtain ⟨hfound, hsame, hindex⟩ := h.index.firstBarrier next
  have hbarrier := h.first_eq next ScanRole.isBarrier hlimit hindexed
  intro barrier first'
  rw [← hfound] at hbarrier
  have hle : barrier.getD limit ≤ limit := by
    cases hb : barrier with
    | none => exact le_rfl
    | some at' => exact (firstRole_lt hb).le
  cases hfirst : first with
  | some command =>
    refine ⟨_, hindex, hsame, ?_⟩
    simp only [HistoryMatcher.indexedLoop, hbarrier, first', hfirst]
    rfl
  | none =>
    obtain ⟨hfound', hsame', hindex'⟩ := hindex.firstInterleaved next
    have hcommand := h.first_eq next ScanRole.isCommand (hle.trans hlimit)
      ((hle.trans hindexed).trans_eq hsame.symm)
    rw [← hfound'] at hcommand
    refine ⟨_, hindex', hsame'.trans hsame, ?_⟩
    simp only [HistoryMatcher.indexedLoop, hbarrier, first', hfirst]
    erw [hcommand]
    rfl

/-- **The index path is the search from barrier to barrier.** -/
theorem Indexed.indexedLoop (h : Indexed roles m) (stop : Option Nat) (fuel next : Nat)
    (first : Option Nat) (hlimit : limit ≤ m.events.length)
    (hindexed : limit ≤ m.activityScanIndex.indexed) :
    terminalFrom stop limit fuel m.forgetIndex next first =
        ((HistoryMatcher.indexedLoop stop limit fuel m next first).1,
          (HistoryMatcher.indexedLoop stop limit fuel m next first).2.forgetIndex) ∧
      Indexed roles (HistoryMatcher.indexedLoop stop limit fuel m next first).2 := by
  induction fuel generalizing m next first with
  | zero => exact ⟨rfl, h⟩
  | succ fuel ih =>
    obtain ⟨index, hsound, hsame, heq⟩ := h.indexedLoop_succ stop fuel next first hlimit hindexed
    have h' := h.withIndex hsound
    rw [heq]
    have hforget : m.forgetIndex.events = m.events ∧ m.forgetIndex.isConsumed = m.isConsumed :=
      ⟨rfl, rfl⟩
    simp only [terminalFrom, hforget.1, hforget.2]
    cases firstRole m.events m.isConsumed limit next
        fun event => (activityScanRole event).isBarrier with
    | none => exact ⟨rfl, h'⟩
    | some at' =>
      dsimp only
      split_ifs with htransparent
      · have hstash : m.forgetIndex.stashTransparentExternalEvent at' =
            ((m.withIndex index).stashTransparentExternalEvent at').forgetIndex := by
          show (m.withIndex index).forgetIndex.stashTransparentExternalEvent at' = _
          exact stash_forgetIndex _ at'
        rw [hstash]
        refine ih (h'.stash at') (at' + 1) _ ?_ ?_
        · rw [stash_events]
          exact hlimit
        · rw [stash_index]
          exact hindexed.trans_eq hsame.symm
      · exact ⟨rfl, h'⟩

theorem isTransparentExternal_of_role (h : activityScanRole event = .externalTerminal) :
    isTransparentExternalEvent event := by
  cases event <;> simp [activityScanRole, isUpdateEvent] at h <;> rfl

/-- A position without a barrier and without a command changes nothing in the search. -/
theorem terminalFrom_skip {fuel : Nat}
    (hbarrier : ¬ (! m.isConsumed at' ∧
      (m.events[at']?).any fun event => (activityScanRole event).isBarrier))
    (hcommand : first = none → ¬ (! m.isConsumed at' ∧
      (m.events[at']?).any fun event => (activityScanRole event).isCommand)) :
    terminalFrom stop limit fuel m at' first = terminalFrom stop limit fuel m (at' + 1) first := by
  cases fuel with
  | zero => rfl
  | succ fuel =>
    simp only [terminalFrom]
    rw [firstRole_skip hbarrier]
    cases first with
    | none => rw [firstRole_skip (hcommand rfl)]
    | some command => rfl

/-- A command ends the search for the first one. -/
theorem terminalFrom_command {fuel : Nat} (hlt : at' < limit) (hnew : ! m.isConsumed at')
    (hevent : m.events[at']? = some event) (hcommand : (activityScanRole event).isCommand) :
    terminalFrom stop limit (fuel + 1) m at' none =
      terminalFrom stop limit (fuel + 1) m (at' + 1) (some at') := by
  have hbarrier : ¬ (! m.isConsumed at' ∧
      (m.events[at']?).any fun event => (activityScanRole event).isBarrier) := by
    rintro ⟨-, hrole⟩
    rw [hevent] at hrole
    exact not_isBarrier_of_isCommand hcommand hrole
  have hfirst (bound : Nat) (hbound : at' < bound) :
      firstRole m.events m.isConsumed bound at'
        (fun event => (activityScanRole event).isCommand) = some at' :=
    firstRole_here hbound hnew (by simpa [hevent] using hcommand)
  simp only [terminalFrom]
  rw [firstRole_skip hbarrier]
  cases hnext : firstRole m.events m.isConsumed limit (at' + 1)
      fun event => (activityScanRole event).isBarrier with
  | none =>
    simp only [Option.getD_none]
    rw [hfirst limit hlt]
    rfl
  | some next =>
    have := (firstRole_eq_some.mp hnext).2.1
    simp only [Option.getD_some]
    rw [hfirst next (by omega)]
    rfl

/-- A barrier is what the search finds first. -/
theorem terminalFrom_barrier {fuel : Nat} (hlt : at' < limit) (hnew : ! m.isConsumed at')
    (hevent : m.events[at']? = some event) (hbarrier : (activityScanRole event).isBarrier) :
    terminalFrom stop limit (fuel + 1) m at' first =
      if isTransparentExternalEvent event then
        terminalFrom stop limit fuel (m.stashTransparentExternalEvent at') (at' + 1) first
      else ((none, first), m) := by
  have hfound : firstRole m.events m.isConsumed limit at'
      (fun event => (activityScanRole event).isBarrier) = some at' :=
    firstRole_here hlt hnew (by simpa [hevent] using hbarrier)
  have hnone : firstRole m.events m.isConsumed at' at'
      (fun event => (activityScanRole event).isCommand) = none :=
    firstRole_eq_none.mpr fun i hi hb => by omega
  have hfirst : (first <|> none) = first := by cases first <;> rfl
  simp only [terminalFrom, hfound, Option.getD_some, hnone, hfirst, hevent, Option.any_some]

/-- At its stop the search ends. -/
theorem terminalFrom_stop {fuel : Nat} :
    terminalFrom (some at') at' fuel m at' first = ((some at', first), m) := by
  have hnone (p : WorkflowEvent → Bool) : firstRole m.events m.isConsumed at' at' p = none :=
    firstRole_eq_none.mpr fun i hi hb => by omega
  have hfirst : (first <|> none) = first := by cases first <;> rfl
  cases fuel with
  | zero => rfl
  | succ fuel => simp only [terminalFrom, hnone, Option.getD_none, hfirst]

/-- The result of a walk to the end. -/
def HistoryMatcher.WalkEnd.result (walked : WalkEnd) : (Option Nat × Option Nat) × HistoryMatcher :=
  ((walked.ended.getD none, walked.firstInterleaved), walked.matcher)

/-- **The search is the walk**, position by position. -/
theorem terminalFrom_eq_walk (target : ScanTarget) (start n fuel : Nat) (m : HistoryMatcher)
    (at' : Nat) (first : Option Nat) (hn : n = m.events.length - at') (hfuel : n < fuel) :
    let stop := firstRole m.events m.isConsumed m.events.length at'
      fun event => target.stopsAt (activityScanRole event)
    terminalFrom stop (stop.getD m.events.length) fuel m.forgetIndex at' first =
      ((walkLoop never target start n at' first m).result.1,
        (walkLoop never target start n at' first m).result.2.forgetIndex) := by
  induction n generalizing m at' first fuel with
  | zero =>
    intro stop
    have hat : m.events.length ≤ at' := by omega
    have hnone (p : WorkflowEvent → Bool) :
        firstRole m.events m.isConsumed m.events.length at' p = none :=
      firstRole_eq_none.mpr fun i hi hb => by omega
    have hstop : stop = none := hnone _
    obtain ⟨fuel, rfl⟩ := Nat.exists_eq_succ_of_ne_zero (by omega : fuel ≠ 0)
    have hfirst : (first <|> none) = first := by cases first <;> rfl
    have hforget : m.forgetIndex.events = m.events ∧ m.forgetIndex.isConsumed = m.isConsumed :=
      ⟨rfl, rfl⟩
    simp only [hstop, Option.getD_none, terminalFrom, hforget.1, hforget.2, hnone, hfirst]
    rfl
  | succ n ih =>
    intro stop
    have hlt : at' < m.events.length := by omega
    have hevent := List.getElem?_eq_getElem hlt
    have hevent' : m.forgetIndex.events[at']? = some m.events[at'] := hevent
    obtain ⟨fuel, rfl⟩ := Nat.exists_eq_succ_of_ne_zero (by omega : fuel ≠ 0)
    simp only [walkLoop, never, Bool.false_eq_true, if_false]
    by_cases hconsumed : m.isConsumed at'
    · -- Nothing happens at a consumed position.
      have hnot : ¬ (! m.isConsumed at') := by simp [hconsumed]
      have hstop : stop = firstRole m.events m.isConsumed m.events.length (at' + 1) _ :=
        firstRole_skip fun h => hnot h.1
      rw [if_pos hconsumed, ← ih (fuel + 1) m (at' + 1) first (by omega) (by omega), ← hstop]
      exact terminalFrom_skip (fun h => hnot h.1) fun _ h => hnot h.1
    · rw [if_neg hconsumed]
      have hnew : ! m.isConsumed at' := by simpa using hconsumed
      have hnew' : ! m.forgetIndex.isConsumed at' := hnew
      simp only [hevent]
      by_cases hstops : target.stopsAt (activityScanRole m.events[at'])
      · have hstop : stop = some at' :=
          firstRole_here hlt hnew (by simpa [hevent] using hstops)
        rw [if_pos hstops, hstop, Option.getD_some]
        exact terminalFrom_stop
      · rw [if_neg hstops]
        have hstop : stop = firstRole m.events m.isConsumed m.events.length (at' + 1)
            fun event => target.stopsAt (activityScanRole event) := by
          refine firstRole_skip fun h => hstops ?_
          simpa [hevent] using h.2
        have hlimit : at' < stop.getD m.events.length := by
          cases hs : stop with
          | none => exact hlt
          | some terminal =>
            have := (firstRole_eq_some.mp (hstop.symm.trans hs)).2.1
            simp only [Option.getD_some]
            omega
        have hpass (hbarrier : ¬ (activityScanRole m.events[at']).isBarrier)
            (hcommand : first = none → ¬ (activityScanRole m.events[at']).isCommand) :
            terminalFrom stop (stop.getD m.events.length) (fuel + 1) m.forgetIndex at' first =
              ((walkLoop never target start n (at' + 1) first m).result.1,
                (walkLoop never target start n (at' + 1) first m).result.2.forgetIndex) := by
          rw [← ih (fuel + 1) m (at' + 1) first (by omega) (by omega), ← hstop]
          refine terminalFrom_skip (fun h => hbarrier ?_) fun hnone h => hcommand hnone ?_
          · simpa [hevent'] using h.2
          · simpa [hevent'] using h.2
        have hstash (hbarrier : (activityScanRole m.events[at']).isBarrier)
            (htransparent : isTransparentExternalEvent m.events[at']) :
            terminalFrom stop (stop.getD m.events.length) (fuel + 1) m.forgetIndex at' first =
              ((walkLoop never target start n (at' + 1) first
                  (m.stashTransparentExternalEvent at')).result.1,
                (walkLoop never target start n (at' + 1) first
                  (m.stashTransparentExternalEvent at')).result.2.forgetIndex) := by
          have hany : (m.events[at']?).any isTransparentExternalEvent := by
            simpa [hevent] using htransparent
          have hstop' : stop = firstRole m.events
              (m.stashTransparentExternalEvent at').isConsumed m.events.length (at' + 1)
              fun event => target.stopsAt (activityScanRole event) := by
            rw [hstop]
            refine firstRole_congr fun j hj => ?_
            have hne : j ≠ at' := by omega
            simp [stash_isConsumed m at' hany, hne]
          have hrest := ih fuel (m.stashTransparentExternalEvent at') (at' + 1) first
            (by rw [stash_events]; omega) (by omega)
          simp only [stash_events] at hrest
          rw [← hstop', ← stash_forgetIndex] at hrest
          rw [terminalFrom_barrier hlimit hnew' hevent' hbarrier, if_pos htransparent]
          exact hrest
        have hcommands (hcommand : (activityScanRole m.events[at']).isCommand) :
            terminalFrom stop (stop.getD m.events.length) (fuel + 1) m.forgetIndex at' first =
              ((walkLoop never target start n (at' + 1) (first <|> some at') m).result.1,
                (walkLoop never target start n (at' + 1) (first <|> some at') m).result.2.forgetIndex) := by
          cases first with
          | none =>
            have hrest := ih (fuel + 1) m (at' + 1) (some at') (by omega) (by omega)
            rw [← hstop] at hrest
            rw [terminalFrom_command hlimit hnew' hevent' hcommand]
            exact hrest
          | some command => exact hpass (not_isBarrier_of_isCommand hcommand) (by simp)
        cases hrole : activityScanRole m.events[at'] with
        | externalTerminal =>
          exact hstash (by rw [hrole]; rfl) (isTransparentExternal_of_role hrole)
        | barrier =>
          dsimp only
          split_ifs with htransparent
          · exact hstash (by rw [hrole]; rfl) htransparent
          · rw [terminalFrom_barrier hlimit hnew' hevent' (by rw [hrole]; rfl), if_neg htransparent]
            rfl
        | scheduled id => exact hcommands (by rw [hrole]; rfl)
        | interleaved => exact hcommands (by rw [hrole]; rfl)
        | _ =>
          exact hpass (by rw [hrole]; exact Bool.false_ne_true)
            fun _ => by rw [hrole]; exact Bool.false_ne_true

/-- Where a walk leaves, the walk that does not leave goes on. -/
theorem Indexed.walkLoop (h : Indexed roles m) (leaves : Nat → Bool → Bool) (target : ScanTarget)
    (start n at' : Nat) (first : Option Nat) (hn : n = m.events.length - at') :
    let walked := HistoryMatcher.walkLoop leaves target start n at' first m
    let full := HistoryMatcher.walkLoop never target start n at' first m
    Indexed roles walked.matcher ∧ walked.matcher.events = m.events ∧
      (walked.ended.isSome → walked.result = full.result) ∧
      (walked.ended = none → ∃ k, k = m.events.length - walked.at' ∧
        full.result = (HistoryMatcher.walkLoop never target start k walked.at'
          walked.firstInterleaved walked.matcher).result) := by
  induction n generalizing m at' first with
  | zero => exact ⟨h, rfl, fun _ => rfl, fun _ => ⟨0, hn, rfl⟩⟩
  | succ n ih =>
    have hlt : at' < m.events.length := by omega
    have hevent := List.getElem?_eq_getElem hlt
    intro walked full
    by_cases hleaves : leaves (at' - start) first.isSome
    · have hwalked : walked = ⟨none, at', first, m⟩ := by
        simp only [walked, HistoryMatcher.walkLoop, if_pos hleaves]
      rw [hwalked]
      exact ⟨h, rfl, by simp, fun _ => ⟨n + 1, hn, rfl⟩⟩
    · simp only [walked, full, HistoryMatcher.walkLoop, if_neg hleaves, never, Bool.false_eq_true,
        if_false, hevent]
      have hstash := ih (h.stash at') (at' + 1) first (by rw [stash_events]; omega)
      rw [stash_events] at hstash
      by_cases hconsumed : m.isConsumed at'
      · simp only [if_pos hconsumed]
        exact ih h (at' + 1) first (by omega)
      · simp only [if_neg hconsumed]
        by_cases hstops : target.stopsAt (activityScanRole m.events[at'])
        · simp only [if_pos hstops]
          exact ⟨h, trivial, fun _ => trivial, by simp⟩
        · simp only [if_neg hstops]
          cases activityScanRole m.events[at'] with
          | externalTerminal => exact hstash
          | barrier =>
            dsimp only
            split_ifs
            · exact hstash
            · exact ⟨h, rfl, fun _ => rfl, by simp⟩
          | scheduled id => exact ih h (at' + 1) (first <|> some at') (by omega)
          | interleaved => exact ih h (at' + 1) (first <|> some at') (by omega)
          | _ => exact ih h (at' + 1) first (by omega)

/-- A walk stops at a visible event. -/
theorem walkLoop_stop_lt (target : ScanTarget) (start n at' : Nat) (first : Option Nat)
    (m : HistoryMatcher) (hn : at' + n ≤ m.events.length) {terminal : Nat}
    (hstop : (HistoryMatcher.walkLoop never target start n at' first m).result.1.1 = some terminal) :
    terminal < m.events.length := by
  induction n generalizing m at' first with
  | zero => exact absurd hstop (by simp [HistoryMatcher.walkLoop, HistoryMatcher.WalkEnd.result])
  | succ n ih =>
    have hlt : at' < m.events.length := by omega
    have hstash (hrest : (HistoryMatcher.walkLoop never target start n (at' + 1) first
        (m.stashTransparentExternalEvent at')).result.1.1 = some terminal) :
        terminal < m.events.length := by
      have h := ih (at' + 1) first _ (by rw [stash_events]; omega) hrest
      rwa [stash_events] at h
    simp only [HistoryMatcher.walkLoop, never, Bool.false_eq_true, if_false,
      List.getElem?_eq_getElem hlt] at hstop
    by_cases hconsumed : m.isConsumed at'
    · rw [if_pos hconsumed] at hstop
      exact ih (at' + 1) first m (by omega) hstop
    · rw [if_neg hconsumed] at hstop
      by_cases hstops : target.stopsAt (activityScanRole m.events[at'])
      · rw [if_pos hstops] at hstop
        obtain rfl : at' = terminal := by
          simpa [HistoryMatcher.WalkEnd.result] using hstop
        exact hlt
      · rw [if_neg hstops] at hstop
        cases hrole : activityScanRole m.events[at'] with
        | externalTerminal =>
          rw [hrole] at hstop
          exact hstash hstop
        | barrier =>
          rw [hrole] at hstop
          dsimp only at hstop
          split_ifs at hstop with htransparent
          · exact hstash hstop
          · exact absurd hstop (by simp [HistoryMatcher.WalkEnd.result])
        | scheduled id =>
          rw [hrole] at hstop
          exact ih (at' + 1) (first <|> some at') m (by omega) hstop
        | interleaved =>
          rw [hrole] at hstop
          exact ih (at' + 1) (first <|> some at') m (by omega) hstop
        | _ =>
          rw [hrole] at hstop
          exact ih (at' + 1) first m (by omega) hstop

/-- The scan on the index, as a walk. -/
theorem Indexed.findIndexedTerminal {index : ActivityScanIndex}
    (h : Indexed roles (m.withIndex index)) (target : ScanTarget) (start at' : Nat)
    (first : Option Nat) (k : Nat) (hk : k = m.events.length - at')
    (hindexed : m.events.length ≤ index.indexed) :
    ((m.withIndex index).findIndexedTerminal target at' first).1 =
        (HistoryMatcher.walkLoop never target start k at' first m).result.1 ∧
      ((m.withIndex index).findIndexedTerminal target at' first).2.forgetIndex =
        (HistoryMatcher.walkLoop never target start k at' first m).result.2.forgetIndex ∧
      Indexed roles ((m.withIndex index).findIndexedTerminal target at' first).2 ∧
      ((m.withIndex index).findIndexedTerminal target at' first).2.events = m.events := by
  obtain ⟨hfound, hsame, hindex⟩ := h.index.firstStop target at'
  have hstop := h.first_eq at' target.stopsAt (le_refl m.events.length) hindexed
  have hstop' : ((index.firstStop target at' m.isConsumed).1).filter (· < m.events.length) =
      firstRole m.events m.isConsumed m.events.length at'
        fun event => target.stopsAt (activityScanRole event) :=
    (congrArg (Option.filter (· < m.events.length)) hfound).trans hstop
  have hwalk := terminalFrom_eq_walk target start k (m.events.length + 1) m at' first hk (by omega)
  have hlimit : (firstRole m.events m.isConsumed m.events.length at'
      fun event => target.stopsAt (activityScanRole event)).getD m.events.length ≤
        m.events.length := by
    cases hs : firstRole m.events m.isConsumed m.events.length at'
        fun event => target.stopsAt (activityScanRole event) with
    | none => exact le_rfl
    | some terminal => exact (firstRole_lt hs).le
  dsimp only at hwalk
  generalize firstRole m.events m.isConsumed m.events.length at'
    (fun event => target.stopsAt (activityScanRole event)) = stop at hstop' hwalk hlimit
  obtain ⟨hpath, hkeep⟩ := (h.withIndex hindex).indexedLoop stop (m.events.length + 1) at' first
    hlimit ((hlimit.trans hindexed).trans_eq hsame.symm)
  have heq := hpath.symm.trans hwalk
  have hunfold : (m.withIndex index).findIndexedTerminal target at' first =
      HistoryMatcher.indexedLoop stop (stop.getD m.events.length) (m.events.length + 1)
        ((m.withIndex index).withIndex (index.firstStop target at' m.isConsumed).2) at' first := by
    rw [← hstop']
    rfl
  rw [hunfold]
  exact ⟨(Prod.mk.inj heq).1, (Prod.mk.inj heq).2, hkeep, indexedLoop_events _ _ _ _ _ _⟩

/-- **The indexed scan refines the walk**, wherever it leaves the walk. -/
theorem Indexed.findScanStopWith (h : Indexed roles m) (leaves : Nat → Bool → Bool)
    (target : ScanTarget) (start : Nat) :
    (HistoryMatcher.findScanStopWith leaves m target start).1 =
        (HistoryMatcher.walkLoop never target start (m.events.length - start) start none m).result.1 ∧
      (HistoryMatcher.findScanStopWith leaves m target start).2.forgetIndex =
        (HistoryMatcher.walkLoop never target start (m.events.length - start) start none
          m).result.2.forgetIndex ∧
      Indexed roles (HistoryMatcher.findScanStopWith leaves m target start).2 ∧
      (HistoryMatcher.findScanStopWith leaves m target start).2.events = m.events := by
  obtain ⟨hkeep, hevents, hended, hleft⟩ :=
    h.walkLoop leaves target start (m.events.length - start) start none rfl
  unfold HistoryMatcher.findScanStopWith
  dsimp only
  generalize HistoryMatcher.walkLoop leaves target start (m.events.length - start) start none m =
    walked at hkeep hevents hended hleft
  cases hw : walked.ended with
  | some stop =>
    have hresult := hended (by simp [hw])
    rw [← hresult]
    refine ⟨?_, rfl, hkeep.noteWalk _, hevents⟩
    simp [HistoryMatcher.WalkEnd.result, hw]
  | none =>
    obtain ⟨k, hk, hrest⟩ := hleft hw
    rw [hrest]
    split_ifs with hlen
    · obtain rfl : k = 0 := by omega
      exact ⟨rfl, rfl, hkeep.noteWalk _, hevents⟩
    · have h' : Indexed roles (walked.matcher.withIndex
          ((walked.matcher.activityScanIndex.noteWalk (walked.at' - start)).extend
            walked.matcher.events)) :=
        (hkeep.noteWalk (walked.at' - start)).extend
      obtain ⟨hresult, hforget, hindexed, hsame⟩ := h'.findIndexedTerminal target start walked.at'
        walked.firstInterleaved k (by rw [hevents]; exact hk) (le_max_right _ _)
      exact ⟨hresult, hforget, hindexed, hsame.trans hevents⟩

/-! ## Settling -/

/-- The progress events of a range, by the index or by a walk. -/
theorem Indexed.consumeProgress (h : Indexed roles m) (activityId : ActivityExecId)
    {command terminal : Nat} (hterminal : terminal ≤ m.events.length) :
    (m.consumeProgress activityId command terminal).forgetIndex =
        (m.forgetIndex.consumeProgress activityId command terminal).forgetIndex ∧
      Indexed roles (m.consumeProgress activityId command terminal) := by
  have hrole : ∀ i < terminal, (roles[i]?).any (·.isProgressOf activityId) =
      (m.events[i]?).any fun event => activityScanRole event = .progress activityId := by
    intro i hi
    rw [h.role_at (by omega), Option.any_map]
    congr 1
    funext event
    cases activityScanRole event <;> simp [ScanRole.isProgressOf]
  have hgrow (index : ActivityScanIndex) (more : Finset Nat)
      (hindex : Indexes roles m.isConsumed index) :
      Indexed roles { m with
        activityScanIndex := index
        consumedOutOfOrderEvents := m.consumedOutOfOrderEvents ∪ more } := by
    refine (h.withIndex hindex).grow rfl rfl fun j hj => ?_
    rw [isConsumed_iff] at hj ⊢
    rcases hj with hj | hj
    · exact Or.inl (Finset.mem_union_left _ hj)
    · exact Or.inr hj
  have hwalk : m.forgetIndex.consumeProgress activityId command terminal = { m.forgetIndex with
      activityScanIndex := ActivityScanIndex.empty.noteWalk (terminal - command)
      consumedOutOfOrderEvents := m.consumedOutOfOrderEvents ∪
        (Finset.Ico command terminal).filter fun i =>
          (m.events[i]?).any fun event => activityScanRole event = .progress activityId } := by
    have hunbuilt : (! m.forgetIndex.activityScanIndex.isBuilt) = true := rfl
    unfold HistoryMatcher.consumeProgress
    rw [if_pos (Or.inr hunbuilt)]
    rfl
  rw [hwalk]
  unfold HistoryMatcher.consumeProgress
  split_ifs with hshort
  · exact ⟨rfl, hgrow _ _ (h.index.noteWalk _)⟩
  · have hextend := h.index.extend h.agree
    refine ⟨?_, hgrow _ _ hextend⟩
    have hset : ((m.activityScanIndex.extend m.events).progressIn activityId command
        terminal).toFinset = (Finset.Ico command terminal).filter fun i =>
          (m.events[i]?).any fun event => activityScanRole event = .progress activityId := by
      ext i
      rw [List.mem_toFinset, hextend.mem_progressIn (hterminal.trans (le_max_right _ _)),
        Finset.mem_filter, Finset.mem_Ico]
      constructor
      · rintro ⟨hle, hlt, hprogress⟩
        exact ⟨⟨hle, hlt⟩, by rwa [← hrole i hlt]⟩
      · rintro ⟨⟨hle, hlt⟩, hprogress⟩
        exact ⟨hle, hlt, by rwa [hrole i hlt]⟩
    simp only [hset]
    rfl

/-- **Settling** leaves the same matcher, by the index or by a walk. -/
theorem Indexed.settleTerminal (h : Indexed roles m) {terminal : Nat} (first : Option Nat)
    (hterminal : terminal ≤ m.events.length) :
    (m.settleTerminal terminal first).forgetIndex =
        (m.forgetIndex.settleTerminal terminal first).forgetIndex ∧
      Indexed roles (m.settleTerminal terminal first) := by
  unfold HistoryMatcher.settleTerminal
  cases first with
  | none => exact ⟨rfl, h.agree, h.index⟩
  | some command =>
    have hinsert : Indexed roles { m with
        consumedOutOfOrderEvents := insert terminal m.consumedOutOfOrderEvents } := by
      refine h.grow rfl rfl fun j hj => ?_
      rw [isConsumed_iff] at hj ⊢
      rcases hj with hj | hj
      · exact Or.inl (Finset.mem_insert_of_mem hj)
      · exact Or.inr hj
    have hforget : m.forgetIndex.events = m.events := rfl
    simp only [hforget]
    cases (m.events[terminal]?).bind settledActivity with
    | none => exact ⟨rfl, hinsert.agree, hinsert.index⟩
    | some activityId =>
      obtain ⟨heq, hkeep⟩ := hinsert.consumeProgress activityId hterminal
      refine ⟨?_, hkeep.agree, hkeep.index⟩
      exact congrArg (fun m : HistoryMatcher =>
        { m with cursor := command }.advanceToNextUnconsumedEvent) heq

end Terminal

/-! ## What the index went through -/

/-- The states that an index of a history can reach: builds and extensions over what is visible,
queries that shorten its links, and consumptions in between. A cut of the view hides a tail of
the history; what is visible has the roles of the rest. -/
inductive IndexRun (history : List WorkflowEvent) : (Nat → Bool) → ActivityScanIndex → Prop
  | empty (consumed : Nat → Bool) : IndexRun history consumed .empty
  | consume {consumed consumed' : Nat → Bool} {index : ActivityScanIndex}
      (run : IndexRun history consumed index) (grows : ∀ i, consumed i → consumed' i) :
      IndexRun history consumed' index
  | extend {consumed : Nat → Bool} {index : ActivityScanIndex} {visible : List WorkflowEvent}
      (run : IndexRun history consumed index)
      (seen : visible.map activityScanRole =
        (history.map activityScanRole).take visible.length) :
      IndexRun history consumed (index.extend visible)
  | noteWalk {consumed : Nat → Bool} {index : ActivityScanIndex}
      (run : IndexRun history consumed index) (walked : Nat) :
      IndexRun history consumed (index.noteWalk walked)
  | firstStop {consumed : Nat → Bool} {index : ActivityScanIndex}
      (run : IndexRun history consumed index) (target : ScanTarget) (bound : Nat) :
      IndexRun history consumed (index.firstStop target bound consumed).2
  | firstBarrier {consumed : Nat → Bool} {index : ActivityScanIndex}
      (run : IndexRun history consumed index) (bound : Nat) :
      IndexRun history consumed (index.firstBarrier bound consumed).2
  | firstInterleaved {consumed : Nat → Bool} {index : ActivityScanIndex}
      (run : IndexRun history consumed index) (bound : Nat) :
      IndexRun history consumed (index.firstInterleaved bound consumed).2

theorem IndexRun.indexes {history : List WorkflowEvent} {consumed : Nat → Bool}
    {index : ActivityScanIndex} (h : IndexRun history consumed index) :
    Indexes (history.map activityScanRole) consumed index := by
  induction h with
  | empty consumed => exact indexes_empty _ consumed
  | consume _ grows ih => exact ih.mono grows
  | extend _ seen ih => exact ih.extend seen
  | noteWalk _ walked ih => exact ih.noteWalk walked
  | firstStop _ target bound ih => exact (ih.firstStop target bound).2.2
  | firstBarrier _ bound ih => exact (ih.firstBarrier bound).2.2
  | firstInterleaved _ bound ih => exact (ih.firstInterleaved bound).2.2

/-- The matcher sees a part of the history, with an index that ran over it. -/
structure Views (history : List WorkflowEvent) (m : HistoryMatcher) : Prop where
  seen : m.events.map activityScanRole = (history.map activityScanRole).take m.events.length
  run : IndexRun history m.isConsumed m.activityScanIndex

theorem Views.indexed {history : List WorkflowEvent} {m : HistoryMatcher} (h : Views history m) :
    Indexed (history.map activityScanRole) m :=
  ⟨h.seen, h.run.indexes⟩

/-- A matcher without an index sees its own events. -/
theorem Views.of_empty {m : HistoryMatcher} (h : m.activityScanIndex = .empty) :
    Views m.events m :=
  ⟨by simp, h ▸ .empty _⟩

/-- **The indexed scan refines the plain walk.** -/
theorem indexed_scan_refines_the_walk (history : List WorkflowEvent) (m : HistoryMatcher)
    (hviews : Views history m) (leaves : Nat → Bool → Bool) (target : ScanTarget) (start : Nat) :
    let indexed := m.findScanStopWith leaves target start
    let walked := (walkLoop never target start (m.events.length - start) start none m).result
    indexed.1 = walked.1 ∧ indexed.2.forgetIndex = walked.2.forgetIndex ∧
      ∀ terminal, indexed.1.1 = some terminal →
        (indexed.2.settleTerminal terminal indexed.1.2).forgetIndex =
          (walked.2.forgetIndex.settleTerminal terminal walked.1.2).forgetIndex := by
  obtain ⟨hresult, hforget, hkeep, hevents⟩ :=
    hviews.indexed.findScanStopWith leaves target start
  refine ⟨hresult, hforget, fun terminal hterminal => ?_⟩
  have hlt : terminal < m.events.length := by
    rw [hresult] at hterminal
    by_cases hstart : start ≤ m.events.length
    · exact walkLoop_stop_lt target start _ start none m (by omega) hterminal
    · rw [Nat.sub_eq_zero_of_le (Nat.le_of_not_le hstart)] at hterminal
      exact absurd hterminal (by simp [walkLoop, WalkEnd.result])
  rw [← hforget, ← hresult]
  exact (hkeep.settleTerminal _ (hevents ▸ hlt.le)).1

/-- Two timers around a deadline for the signal `s`. -/
def deadlineHistory : List WorkflowEvent :=
  [.timerStarted ⟨"a"⟩ 5, .timerStarted ⟨"__signal_timeout:0:s"⟩ 60, .timerStarted ⟨"b"⟩ 9,
    .signalReceived "t" .null, .signalReceived "s" (.bool true), .timerFired ⟨"a"⟩]

theorem indexed_scan_refines_the_walk_two_timers :
    let m := new deadlineHistory
    let indexed := m.findScanStopWith (fun walked _ => 1 ≤ walked) (.timer "a") 1
    indexed.1 = (some 5, some 1) ∧
      indexed.2.pendingSignals.entries.map StashedSignal.index = [3, 4] ∧
      indexed.2.forgetIndex = (walkLoop never (.timer "a") 1 5 1 none m).result.2.forgetIndex := by
  intro m indexed
  refine ⟨by decide +kernel, by decide +kernel, ?_⟩
  exact (indexed_scan_refines_the_walk _ m (Views.of_empty rfl)
    (fun walked _ => 1 ≤ walked) (.timer "a") 1).2.1

/-- **The indexed signal wait equals its walk.** -/
theorem indexed_signal_wait_equals_its_walk (history : List WorkflowEvent) (m : HistoryMatcher)
    (hviews : Views history m) (leaves : Nat → Bool → Bool) (signalName : String)
    (tolerate : Option String) (predicate : Option SignalPredicate) :
    let indexed := m.matchSignalInnerWith leaves signalName tolerate predicate
    let walked := m.matchSignalInnerWith never signalName tolerate predicate
    indexed.1 = walked.1 ∧ indexed.2.forgetIndex = walked.2.forgetIndex :=
  (hviews.indexed.matchSignalInnerWith leaves signalName tolerate predicate).1

theorem indexed_signal_wait_equals_its_walk_own_deadline :
    let m := { new deadlineHistory with cursor := 1 }
    let indexed := m.matchSignalInnerWith (fun walked _ => 1 ≤ walked) "s" none none
    indexed.2.cursor = 2 ∧ indexed.1 = (m.matchSignalInnerWith never "s" none none).1 := by
  intro m indexed
  refine ⟨by decide +kernel, ?_⟩
  exact (indexed_signal_wait_equals_its_walk _ m (Views.of_empty rfl)
    (fun walked _ => 1 ≤ walked) "s" none none).1

end Harvest.Replay
