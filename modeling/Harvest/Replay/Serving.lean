import Harvest.Replay.Race

/-!
# What a call returns

The calls of the matcher as passes on the signals of `Mail`, with what each call returns. A scan
on the index is the walk (`Refine`), so it is enough to follow the walks.

Proved here, for each call: it `Serves` the signals that it returns. A plain wait returns the first
signal of its name that no call has returned.
-/

namespace Harvest.Replay

open HistoryMatcher

/-- A call went from one matcher to another and delivered the signals of these events. -/
structure Serves (roles : List ScanRole) (m : HistoryMatcher) (indices : List Nat)
    (m' : HistoryMatcher) : Prop where
  goes : Goes m m'
  indexed : Indexed roles m'
  delivered : m'.delivered = m.delivered ++ indices

namespace Serves

variable {roles : List ScanRole} {m m' m₁ m₂ : HistoryMatcher} {indices more : List Nat}

theorem trans (h : Serves roles m indices m₁) (h' : Serves roles m₁ more m₂) :
    Serves roles m (indices ++ more) m₂ :=
  ⟨h.goes.trans h'.goes, h'.indexed,
    by rw [h'.delivered, h.delivered, List.append_assoc]⟩

/-- After a call that delivers nothing. -/
theorem after (h : Serves roles m [] m₁) (h' : Serves roles m₁ more m₂) :
    Serves roles m more m₂ :=
  h.trans h'

/-- Before a call that delivers nothing. -/
theorem before (h : Serves roles m indices m₁) (h' : Serves roles m₁ [] m₂) :
    Serves roles m indices m₂ := by
  have hboth := h.trans h'
  rwa [List.append_nil] at hboth

theorem silent (hgoes : Goes m m') (hindexed : Indexed roles m')
    (hdelivered : m'.delivered = m.delivered) : Serves roles m [] m' :=
  ⟨hgoes, hindexed, by rw [hdelivered, List.append_nil]⟩

theorem refl (hindexed : Indexed roles m) : Serves roles m [] m :=
  silent (Goes.refl m) hindexed rfl

theorem quiet (hquiet : m.Quiet m') (hindexed : Indexed roles m') : Serves roles m [] m' :=
  silent (Goes.quiet hquiet) hindexed hquiet.delivered

end Serves

namespace HistoryMatcher

variable {roles : List ScanRole} {m m' : HistoryMatcher}

/-! ## Preparing a match -/

theorem drainLoop_index (fuel : Nat) (m : HistoryMatcher) :
    (drainLoop fuel m).activityScanIndex = m.activityScanIndex := by
  induction fuel generalizing m with
  | zero => rfl
  | succ fuel ih =>
    unfold drainLoop
    cases m.events[m.cursor]? with
    | none => rfl
    | some event =>
      dsimp only
      split_ifs
      · exact (ih _).trans (stash_index m m.cursor)
      · exact ih _
      · rfl

theorem prepareMatch_index (m : HistoryMatcher) :
    m.prepareMatch.activityScanIndex = m.activityScanIndex := by
  have habsorbs : Absorbs fun m m' => m'.activityScanIndex = m.activityScanIndex :=
    { refl := fun _ => rfl
      trans := fun _ _ _ h₁ h₂ => h₂.trans h₁
      external := fun _ _ => rfl
      resolve := fun m at' => by
        unfold resolveStashedTerminal
        dsimp only
        split <;> rfl }
  exact (habsorbs.scanAhead _).trans (drainLoop_index _ _)

theorem prepareMatch_serves (hindexed : Indexed roles m) (hclear : m.Clear m.cursor) :
    Serves roles m [] m.prepareMatch := by
  obtain ⟨hgoes, -, hdelivered⟩ := prepareMatch_goes hclear
  have hspares := (prepareMatch_spares m).1
  exact Serves.silent hgoes
    (hindexed.grow hspares.events (prepareMatch_index m) hspares.grows) hdelivered

/-- Moving the cursor in replay, then past consumed events. -/
theorem settle_serves {cursor : Nat} (hindexed : Indexed roles m)
    (hreplay : m.cursor < m.events.length) (hle : cursor ≤ m.events.length)
    (hclear : m.Clear cursor) :
    Serves roles m [] { m with cursor := cursor }.advanceToNextUnconsumedEvent :=
  Serves.silent (settle_goes hreplay hle hclear).1 ⟨hindexed.agree, hindexed.index⟩ rfl

/-! ## The index -/

theorem quiet_withIndex (m : HistoryMatcher) (index : ActivityScanIndex) :
    m.Quiet (m.withIndex index) :=
  .idle ⟨rfl, fun _ => rfl, rfl, rfl, rfl, fun _ => Or.inl rfl⟩ rfl rfl fun _ => id

/-- Passes do not see the index. -/
theorem goes_of_forgetIndex {m₁ : HistoryMatcher} (hgoes : Goes m m₁)
    (hforget : m'.forgetIndex = m₁.forgetIndex) : Goes m m' := by
  have hback : Goes m'.forgetIndex m' := Goes.quiet (quiet_withIndex _ m'.activityScanIndex)
  rw [hforget] at hback
  exact (hgoes.trans (Goes.quiet (quiet_withIndex m₁ .empty))).trans hback

theorem forgetIndex_delivered {m₁ : HistoryMatcher} (hforget : m'.forgetIndex = m₁.forgetIndex) :
    m'.delivered = m₁.delivered :=
  (congrArg HistoryMatcher.delivered hforget : _)

theorem forgetIndex_cursor {m₁ : HistoryMatcher} (hforget : m'.forgetIndex = m₁.forgetIndex) :
    m'.cursor = m₁.cursor :=
  (congrArg HistoryMatcher.cursor hforget : _)

/-! ## The scan for a terminal event -/

/-- Where a scan of the terminal of a command ends. -/
structure Ends (m : HistoryMatcher) (start : Nat) (stop first : Option Nat) : Prop where
  stop : ∀ terminal, stop = some terminal →
    start ≤ terminal ∧ terminal < m.events.length ∧ m.signalAt terminal = none ∧
      m.Clear (terminal + 1)
  first : ∀ command, first = some command →
    start ≤ command ∧ command < m.events.length ∧ m.Clear command

theorem signalAt_eq_none_of_role {at' : Nat} {event : WorkflowEvent}
    (hevent : m.events[at']? = some event) (hrole : activityScanRole event ≠ .barrier) :
    m.signalAt at' = none := by
  refine signalIn_of_numbered hevent ?_
  cases event <;> first | rfl | exact absurd rfl hrole

/-- **A walk is passes**: it stashes the signals it crosses. -/
theorem walkLoop_goes (target : ScanTarget) (start n at' : Nat) (first : Option Nat)
    (m : HistoryMatcher) (hn : at' + n = m.events.length) (hstart : start ≤ at')
    (hclear : m.Clear at') (hfirst : ∀ command, first = some command →
      start ≤ command ∧ command < m.events.length ∧ m.Clear command) :
    let walked := (walkLoop never target start n at' first m).result
    Goes m walked.2 ∧ walked.2.delivered = m.delivered ∧ walked.2.events = m.events ∧
      walked.2.cursor = m.cursor ∧ Ends walked.2 start walked.1.1 walked.1.2 := by
  induction n generalizing m at' first with
  | zero => exact ⟨Goes.refl m, rfl, rfl, rfl, by rintro _ ⟨⟩, hfirst⟩
  | succ n ih =>
    have hlt : at' < m.events.length := by omega
    obtain ⟨event, hevent⟩ : ∃ event, m.events[at']? = some event :=
      ⟨_, List.getElem?_eq_getElem hlt⟩
    -- going on leaves the walk from the next position
    have hon (first' : Option Nat) (m₁ : HistoryMatcher) (hgoes : Goes m m₁)
        (hevents : m₁.events = m.events) (hcursor : m₁.cursor = m.cursor)
        (hdelivered : m₁.delivered = m.delivered) (hclear₁ : m₁.Clear (at' + 1))
        (hfirst' : ∀ command, first' = some command →
          start ≤ command ∧ command < m.events.length ∧ m.Clear command) :
        let walked := (walkLoop never target start n (at' + 1) first' m₁).result
        Goes m walked.2 ∧ walked.2.delivered = m.delivered ∧ walked.2.events = m.events ∧
          walked.2.cursor = m.cursor ∧ Ends walked.2 start walked.1.1 walked.1.2 := by
      intro walked
      obtain ⟨hgoes', hdelivered', hevents', hcursor', hends⟩ := ih (at' + 1) first' m₁
        (by rw [hevents]; omega) (by omega) hclear₁ fun command hcommand => by
          obtain ⟨hle, hlt, hclear'⟩ := hfirst' command hcommand
          exact ⟨hle, hevents ▸ hlt, hgoes.clear hclear'⟩
      exact ⟨hgoes.trans hgoes', hdelivered'.trans hdelivered, hevents'.trans hevents,
        hcursor'.trans hcursor, hends⟩
    have hskip (hnone : (m.signalAt at').isSome → m.isConsumed at') (first' : Option Nat)
        (hfirst' : ∀ command, first' = some command →
          start ≤ command ∧ command < m.events.length ∧ m.Clear command) :=
      hon first' m (Goes.refl m) rfl rfl rfl (hclear.skip hnone) hfirst'
    have hcommand : ∀ command, (first <|> some at') = some command →
        start ≤ command ∧ command < m.events.length ∧ m.Clear command := by
      intro command h
      cases first with
      | some earlier => exact hfirst command h
      | none =>
        obtain rfl := Option.some.inj h
        exact ⟨hstart, hlt, hclear⟩
    unfold walkLoop
    simp only [never, Bool.false_eq_true, if_false, hevent]
    by_cases hconsumed : m.isConsumed at'
    · rw [if_pos hconsumed]
      exact hskip (fun _ => hconsumed) first hfirst
    · rw [if_neg hconsumed]
      have hstash := stash_goes hconsumed hclear
      have hstashed := hon first _ hstash.1 (stash_events m at') (stash_cursor m at')
        (stash_delivered m at') hstash.2 hfirst
      have hnone (hrole : activityScanRole event ≠ .barrier) :
          (m.signalAt at').isSome → m.isConsumed at' := by
        rw [signalAt_eq_none_of_role hevent hrole]
        rintro ⟨⟩
      by_cases hstops : target.stopsAt (activityScanRole event)
      · rw [if_pos hstops]
        have hrole : activityScanRole event ≠ .barrier := by
          intro hbarrier
          rw [hbarrier] at hstops
          cases target <;> cases hstops
        refine ⟨Goes.refl m, rfl, rfl, rfl, fun terminal hterminal => ?_, hfirst⟩
        obtain rfl := Option.some.inj hterminal
        exact ⟨hstart, hlt, signalAt_eq_none_of_role hevent hrole,
          hclear.skip (hnone hrole)⟩
      · rw [if_neg hstops]
        cases hrole : activityScanRole event with
        | externalTerminal => exact hstashed
        | barrier =>
          dsimp only
          split_ifs
          · exact hstashed
          · exact ⟨Goes.refl m, rfl, rfl, rfl, by rintro _ ⟨⟩, hfirst⟩
        | scheduled id => exact hskip (hnone (by rw [hrole]; rintro ⟨⟩)) _ hcommand
        | interleaved => exact hskip (hnone (by rw [hrole]; rintro ⟨⟩)) _ hcommand
        | _ => exact hskip (hnone (by rw [hrole]; rintro ⟨⟩)) first hfirst

/-! ## Settling a terminal event -/

/-- Consuming events that are no signals. -/
theorem Quiet.consumeAll {more : Finset Nat}
    (hmore : ∀ i ∈ more, i < m.events.length ∧ m.signalAt i = none) :
    m.Quiet { m with consumedOutOfOrderEvents := m.consumedOutOfOrderEvents ∪ more } := by
  refine .idle ⟨rfl, fun _ => rfl, rfl, rfl, rfl, fun i => ?_⟩ rfl rfl fun i hdone => ?_
  · by_cases hi : i ∈ more
    · exact Or.inr (hmore i hi)
    · left
      simp [isConsumed, hi]
  · rw [isConsumed_iff] at hdone ⊢
    exact hdone.imp_left (Finset.mem_union_left more)

theorem quiet_outOfOrder {terminal : Nat} (hlt : terminal < m.events.length)
    (hnone : m.signalAt terminal = none) :
    m.Quiet { m with consumedOutOfOrderEvents := insert terminal m.consumedOutOfOrderEvents } := by
  have hall := @Quiet.consumeAll m {terminal} fun i hi => by
    rw [Finset.mem_singleton.mp hi]
    exact ⟨hlt, hnone⟩
  rwa [Finset.union_comm, ← Finset.insert_eq] at hall

/-- The progress events of an activity are no signals. -/
theorem quiet_consumeProgress {activityId : ActivityExecId} {command terminal : Nat}
    (hle : terminal ≤ m.events.length) :
    m.Quiet (m.forgetIndex.consumeProgress activityId command terminal) := by
  have hunbuilt : (! m.forgetIndex.activityScanIndex.isBuilt) = true := rfl
  unfold consumeProgress
  rw [if_pos (Or.inr hunbuilt)]
  refine (Quiet.consumeAll fun i hi => ?_).trans (quiet_withIndex _ _)
  obtain ⟨hrange, hprogress⟩ := Finset.mem_filter.mp hi
  obtain ⟨event, hevent, hrole⟩ := (Option.any_eq_true _ _).mp hprogress
  have hlt := (Finset.mem_Ico.mp hrange).2
  refine ⟨Nat.lt_of_lt_of_le hlt hle, signalAt_eq_none_of_role hevent ?_⟩
  rw [of_decide_eq_true hrole]
  exact nofun

/-- **Settling is passes.** -/
theorem settleTerminal_serves {terminal : Nat} {first : Option Nat} {start : Nat}
    (hindexed : Indexed roles m) (hreplay : m.cursor < m.events.length)
    (hends : Ends m start (some terminal) first) :
    Serves roles m [] (m.settleTerminal terminal first) := by
  obtain ⟨-, hlt, hnone, hclear⟩ := hends.stop terminal rfl
  obtain ⟨hforget, hkeep⟩ := hindexed.settleTerminal first hlt.le
  have hsettles : Goes m.forgetIndex (m.forgetIndex.settleTerminal terminal first) ∧
      (m.forgetIndex.settleTerminal terminal first).delivered = m.delivered := by
    unfold settleTerminal
    cases first with
    | none => exact ⟨(@settle_goes m.forgetIndex (terminal + 1) hreplay hlt hclear).1, rfl⟩
    | some command =>
      obtain ⟨-, hcommand, hclear'⟩ := hends.first command rfl
      have hinsert := @quiet_outOfOrder m.forgetIndex terminal hlt hnone
      have hmoves (m₁ : HistoryMatcher) (hquiet : m.forgetIndex.Quiet m₁) :
          Goes m.forgetIndex { m₁ with cursor := command }.advanceToNextUnconsumedEvent ∧
            { m₁ with cursor := command }.advanceToNextUnconsumedEvent.delivered =
              m.delivered := by
        refine ⟨(Goes.quiet hquiet).trans (settle_goes ?_ ?_ (hquiet.clear hclear')).1,
          hquiet.delivered⟩
        · rw [hquiet.cursor, hquiet.length]
          exact hreplay
        · rw [hquiet.length]
          exact hcommand.le
      dsimp only
      split
      · exact hmoves _ (hinsert.trans (quiet_consumeProgress hlt.le))
      · exact hmoves _ hinsert
  refine Serves.silent (goes_of_forgetIndex ?_ hforget) hkeep ?_
  · exact (Goes.quiet (quiet_withIndex m .empty)).trans hsettles.1
  · rw [forgetIndex_delivered hforget, hsettles.2]

/-! ## Activities and timers -/

/-- **A scan is passes**, on the index or not. -/
theorem findScanStop_serves {target : ScanTarget} {start : Nat} (hindexed : Indexed roles m)
    (hstart : start ≤ m.events.length) (hclear : m.Clear start) :
    let found := m.findScanStop target start
    Serves roles m [] found.2 ∧ found.2.events = m.events ∧ found.2.cursor = m.cursor ∧
      Ends found.2 start found.1.1 found.1.2 := by
  intro found
  obtain ⟨hresult, hforget, hkeep, hevents⟩ :=
    hindexed.findScanStopWith m.leavesWalk target start
  obtain ⟨hgoes, hdelivered, -, hcursor, hends⟩ := walkLoop_goes target start
    (m.events.length - start) start none m (by omega) (Nat.le_refl _) hclear nofun
  have hback : Goes (walkLoop never target start (m.events.length - start) start none m).result.2
      found.2 := goes_of_forgetIndex (Goes.refl _) hforget
  refine ⟨Serves.silent (hgoes.trans hback) hkeep ?_, hevents, ?_, ?_, ?_⟩
  · exact (forgetIndex_delivered hforget).trans hdelivered
  · exact (forgetIndex_cursor hforget).trans hcursor
  · intro terminal hterminal
    rw [show found.1 = _ from hresult] at hterminal
    obtain ⟨hle, hlt, hnone, hclear'⟩ := hends.stop terminal hterminal
    refine ⟨hle, ?_, ?_, hback.clear hclear'⟩
    · rwa [show found.2.events = _ from (congrArg HistoryMatcher.events hforget : _)]
    · rwa [hback.signalAt]
  · intro command hcommand
    rw [show found.1 = _ from hresult] at hcommand
    obtain ⟨hle, hlt, hclear'⟩ := hends.first command hcommand
    refine ⟨hle, ?_, hback.clear hclear'⟩
    rwa [show found.2.events = _ from (congrArg HistoryMatcher.events hforget : _)]

theorem signalOf_takeOutput (event : WorkflowEvent) :
    signalOf (takeOutput event) = signalOf event := by
  cases event <;> rfl

theorem ofTerminal_takeOutput (event : WorkflowEvent) :
    ExternalKey.ofTerminal (takeOutput event) = ExternalKey.ofTerminal event := by
  cases event <;> rfl

/-- What does not see the output does not see that it moves. -/
theorem map_modify_takeOutput {α : Type*} {f : WorkflowEvent → α}
    (hf : ∀ event, f (takeOutput event) = f event) (events : List WorkflowEvent) (terminal : Nat) :
    (events.modify terminal takeOutput).map f = events.map f := by
  refine List.ext_getElem? fun i => ?_
  simp only [List.getElem?_map, List.getElem?_modify]
  cases events[i]? with
  | none => rfl
  | some event =>
    by_cases hi : terminal = i
    · simp [hi, hf]
    · simp [hi]

theorem activityScanRole_takeOutput (event : WorkflowEvent) :
    activityScanRole (takeOutput event) = activityScanRole event := by
  cases event <;> rfl

/-- Moving the output out of an event leaves the signals as they are. -/
theorem quiet_takeOutput (m : HistoryMatcher) (terminal : Nat) :
    m.Quiet { m with events := m.events.modify terminal takeOutput } := by
  refine ⟨⟨List.length_modify .., fun i => ?_, rfl, rfl, rfl, fun _ => Or.inl rfl⟩,
    .single (.keep rfl ?_ fun _ => id)⟩
  · unfold HistoryMatcher.signalAt signalIn
    simp only [List.getElem?_modify]
    cases m.events[i]? with
    | none => rfl
    | some event =>
      split_ifs
      · exact signalOf_takeOutput event
      · rfl
  · exact map_modify_takeOutput ofTerminal_takeOutput m.events terminal

theorem indexed_takeOutput (hindexed : Indexed roles m) (terminal : Nat) :
    Indexed roles { m with events := m.events.modify terminal takeOutput } := by
  refine ⟨?_, hindexed.index⟩
  have hroles := map_modify_takeOutput activityScanRole_takeOutput m.events terminal
  rw [show ({ m with events := m.events.modify terminal takeOutput } : HistoryMatcher).events =
    m.events.modify terminal takeOutput from rfl, hroles, List.length_modify]
  exact hindexed.agree

theorem Ends.takeOutput {start : Nat} {stop first : Option Nat} (h : Ends m start stop first)
    (terminal : Nat) :
    Ends { m with events := m.events.modify terminal HistoryMatcher.takeOutput } start stop
      first := by
  have hquiet := quiet_takeOutput m terminal
  refine ⟨fun at' hat => ?_, fun command hcommand => ?_⟩
  · obtain ⟨hle, hlt, hnone, hclear⟩ := h.stop at' hat
    exact ⟨hle, hquiet.length ▸ hlt, (hquiet.signalAt at').trans hnone, hquiet.clear hclear⟩
  · obtain ⟨hle, hlt, hclear⟩ := h.first command hcommand
    exact ⟨hle, hquiet.length ▸ hlt, hquiet.clear hclear⟩

/-- The step past the command at the cursor. -/
theorem pass_command {event : WorkflowEvent} (hindexed : Indexed roles m)
    (hclear : m.Clear m.cursor) (hevent : m.events[m.cursor]? = some event)
    (hrole : activityScanRole event ≠ .barrier) :
    Serves roles m [] { m with cursor := m.cursor + 1 } ∧
      { m with cursor := m.cursor + 1 }.Clear (m.cursor + 1) := by
  have hlt := (List.getElem?_eq_some_iff.mp hevent).1
  have hnext : m.Clear (m.cursor + 1) := hclear.skip (by
    rw [signalAt_eq_none_of_role hevent hrole]
    exact nofun)
  exact ⟨Serves.silent (Goes.move hlt hlt hnext) ⟨hindexed.agree, hindexed.index⟩ rfl, hnext⟩

theorem rewindOpenActivity_serves {activityId : ActivityExecId} {start : Nat}
    {stop first : Option Nat} (hindexed : Indexed roles m) (hstart : m.cursor = start)
    (hends : Ends m start stop first) :
    Serves roles m [] (m.rewindOpenActivity activityId first).2 := by
  unfold rewindOpenActivity
  cases first with
  | none => exact Serves.refl hindexed
  | some command =>
    obtain ⟨hle, hlt, hclear⟩ := hends.first command rfl
    exact settle_serves hindexed (by omega) hlt.le hclear

theorem scanActivityTerminal_serves {activityId : ActivityExecId} {start : Nat}
    (hindexed : Indexed roles m) (hstart : start ≤ m.events.length) (hcursor : m.cursor = start)
    (hclear : m.Clear start) :
    Serves roles m [] (m.scanActivityTerminal activityId start).2 := by
  obtain ⟨hscan, hevents, hsame, hends⟩ :=
    @findScanStop_serves roles m (.activity activityId) start hindexed hstart hclear
  unfold scanActivityTerminal scanActivityTerminalWith
  unfold findScanStop at hscan hevents hsame hends
  revert hscan hevents hsame hends
  rcases m.findScanStopWith m.leavesWalk (.activity activityId) start with ⟨⟨stop, first⟩, m₁⟩
  intro hscan hevents hsame hends
  dsimp only at hscan hevents hsame hends ⊢
  have hrewind := @rewindOpenActivity_serves roles m₁ activityId start stop first hscan.indexed
    (hsame.trans hcursor) hends
  cases stop with
  | none => exact hscan.after hrewind
  | some terminal =>
    dsimp only
    cases (m₁.events[terminal]?).bind activityResult with
    | none => exact hscan.after hrewind
    | some result =>
      obtain ⟨hle, hlt, -, -⟩ := hends.stop terminal rfl
      have hquiet := quiet_takeOutput m₁ terminal
      have htaken := indexed_takeOutput hscan.indexed terminal
      refine hscan.after ((Serves.quiet hquiet htaken).after
        (settleTerminal_serves htaken ?_ (hends.takeOutput terminal)))
      rw [hquiet.length, hquiet.cursor]
      omega

/-- **`match_activity`** delivers no signal. -/
theorem matchActivity_serves (hindexed : Indexed roles m) (hclear : m.Clear m.cursor)
    (activityName : String) : Serves roles m [] (m.matchActivity activityName).2 := by
  have hprepare := prepareMatch_serves hindexed hclear
  have hprepared := (prepareMatch_goes hclear).2.1
  unfold matchActivity
  revert hprepare hprepared
  generalize m.prepareMatch = p
  intro hprepare hprepared
  dsimp only
  split_ifs
  · exact hprepare
  · split
    · next activityId recordedName _ _ hevent =>
      split_ifs
      · exact hprepare
      · obtain ⟨hpass, hnext⟩ := pass_command hprepare.indexed hprepared hevent nofun
        have hlt := (List.getElem?_eq_some_iff.mp hevent).1
        exact hprepare.after (hpass.after
          (scanActivityTerminal_serves hpass.indexed hlt rfl hnext))
    · exact hprepare

/-- **`match_timer_strict`** delivers no signal. -/
theorem matchTimerStrict_serves (hindexed : Indexed roles m) (hclear : m.Clear m.cursor)
    (timerId : String) (expectedDuration : Option UInt64) :
    Serves roles m [] (m.matchTimerStrict timerId expectedDuration).2 := by
  have hprepare := prepareMatch_serves hindexed hclear
  have hprepared := (prepareMatch_goes hclear).2.1
  unfold matchTimerStrict
  revert hprepare hprepared
  generalize m.prepareMatch = p
  intro hprepare hprepared
  dsimp only
  split_ifs
  · exact hprepare
  · split
    · next recordedId recordedDuration hevent =>
      split_ifs
      · exact hprepare
      · cases durationDiffers expectedDuration recordedDuration with
        | some expected => exact hprepare
        | none =>
          obtain ⟨hpass, hnext⟩ := pass_command hprepare.indexed hprepared hevent nofun
          have hlt := (List.getElem?_eq_some_iff.mp hevent).1
          obtain ⟨hscan, hevents, hsame, hends⟩ :=
            @findScanStop_serves roles { p with cursor := p.cursor + 1 } (.timer timerId)
              (p.cursor + 1) hpass.indexed hlt hnext
          dsimp only
          revert hscan hevents hsame hends
          rcases ({ p with cursor := p.cursor + 1 } : HistoryMatcher).findScanStop (.timer timerId)
            (p.cursor + 1) with ⟨⟨stop, first⟩, m₁⟩
          intro hscan hevents hsame hends
          dsimp only at hscan hevents hsame hends ⊢
          cases stop with
          | none => exact hprepare.after (hpass.after hscan)
          | some fire =>
            obtain ⟨hle, hfire, -, -⟩ := hends.stop fire rfl
            refine hprepare.after (hpass.after (hscan.after
              (settleTerminal_serves hscan.indexed ?_ hends)))
            omega
    · exact hprepare

/-! ## Stashed signals -/

/-- Taking one entry out of the stash. -/
theorem take_serves {name : String} {accept : StashedSignal → Bool} {entry : StashedSignal}
    {pending : SignalStash} (hindexed : Indexed roles m)
    (hfound : m.pendingSignals.removeFirst name accept = some (entry, pending)) :
    Serves roles m [entry.index]
      { m with pendingSignals := pending, delivered := m.delivered ++ [entry.index] } := by
  obtain ⟨-, -, before, after, hentries, hrest, -⟩ := SignalStash.removeFirst_eq_some hfound
  refine ⟨fun cuts => .single ?_, ⟨hindexed.agree, hindexed.index⟩, rfl⟩
  refine @Pass.take ⟨m, cuts⟩ [entry] pending.entries ?_ ?_
  · rw [hentries, hrest]
    exact (List.Sublist.refl before).append (List.sublist_cons_self entry after)
  · rw [hentries, hrest, List.singleton_append]
    exact List.perm_middle.symm

/-- What a wait returned to the workflow. -/
def signalsOf (signalName : String) : HistoryMatch → List (String × Json)
  | .matched payload => [(signalName, payload)]
  | _ => []

/-- **Claiming a buffered signal** takes the first one that the predicate accepts. -/
theorem claimBufferedSignal_serves (hindexed : Indexed roles m) (hsound : m.Sound)
    (signalName : String) (predicate : Option SignalPredicate) :
    let claimed := m.claimBufferedSignal signalName predicate
    (∃ entry ∈ m.pendingSignals.entries, claimed.1 = some entry.payload ∧
      m.signalAt entry.index = some (signalName, entry.payload) ∧
      Serves roles m [entry.index] claimed.2 ∧
      (predicate = none → ∃ before after, m.pendingSignals.entries = before ++ entry :: after ∧
        ∀ other ∈ before, other.name ≠ signalName)) ∨
    (claimed.1 = none ∧ Serves roles m [] claimed.2 ∧ m.Quiet claimed.2 ∧
      (predicate = none → ∀ entry ∈ m.pendingSignals.entries, entry.name ≠ signalName)) := by
  intro claimed
  have hquiet (rejected : Finset Nat) :
      m.Quiet { m with predicateRejectedSignalEvents := rejected } :=
    .idle ⟨rfl, fun _ => rfl, rfl, rfl, rfl, fun _ => Or.inl rfl⟩ rfl rfl fun _ => id
  have hkeep (rejected : Finset Nat) :
      Indexed roles { m with predicateRejectedSignalEvents := rejected } :=
    ⟨hindexed.agree, hindexed.index⟩
  cases hfound : m.pendingSignals.removeFirst signalName fun entry =>
      accepts predicate entry.index entry.payload with
  | some found =>
    obtain ⟨entry, pending⟩ := found
    left
    obtain ⟨hname, -, before, after, hentries, -, hbefore⟩ :=
      SignalStash.removeFirst_eq_some hfound
    have hmem : entry ∈ m.pendingSignals.entries := by
      rw [hentries]
      exact List.mem_append_right _ List.mem_cons_self
    obtain ⟨rejected, hclaimed⟩ : ∃ rejected, claimed = (some entry.payload, { m with
        predicateRejectedSignalEvents := rejected
        pendingSignals := pending
        delivered := m.delivered ++ [entry.index] }) := by
      simp only [claimed, claimBufferedSignal, hfound]
      exact ⟨_, rfl⟩
    rw [hclaimed]
    have htake := @take_serves roles { m with predicateRejectedSignalEvents := rejected } signalName
      _ entry pending (hkeep rejected) hfound
    refine ⟨entry, hmem, rfl, hname ▸ hsound entry hmem, ?_, ?_⟩
    · exact (Serves.quiet (hquiet rejected) (hkeep rejected)).after htake
    · rintro rfl
      exact ⟨before, after, hentries, fun other hother h => hbefore other hother ⟨h, rfl⟩⟩
  | none =>
    right
    obtain ⟨rejected, hclaimed⟩ : ∃ rejected, claimed = (none, { m with
        predicateRejectedSignalEvents := rejected }) := by
      simp only [claimed, claimBufferedSignal, hfound]
      exact ⟨_, rfl⟩
    rw [hclaimed]
    refine ⟨rfl, Serves.quiet (hquiet _) (hkeep _), hquiet _, ?_⟩
    rintro rfl entry hmem hname
    exact SignalStash.removeFirst_eq_none hfound entry hmem ⟨hname, rfl⟩

/-! ## Waits -/

section Wait

variable {signalName : String} {tolerate : Option String} {predicate : Option SignalPredicate}
  {first : Option Nat} {at' : Nat}

/-- One event of the signal scan. -/
theorem signalScanStep_outcome :
    let scanned := m.signalScanStep at' signalName tolerate predicate first
    (∃ payload, m.signalAt at' = some (signalName, payload) ∧
      scanned = ((some (.matched payload), first),
        { m.deliverAt at' with cursor := first.getD (at' + 1) }.advanceToNextUnconsumedEvent)) ∨
    ((scanned.2 = m ∧ m.signalAt at' = none ∨ ∃ rejected, scanned.2 =
        { m with predicateRejectedSignalEvents := rejected }.stashTransparentExternalEvent at') ∧
      (∀ payload, scanned.1.1 ≠ some (.matched payload)) ∧
      (scanned.1.2 = first ∨ scanned.1.2 = (first <|> some at')) ∧
      (predicate = none → ∀ payload, m.signalAt at' ≠ some (signalName, payload))) := by
  intro scanned
  have hscanned : m.signalScanStep at' signalName tolerate predicate first = scanned := rfl
  clear_value scanned
  unfold signalScanStep at hscanned
  have hstash : ∃ rejected, m.stashTransparentExternalEvent at' =
      { m with predicateRejectedSignalEvents := rejected }.stashTransparentExternalEvent at' :=
    ⟨m.predicateRejectedSignalEvents, rfl⟩
  cases hevent : m.events[at']? with
  | none =>
    have hnone : m.signalAt at' = none := by
      unfold HistoryMatcher.signalAt signalIn
      rw [hevent]
      rfl
    rw [hevent] at hscanned
    subst hscanned
    exact Or.inr ⟨Or.inl ⟨rfl, hnone⟩, nofun, Or.inl rfl, fun _ => by rw [hnone]; exact nofun⟩
  | some event =>
    rw [hevent] at hscanned
    have hnot (hnone : signalOf event = none) : m.signalAt at' = none ∧
        (predicate = none → ∀ payload, m.signalAt at' ≠ some (signalName, payload)) := by
      have hat : m.signalAt at' = none := signalIn_of_numbered hevent hnone
      exact ⟨hat, fun _ => by rw [hat]; exact nofun⟩
    cases event with
    | signalReceived recordedName payload =>
      have hsignal : m.signalAt at' = some (recordedName, payload) :=
        signalAt_eq_some.mpr hevent
      dsimp only at hscanned
      split_ifs at hscanned with hname haccepts
      · subst hname hscanned
        exact Or.inl ⟨payload, hsignal, rfl⟩
      · subst hscanned
        refine Or.inr ⟨Or.inr ⟨_, rfl⟩, nofun, Or.inl rfl, ?_⟩
        rintro rfl
        exact absurd rfl haccepts
      · subst hscanned
        refine Or.inr ⟨Or.inr hstash, nofun, Or.inl rfl, fun _ other h => ?_⟩
        rw [hsignal] at h
        exact hname (Prod.mk.inj (Option.some.inj h)).1
    | timerStarted timerId duration =>
      obtain ⟨hnone, hplain⟩ := hnot rfl
      dsimp only at hscanned
      split_ifs at hscanned
      · subst hscanned
        exact Or.inr ⟨Or.inl ⟨rfl, hnone⟩, nofun, Or.inl rfl, hplain⟩
      · subst hscanned
        exact Or.inr ⟨Or.inl ⟨rfl, hnone⟩, nofun, Or.inr rfl, hplain⟩
    | markerRecorded name details =>
      obtain ⟨hnone, hplain⟩ := hnot rfl
      dsimp only at hscanned
      split_ifs at hscanned
      · subst hscanned
        exact Or.inr ⟨Or.inl ⟨rfl, hnone⟩, nofun, Or.inl rfl, hplain⟩
      · subst hscanned
        exact Or.inr ⟨Or.inl ⟨rfl, hnone⟩, nofun, Or.inr rfl, hplain⟩
    | _ =>
      -- the other events are crossed, stashed or end the scan
      obtain ⟨hnone, hplain⟩ := hnot rfl
      right
      dsimp only [isUpdateEvent, activityScanRole, isTransparentExternalEvent] at hscanned
      simp only [if_true, Bool.false_eq_true, if_false] at hscanned
      first
      | (subst hscanned
         first
         | exact ⟨Or.inl ⟨rfl, hnone⟩, nofun, Or.inl rfl, hplain⟩
         | exact ⟨Or.inl ⟨rfl, hnone⟩, nofun, Or.inr rfl, hplain⟩
         | exact ⟨Or.inr hstash, nofun, Or.inl rfl, hplain⟩)
      | (split_ifs at hscanned <;> subst hscanned
         · exact ⟨Or.inl ⟨rfl, hnone⟩, nofun, Or.inr rfl, hplain⟩
         · exact ⟨Or.inl ⟨rfl, hnone⟩, nofun, Or.inl rfl, hplain⟩
         · exact ⟨Or.inl ⟨rfl, hnone⟩, nofun, Or.inl rfl, hplain⟩)

/-- What the walk of a wait delivered: nothing, or one unconsumed signal. A plain wait delivers
the first one of its name. -/
structure Delivers (m : HistoryMatcher) (signalName : String) (predicate : Option SignalPredicate)
    (at' : Nat) (result : HistoryMatch) (indices : List Nat) : Prop where
  returned : indices.map m.signalAt = (signalsOf signalName result).map some
  first : predicate = none → ∀ i ∈ indices, ∀ j, at' ≤ j → j < i → ¬ m.isConsumed j →
    ∀ payload, m.signalAt j ≠ some (signalName, payload)

/-- What a later position delivers, with what the scan did in between. -/
theorem Delivers.step {result : HistoryMatch} {indices : List Nat} (hgoes : Goes m m')
    (hconsumed : ∀ j, j ≠ at' → m'.isConsumed j = m.isConsumed j)
    (hat : predicate = none → ¬ m.isConsumed at' →
      ∀ payload, m.signalAt at' ≠ some (signalName, payload))
    (h : Delivers m' signalName predicate (at' + 1) result indices) :
    Delivers m signalName predicate at' result indices := by
  refine ⟨?_, fun hplain i hi j hle hlt hnew payload => ?_⟩
  · rw [← h.returned]
    exact List.map_congr_left fun i _ => (hgoes.signalAt i).symm
  · rcases Nat.eq_or_lt_of_le hle with rfl | hafter
    · exact hat hplain hnew payload
    · rw [← hgoes.signalAt]
      exact h.first hplain i hi j hafter hlt (by rwa [hconsumed j (by omega)]) payload

theorem Delivers.nothing {result : HistoryMatch} (hresult : ∀ payload, result ≠ .matched payload) :
    Delivers m signalName predicate at' result [] := by
  refine ⟨?_, fun _ i hi => absurd hi List.not_mem_nil⟩
  cases result with
  | matched payload => exact absurd rfl (hresult payload)
  | _ => rfl

/-- What the scan leaves at an event that it does not deliver. -/
theorem signalScanStep_goes {m₁ : HistoryMatcher} (hnew : ¬ m.isConsumed at')
    (hclear : m.Clear at') (hstate : m₁ = m ∧ m.signalAt at' = none ∨ ∃ rejected, m₁ =
      { m with predicateRejectedSignalEvents := rejected }.stashTransparentExternalEvent at') :
    Goes m m₁ ∧ m₁.delivered = m.delivered ∧ m₁.events = m.events ∧ m₁.cursor = m.cursor ∧
      m₁.Clear (at' + 1) ∧ ∀ j, j ≠ at' → m₁.isConsumed j = m.isConsumed j := by
  rcases hstate with ⟨rfl, hnone⟩ | ⟨rejected, rfl⟩
  · refine ⟨Goes.refl m₁, rfl, rfl, rfl, hclear.skip ?_, fun _ _ => rfl⟩
    rw [hnone]
    exact nofun
  · have hquiet : m.Quiet { m with predicateRejectedSignalEvents := rejected } :=
      .idle ⟨rfl, fun _ => rfl, rfl, rfl, rfl, fun _ => Or.inl rfl⟩ rfl rfl fun _ => id
    have hstash := @stash_goes { m with predicateRejectedSignalEvents := rejected } at' hnew
      (hquiet.clear hclear)
    exact ⟨(Goes.quiet hquiet).trans hstash.1, stash_delivered _ at', stash_events _ at',
      stash_cursor _ at', hstash.2, fun j hj => stash_isConsumed_of_ne hj⟩

/-- Delivering the signal that the scan stands at. -/
theorem deliver_goes {cursor : Nat} (hsignal : (m.signalAt at').isSome)
    (hnew : ¬ m.isConsumed at') (hclear : m.Clear at') (hreplay : m.cursor < m.events.length)
    (hle : cursor ≤ m.events.length) (hcursor : (m.deliverAt at').Clear cursor) :
    Goes m { m.deliverAt at' with cursor := cursor }.advanceToNextUnconsumedEvent := by
  have hdeliver : Goes m (m.deliverAt at') := fun cuts =>
    .single (@Pass.deliver ⟨m, cuts⟩ at' hsignal hnew hclear)
  exact hdeliver.trans (@settle_goes (m.deliverAt at') cursor hreplay hle hcursor).1

theorem clear_deliverAt (hclear : m.Clear at') : (m.deliverAt at').Clear (at' + 1) := by
  intro i hi hsome
  rw [isConsumed_deliverAt]
  rcases Nat.lt_succ_iff_lt_or_eq.mp hi with hlt | rfl
  · exact Or.inr (hclear i hlt hsome)
  · exact Or.inl rfl

theorem clear_deliverAt_of_clear {n : Nat} (hclear : m.Clear n) : (m.deliverAt at').Clear n := by
  intro i hi hsome
  rw [isConsumed_deliverAt]
  exact Or.inr (hclear i hi hsome)

/-- **A signal scan is passes**, and it delivers what it returns. -/
theorem signalLoop_goes (start n : Nat) (m : HistoryMatcher) (first : Option Nat)
    (hn : at' + n = m.events.length) (hcursor : m.cursor ≤ at') (hclear : m.Clear at')
    (hfirst : ∀ command, first = some command → command < m.events.length ∧ m.Clear command) :
    let found := signalLoop never signalName tolerate predicate start n at' first m
    ∃ indices, Goes m found.2 ∧ found.2.delivered = m.delivered ++ indices ∧
      Delivers m signalName predicate at' found.1 indices := by
  induction n generalizing m at' first with
  | zero =>
    exact ⟨[], Goes.quiet (quiet_withIndex m _), (List.append_nil _).symm, .nothing nofun⟩
  | succ n ih =>
    have hlt : at' < m.events.length := by omega
    intro found
    simp only [found, signalLoop, never, Bool.and_false, Bool.false_eq_true, if_false]
    by_cases hconsumed : m.isConsumed at'
    · rw [if_pos hconsumed]
      obtain ⟨indices, hgoes, hdelivered, hdelivers⟩ := @ih (at' + 1) m first (by omega) (by omega)
        (hclear.skip fun _ => hconsumed) hfirst
      exact ⟨indices, hgoes, hdelivered, hdelivers.step (Goes.refl m) (fun _ _ => rfl)
        fun _ hnew => absurd hconsumed hnew⟩
    · rw [if_neg hconsumed]
      have houtcome := @signalScanStep_outcome m signalName tolerate predicate first at'
      revert houtcome
      rcases m.signalScanStep at' signalName tolerate predicate first with ⟨⟨result, first'⟩, m₁⟩
      rintro (⟨payload, hsignal, hscanned⟩ | ⟨hstate, hresult, hfirst', hplain⟩)
      · -- the signal is delivered here
        obtain ⟨⟨rfl, rfl⟩, rfl⟩ : (result = some (.matched payload) ∧ first' = first) ∧ _ := by
          simpa only [Prod.mk.injEq] using hscanned
        have hsome : (m.signalAt at').isSome := by
          rw [hsignal]
          rfl
        have hgoes : Goes m { m.deliverAt at' with
            cursor := first'.getD (at' + 1) }.advanceToNextUnconsumedEvent := by
          refine deliver_goes hsome hconsumed hclear (by omega) ?_ ?_
          · cases first' with
            | none => exact hlt
            | some command => exact (hfirst command rfl).1.le
          · cases first' with
            | none => exact clear_deliverAt hclear
            | some command => exact clear_deliverAt_of_clear (hfirst command rfl).2
        refine ⟨[at'], hgoes.trans (Goes.quiet (quiet_withIndex _ _)), rfl, ?_, ?_⟩
        · rw [List.map_singleton, hsignal]
          rfl
        · intro _ i hi j hle hji
          rw [List.mem_singleton.mp hi] at hji
          omega
      · obtain ⟨hgoes, hdelivered, hevents, hcursor₁, hclear₁, hsame⟩ :=
          signalScanStep_goes hconsumed hclear hstate
        have hfirst₁ : ∀ command, first' = some command →
            command < m₁.events.length ∧ m₁.Clear command := by
          intro command hcommand
          have hkeeps (h : first = some command) :
              command < m₁.events.length ∧ m₁.Clear command := by
            rw [hevents]
            exact ⟨(hfirst command h).1, hgoes.clear (hfirst command h).2⟩
          rcases hfirst' with heq | heq
          · exact hkeeps (heq.symm.trans hcommand)
          · cases first with
            | some earlier => exact hkeeps (heq.symm.trans hcommand)
            | none =>
              obtain rfl : at' = command := Option.some.inj (heq.symm.trans hcommand)
              rw [hevents]
              exact ⟨hlt, hgoes.clear hclear⟩
        cases result with
        | some result =>
          refine ⟨[], hgoes.trans (Goes.quiet (quiet_withIndex m₁ _)), ?_, .nothing ?_⟩
          · rw [List.append_nil]
            exact hdelivered
          · exact fun payload h => hresult payload (congrArg some h)
        | none =>
          obtain ⟨indices, hgoes', hdelivered', hdelivers⟩ := @ih (at' + 1) m₁ first'
            (by rw [hevents]; omega) (by rw [show m₁.cursor = _ from hcursor₁]; omega) hclear₁ hfirst₁
          exact ⟨indices, hgoes.trans hgoes', hdelivered'.trans (by rw [hdelivered]),
            hdelivers.step hgoes hsame fun hnone _ => hplain hnone⟩

end Wait

end HistoryMatcher

section Wait

variable {v : View} {roles : List ScanRole}

/-- The undelivered signals of a name before a position are delivered if they are neither in the
stash nor unconsumed. -/
theorem Mail.delivered_of (h : Mail v) {signalName : String} {j : Nat} {payload : Json}
    (hsignal : v.matcher.signalAt j = some (signalName, payload)) (hdone : v.matcher.isConsumed j)
    (hstash : ∀ entry ∈ v.matcher.pendingSignals.entries, entry.index ≠ j) :
    j ∈ v.matcher.delivered := by
  by_contra hnot
  have hwaits := h.undelivered_iff.mpr ⟨⟨payload, hsignal⟩, hnot⟩
  obtain ⟨entry, hmem, hindex⟩ := hwaits.2.resolve_left (not_not_intro hdone)
  exact hstash entry hmem hindex

theorem Mail.name_of_index (h : Mail v) {signalName : String} {j : Nat} {payload : Json}
    (hsignal : v.matcher.signalAt j = some (signalName, payload)) {entry : StashedSignal}
    (hmem : entry ∈ v.matcher.pendingSignals.entries) (hindex : entry.index = j) :
    entry.name = signalName := by
  have hentry := h.sound entry hmem
  rw [hindex, hsignal] at hentry
  exact (Prod.mk.inj (Option.some.inj hentry)).1.symm

/-- **A wait delivers what it returns**; a plain wait delivers the first signal of its name that no
call has returned. -/
theorem Mail.matchSignalInner (h : Mail v) (hindexed : Indexed roles v.matcher)
    (signalName : String) (tolerate : Option String) (predicate : Option SignalPredicate) :
    let found := v.matcher.matchSignalInner signalName tolerate predicate
    ∃ indices, Serves roles v.matcher indices found.2 ∧
      indices.map v.matcher.signalAt = (signalsOf signalName found.1).map some ∧
      (predicate = none → ∀ i ∈ indices, ∀ j < i, ∀ payload,
        v.matcher.signalAt j = some (signalName, payload) → j ∈ v.matcher.delivered) := by
  intro found
  obtain ⟨⟨hresult, hforget⟩, hkeep⟩ :=
    hindexed.matchSignalInnerWith v.matcher.leavesWalk signalName tolerate predicate
  have hclaim := claimBufferedSignal_serves hindexed h.sound signalName predicate
  dsimp only at hclaim
  rcases hclaim with ⟨entry, hmem, hclaimed, hsignal, hserves, hfirst⟩ |
    ⟨hclaimed, hserves, hquiet, hfirst⟩
  · -- the first entry of the stash
    have hfound : found = (.matched entry.payload,
        (v.matcher.claimBufferedSignal signalName predicate).2) := by
      simp only [found, HistoryMatcher.matchSignalInner, HistoryMatcher.matchSignalInnerWith]
      revert hclaimed
      rcases v.matcher.claimBufferedSignal signalName predicate with ⟨output, m₁⟩
      rintro rfl
      rfl
    rw [hfound]
    refine ⟨[entry.index], hserves, ?_, ?_⟩
    · rw [List.map_singleton, hsignal]
      rfl
    · intro hplain i hi j hlt payload hj
      rw [List.mem_singleton.mp hi] at hlt
      obtain ⟨before, after, hentries, hbefore⟩ := hfirst hplain
      have hvisible := h.visible entry hmem
      have hdone : v.matcher.isConsumed j := by
        have hlater := h.consumed entry (List.mem_append_left _ hmem)
        refine h.inOrder j entry.index hlt ?_ (h.isSome_held (List.mem_append_left _ hmem)) hlater
        rw [v.signalAt_visible (Nat.lt_trans hlt hvisible), hj]
        rfl
      refine h.delivered_of hj hdone fun other hother hindex => ?_
      have hname := h.name_of_index hj hother hindex
      have hsorted := (List.pairwise_append.mp h.sorted).1
      rw [hentries] at hother hsorted
      rcases List.mem_append.mp hother with hother | hother
      · exact hbefore other hother hname
      · rcases List.mem_cons.mp hother with rfl | hother
        · omega
        · have hafter :=
            (List.pairwise_cons.mp (List.pairwise_append.mp hsorted).2.1).1 other hother
          omega
  · -- the walk, from the first unconsumed event
    have hclear := hquiet.clear h.clear
    rw [← hquiet.cursor] at hclear
    have hadvance := advance_goes hclear
    have hadvanced := hclear.advance
    have hgoes := hserves.goes.trans hadvance
    have hdelivered : (v.matcher.claimBufferedSignal signalName
        predicate).2.advanceToNextUnconsumedEvent.delivered = v.matcher.delivered :=
      hquiet.delivered
    have hconsumed (j : Nat) (hj : (v.matcher.signalAt j).isSome) :
        (v.matcher.claimBufferedSignal signalName predicate).2.isConsumed j =
          v.matcher.isConsumed j := by
      rcases hquiet.consumed j with hsame | ⟨-, hnone⟩
      · exact hsame
      · rw [hnone] at hj
        cases hj
    have hwalked : ∃ indices, Goes v.matcher
        (v.matcher.matchSignalInnerWith never signalName tolerate predicate).2 ∧
        (v.matcher.matchSignalInnerWith never signalName tolerate predicate).2.delivered =
          v.matcher.delivered ++ indices ∧
        Delivers (v.matcher.claimBufferedSignal signalName predicate).2.advanceToNextUnconsumedEvent
          signalName predicate
          (v.matcher.claimBufferedSignal signalName predicate).2.advanceToNextUnconsumedEvent.cursor
          (v.matcher.matchSignalInnerWith never signalName tolerate predicate).1 indices := by
      unfold HistoryMatcher.matchSignalInnerWith
      revert hclaimed hadvanced hgoes hdelivered
      rcases v.matcher.claimBufferedSignal signalName predicate with ⟨output, m₁⟩
      rintro rfl hadvanced hgoes hdelivered
      dsimp only
      split_ifs with hreplaying
      · exact ⟨[], hgoes, by rw [List.append_nil]; exact hdelivered, .nothing (by rintro _ ⟨⟩)⟩
      · have hlt := cursor_lt_of_isReplaying _ (by simpa using hreplaying)
        obtain ⟨indices, hloop, hmore, hdelivers⟩ := @signalLoop_goes signalName tolerate predicate
          m₁.advanceToNextUnconsumedEvent.cursor m₁.advanceToNextUnconsumedEvent.cursor
          (m₁.advanceToNextUnconsumedEvent.events.length - m₁.advanceToNextUnconsumedEvent.cursor)
          m₁.advanceToNextUnconsumedEvent none (by omega) (Nat.le_refl _) hadvanced (by rintro _ ⟨⟩)
        exact ⟨indices, hgoes.trans hloop, hmore.trans (by rw [hdelivered]), hdelivers⟩
    obtain ⟨indices, hwalk, hmore, hdelivers⟩ := hwalked
    refine ⟨indices, ⟨goes_of_forgetIndex hwalk hforget, hkeep,
      (forgetIndex_delivered hforget).trans hmore⟩, ?_, ?_⟩
    · rw [show found.1 = _ from hresult, ← hdelivers.returned]
      exact List.map_congr_left fun i _ => (hgoes.signalAt i).symm
    · intro hplain i hi j hlt payload hj
      have hsome : (v.matcher.signalAt j).isSome := by
        rw [hj]
        rfl
      by_cases hdone : v.matcher.isConsumed j
      · refine h.delivered_of hj hdone fun entry hmem hindex => ?_
        exact hfirst hplain entry hmem (h.name_of_index hj hmem hindex)
      · have hnew := (hconsumed j hsome).trans (Bool.eq_false_iff.mpr hdone)
        have hafter : (v.matcher.claimBufferedSignal signalName
            predicate).2.advanceToNextUnconsumedEvent.cursor ≤ j := by
          by_contra hbefore
          have hskipped := hadvanced j (Nat.not_le.mp hbefore)
            (by rw [hquiet.signalAt]; exact hsome)
          exact Bool.false_ne_true (hnew.symm.trans hskipped)
        refine absurd hj ?_
        rw [← hgoes.signalAt]
        exact hdelivers.first hplain i hi j hafter hlt
          (fun h => Bool.false_ne_true (hnew.symm.trans h)) payload

/-! ## Claims of stashed signals -/

theorem quiet_noteSignalProbe (m : HistoryMatcher) (signalName : String) :
    m.Quiet (m.noteSignalProbe signalName) ∧
      (m.noteSignalProbe signalName).pendingSignals = m.pendingSignals := by
  unfold noteSignalProbe
  split_ifs
  · exact ⟨Quiet.refl m, rfl⟩
  · exact ⟨.idle ⟨rfl, fun _ => rfl, rfl, rfl, rfl, fun _ => Or.inl rfl⟩ rfl rfl fun _ => id, rfl⟩

theorem indexed_noteSignalProbe {m : HistoryMatcher} (hindexed : Indexed roles m)
    (signalName : String) : Indexed roles (m.noteSignalProbe signalName) := by
  unfold noteSignalProbe
  split_ifs
  · exact hindexed
  · exact ⟨hindexed.agree, hindexed.index⟩

/-- Consuming again what is consumed. -/
theorem quiet_reconsume {m : HistoryMatcher} {more : Finset Nat}
    (hmore : ∀ i ∈ more, m.isConsumed i) :
    m.Quiet { m with consumedSignalEvents := m.consumedSignalEvents ∪ more } := by
  have hsame (i : Nat) : { m with
      consumedSignalEvents := m.consumedSignalEvents ∪ more }.isConsumed i = m.isConsumed i := by
    by_cases hi : i ∈ more
    · rw [hmore i hi]
      simp [isConsumed, hi]
    · simp [isConsumed, hi]
  refine .idle ⟨rfl, fun _ => rfl, rfl, rfl, rfl, fun i => Or.inl (hsame i)⟩ rfl rfl fun i hdone => ?_
  rw [hsame]
  exact hdone

theorem quiet_reinsert {m : HistoryMatcher} {i : Nat} (hi : m.isConsumed i) :
    m.Quiet { m with consumedSignalEvents := insert i m.consumedSignalEvents } := by
  have hall := @quiet_reconsume m {i} fun j hj => by
    rw [Finset.mem_singleton.mp hj]
    exact hi
  rwa [Finset.union_comm, ← Finset.insert_eq] at hall

theorem indexed_insert {m : HistoryMatcher} (hindexed : Indexed roles m) (i : Nat) :
    Indexed roles { m with consumedSignalEvents := insert i m.consumedSignalEvents } := by
  refine hindexed.grow rfl rfl fun j hj => ?_
  rw [isConsumed_iff] at hj ⊢
  rcases hj with hj | hj | hj
  · exact Or.inl hj
  · exact Or.inr (Or.inl (Finset.mem_insert_of_mem hj))
  · exact Or.inr (Or.inr hj)

/-- The matcher that a claim looks at. -/
theorem Mail.probed (h : Mail v) (hindexed : Indexed roles v.matcher) (signalName : String) :
    Mail ⟨v.matcher.prepareMatch.noteSignalProbe signalName, v.cuts⟩ ∧
      Serves roles v.matcher [] (v.matcher.prepareMatch.noteSignalProbe signalName) := by
  have hprepare := prepareMatch_serves hindexed h.clear
  have hprobe := (quiet_noteSignalProbe v.matcher.prepareMatch signalName).1
  exact ⟨(h.goes hprepare.goes).quiet hprobe,
    hprepare.after (.quiet hprobe (indexed_noteSignalProbe hprepare.indexed signalName))⟩

/-- **`claim_pending_signal`** delivers every stashed signal that it returns. -/
theorem Mail.claimPendingSignal (h : Mail v) (hindexed : Indexed roles v.matcher)
    (signalName : String) :
    let claimed := v.matcher.claimPendingSignal signalName
    ∃ indices, Serves roles v.matcher indices claimed.2 ∧
      indices.map v.matcher.signalAt =
        (claimed.1.map fun signal => (signalName, signal.2)).map some := by
  intro claimed
  obtain ⟨hmail, hprobed⟩ := h.probed hindexed signalName
  have hsignal := hprobed.goes.signalAt
  simp only [claimed, HistoryMatcher.claimPendingSignal, SignalStash.takeOfName]
  generalize v.matcher.prepareMatch.noteSignalProbe signalName = p at hmail hprobed hsignal
  generalize hmatched : (p.pendingSignals.entries.filter fun entry =>
    decide (entry.name = signalName) && ! decide (entry.index ∈ p.raceReservedSignalEvents)) =
      matched
  have hmem (entry : StashedSignal) (hentry : entry ∈ matched) :
      entry ∈ p.pendingSignals.entries ∧ entry.name = signalName := by
    rw [← hmatched, List.mem_filter, Bool.and_eq_true, decide_eq_true_eq] at hentry
    exact ⟨hentry.1, hentry.2.1⟩
  have hquiet : p.Quiet { p with
      consumedSignalEvents := p.consumedSignalEvents ∪
        (matched.map StashedSignal.index).toFinset } := by
    refine quiet_reconsume fun i hi => ?_
    obtain ⟨entry, hentry, rfl⟩ := List.mem_map.mp (List.mem_toFinset.mp hi)
    exact hmail.consumed entry (List.mem_append_left _ (hmem entry hentry).1)
  refine ⟨matched.map StashedSignal.index, hprobed.after ⟨?_, ?_, rfl⟩, ?_⟩
  · refine (Goes.quiet hquiet).trans fun cuts => .single ?_
    refine @Pass.take ⟨_, cuts⟩ matched _ (List.filter_sublist ..) ?_
    rw [← hmatched]
    exact List.filter_append_perm _ _
  · refine hprobed.indexed.grow rfl rfl fun j hj => ?_
    rw [isConsumed_iff] at hj ⊢
    rcases hj with hj | hj | hj
    · exact Or.inl hj
    · exact Or.inr (Or.inl (Finset.mem_union_left _ hj))
    · exact Or.inr (Or.inr hj)
  · rw [List.map_map, List.map_map, List.map_map]
    refine List.map_congr_left fun entry hentry => ?_
    obtain ⟨hstashed, hname⟩ := hmem entry hentry
    show v.matcher.signalAt entry.index = some (signalName, entry.payload)
    rw [← hsignal, ← hname]
    exact hmail.sound entry hstashed

/-- **`try_claim_pending_signal`** delivers the stashed signal that it returns. -/
theorem Mail.tryClaimPendingSignal (h : Mail v) (hindexed : Indexed roles v.matcher)
    (signalName : String) :
    let claimed := v.matcher.tryClaimPendingSignal signalName
    ∃ indices, Serves roles v.matcher indices claimed.2 ∧
      indices.map v.matcher.signalAt =
        (claimed.1.toList.map fun payload => (signalName, payload)).map some := by
  intro claimed
  obtain ⟨hmail, hprobed⟩ := h.probed hindexed signalName
  have hsignal := hprobed.goes.signalAt
  simp only [claimed, HistoryMatcher.tryClaimPendingSignal]
  generalize v.matcher.prepareMatch.noteSignalProbe signalName = p at hmail hprobed hsignal
  cases hfound : p.pendingSignals.removeFirst signalName fun entry =>
      ! decide (entry.index ∈ p.raceReservedSignalEvents) with
  | none => exact ⟨[], hprobed, rfl⟩
  | some found =>
    obtain ⟨entry, pending⟩ := found
    obtain ⟨hname, -, before, after, hentries, -, -⟩ := SignalStash.removeFirst_eq_some hfound
    have hmem : entry ∈ p.pendingSignals.entries := by
      rw [hentries]
      exact List.mem_append_right _ List.mem_cons_self
    have hdone := hmail.consumed entry (List.mem_append_left _ hmem)
    have htake := take_serves hprobed.indexed hfound
    refine ⟨[entry.index], hprobed.after (htake.before ?_), ?_⟩
    · exact .quiet (quiet_reinsert hdone) (indexed_insert htake.indexed entry.index)
    · show [v.matcher.signalAt entry.index] = [some (signalName, entry.payload)]
      rw [← hsignal, ← hname]
      exact congrArg (fun signal => [signal]) (hmail.sound entry hmem)

/-! ## Races -/

/-- What a race returned to the workflow. -/
def raceSignalsOf (signalName : String) : SignalOrTimerMatch → List (String × Json)
  | .signalWon payload => [(signalName, payload)]
  | _ => []

theorem indexed_outOfOrder {m : HistoryMatcher} (hindexed : Indexed roles m) (i : Nat) :
    Indexed roles { m with
      consumedOutOfOrderEvents := insert i m.consumedOutOfOrderEvents } := by
  refine hindexed.grow rfl rfl fun j hj => ?_
  rw [isConsumed_iff] at hj ⊢
  rcases hj with hj | hj
  · exact Or.inl (Finset.mem_insert_of_mem hj)
  · exact Or.inr hj

theorem signalAt_eq_none_of_fire {m : HistoryMatcher} {timerId : String} {i : Nat}
    (h : (m.events[i]?).any (isFireOf timerId)) : i < m.events.length ∧ m.signalAt i = none := by
  obtain ⟨event, hevent, hfire⟩ := (Option.any_eq_true _ _).mp h
  refine ⟨(List.getElem?_eq_some_iff.mp hevent).1, signalIn_of_numbered hevent ?_⟩
  cases event <;> first | rfl | cases hfire

/-- **Settling a race for the signal** is passes, once the signal is consumed. -/
theorem settleRaceSignalWon_serves {m : HistoryMatcher} {signalPos : Nat} {first : Option Nat}
    (timerId : String) (hindexed : Indexed roles m) (hdone : m.isConsumed signalPos)
    (hlt : signalPos < m.events.length) (hreplay : m.cursor < m.events.length)
    (hclear : m.Clear (signalPos + 1))
    (hfirst : ∀ command, first = some command → command < m.events.length ∧ m.Clear command) :
    Serves roles m [] (m.settleRaceSignalWon signalPos first timerId) := by
  have hquiet := quiet_reinsert hdone
  have hinsert := indexed_insert hindexed signalPos
  -- the stray fire is no signal
  have hfire : ∃ m₁, m.Quiet m₁ ∧ Indexed roles m₁ ∧
      m.settleRaceSignalWon signalPos first timerId =
        { m₁ with cursor := first.getD (signalPos + 1) }.advanceToNextUnconsumedEvent := by
    unfold settleRaceSignalWon
    dsimp only
    split
    · next fire hfound =>
      have hstray := List.find?_some hfound
      rw [Bool.and_eq_true] at hstray
      obtain ⟨hvisible, hnone⟩ := @signalAt_eq_none_of_fire { m with
        consumedSignalEvents := insert signalPos m.consumedSignalEvents } timerId fire hstray.2
      exact ⟨_, hquiet.trans (quiet_outOfOrder hvisible hnone), indexed_outOfOrder hinsert fire, rfl⟩
    · exact ⟨_, hquiet, hinsert, rfl⟩
  obtain ⟨m₁, hquiet₁, hindexed₁, heq⟩ := hfire
  rw [heq]
  refine (Serves.quiet hquiet₁ hindexed₁).after (settle_serves hindexed₁ ?_ ?_ ?_)
  · rw [hquiet₁.cursor, hquiet₁.length]
    exact hreplay
  · rw [hquiet₁.length]
    cases first with
    | none => exact hlt
    | some command => exact (hfirst command rfl).1.le
  · cases first with
    | none => exact hquiet₁.clear hclear
    | some command => exact hquiet₁.clear (hfirst command rfl).2

/-- **Settling a race for the timer** is passes. -/
theorem settleRaceTimerWon_serves {m : HistoryMatcher} {fire : Nat} {first : Option Nat}
    {timerId : String} (signalName : String) (hindexed : Indexed roles m)
    (hfire : (m.events[fire]?).any (isFireOf timerId)) (hreplay : m.cursor < m.events.length)
    (hclear : m.Clear fire)
    (hfirst : ∀ command, first = some command → command < m.events.length ∧ m.Clear command) :
    Serves roles m [] (m.settleRaceTimerWon signalName fire first) := by
  obtain ⟨hlt, hnone⟩ := signalAt_eq_none_of_fire hfire
  have hlate (late : Finset Nat) : m.Quiet { m with lateRaceSignalEvents := late } :=
    .idle ⟨rfl, fun _ => rfl, rfl, rfl, rfl, fun _ => Or.inl rfl⟩ rfl rfl fun _ => id
  have hkeep (late : Finset Nat) : Indexed roles { m with lateRaceSignalEvents := late } :=
    ⟨hindexed.agree, hindexed.index⟩
  unfold settleRaceTimerWon
  dsimp only
  generalize ((m.raceLoser signalName fire).elim m.lateRaceSignalEvents fun i =>
    insert i m.lateRaceSignalEvents) = late
  refine (Serves.quiet (hlate late) (hkeep late)).after ?_
  cases first with
  | none =>
    refine @settle_serves roles { m with lateRaceSignalEvents := late } (fire + 1) (hkeep late)
      hreplay hlt (((hlate late).clear hclear).skip ?_)
    rw [(hlate late).signalAt, hnone]
    exact nofun
  | some command =>
    obtain ⟨hcommand, hclear'⟩ := hfirst command rfl
    have hinsert := @quiet_outOfOrder { m with lateRaceSignalEvents := late } fire hlt hnone
    have hindexed' := indexed_outOfOrder (hkeep late) fire
    exact (Serves.quiet hinsert hindexed').after (@settle_serves roles { m with
      lateRaceSignalEvents := late
      consumedOutOfOrderEvents := insert fire m.consumedOutOfOrderEvents } command hindexed'
      hreplay hcommand.le (hinsert.clear ((hlate late).clear hclear')))

theorem takeStashedSignalAt_serves {m m₁ : HistoryMatcher} {at' : Nat} {signalName : String}
    {payload : Json} (hindexed : Indexed roles m) (hsound : m.Sound)
    (htake : m.takeStashedSignalAt at' signalName = some (payload, m₁)) :
    Serves roles m [at'] m₁ ∧ m.signalAt at' = some (signalName, payload) ∧
      m₁.events = m.events ∧ m₁.cursor = m.cursor ∧ ∀ i, m₁.isConsumed i = m.isConsumed i := by
  unfold takeStashedSignalAt at htake
  split_ifs at htake
  obtain ⟨⟨entry, pending⟩, hfound, heq⟩ := Option.map_eq_some_iff.mp htake
  obtain ⟨rfl, rfl⟩ := Prod.mk.inj heq
  obtain ⟨hname, haccepts, before, after, hentries, -, -⟩ := SignalStash.removeFirst_eq_some hfound
  obtain rfl : entry.index = at' := of_decide_eq_true haccepts
  have hmem : entry ∈ m.pendingSignals.entries := by
    rw [hentries]
    exact List.mem_append_right _ List.mem_cons_self
  exact ⟨take_serves hindexed hfound, hname ▸ hsound entry hmem, rfl, rfl, fun _ => rfl⟩

/-- The end of the scan without a winner: the cursor goes back to the first command. -/
theorem raceLoop_open_serves (signalName timerId : String) {at' : Nat} {first : Option Nat}
    {m : HistoryMatcher} (hindexed : Indexed roles m) (hfirst : ∀ command, first = some command →
      m.cursor ≤ command ∧ command < m.events.length ∧ m.Clear command) :
    ∃ indices, Serves roles m indices (raceLoop signalName timerId 0 at' first m).2 ∧
      indices.map m.signalAt =
        (raceSignalsOf signalName (raceLoop signalName timerId 0 at' first m).1).map some := by
  unfold raceLoop
  refine ⟨[], ?_, rfl⟩
  cases first with
  | none => exact Serves.refl hindexed
  | some command =>
    obtain ⟨hle, hlt, hclear⟩ := hfirst command rfl
    exact settle_serves hindexed (by omega) hlt.le hclear

/-- The race is won by a signal that was stashed before. -/
theorem race_taken_serves {m m₁ : HistoryMatcher} {at' : Nat} {first : Option Nat}
    {signalName : String} {payload : Json} (timerId : String) (hindexed : Indexed roles m)
    (hsound : m.Sound) (hlt : at' < m.events.length) (hcursor : m.cursor ≤ at')
    (hclear : m.Clear at') (hconsumed : m.isConsumed at')
    (htake : m.takeStashedSignalAt at' signalName = some (payload, m₁))
    (hfirst : ∀ command, first = some command → command < m.events.length ∧ m.Clear command) :
    Serves roles m [at'] (m₁.settleRaceSignalWon at' first timerId) ∧
      m.signalAt at' = some (signalName, payload) := by
  obtain ⟨hserves, hsignal, hevents, hcursor₁, hsame⟩ :=
    takeStashedSignalAt_serves hindexed hsound htake
  have hsettle := @settleRaceSignalWon_serves roles m₁ at' first timerId hserves.indexed
    ((hsame at').trans hconsumed) (hevents ▸ hlt) (by rw [hevents, hcursor₁]; omega)
    (hserves.goes.clear (hclear.skip fun _ => hconsumed)) fun command hcommand => by
      obtain ⟨hvisible, hclear'⟩ := hfirst command hcommand
      exact ⟨hevents ▸ hvisible, hserves.goes.clear hclear'⟩
  exact ⟨hserves.before hsettle, hsignal⟩

/-- The race is won by the signal that the scan stands at. -/
theorem race_delivered_serves {m : HistoryMatcher} {at' : Nat} {first : Option Nat}
    (timerId : String) (hindexed : Indexed roles m) (hlt : at' < m.events.length)
    (hcursor : m.cursor ≤ at') (hclear : m.Clear at') (hconsumed : ¬ m.isConsumed at')
    (hsignal : (m.signalAt at').isSome)
    (hfirst : ∀ command, first = some command → command < m.events.length ∧ m.Clear command) :
    Serves roles m [at'] ((m.deliverAt at').settleRaceSignalWon at' first timerId) := by
  have hinsert := indexed_insert hindexed at'
  have hdeliver : Serves roles m [at'] (m.deliverAt at') :=
    ⟨fun cuts => .single (@Pass.deliver ⟨m, cuts⟩ at' hsignal hconsumed hclear),
      ⟨hinsert.agree, hinsert.index⟩, rfl⟩
  have hsettle := @settleRaceSignalWon_serves roles (m.deliverAt at') at' first timerId
    hdeliver.indexed ((isConsumed_deliverAt m at' at').mpr (Or.inl rfl)) hlt
    (Nat.lt_of_le_of_lt hcursor hlt) (clear_deliverAt hclear) fun command hcommand =>
      ⟨(hfirst command hcommand).1, hdeliver.goes.clear (hfirst command hcommand).2⟩
  exact hdeliver.before hsettle

/-- **The scan of a race is passes**, and it delivers what it returns. -/
theorem raceLoop_serves (signalName timerId : String) {cuts : List ViewCut} {n at' : Nat}
    {first : Option Nat} {m : HistoryMatcher} (hmail : Mail ⟨m, cuts⟩)
    (hindexed : Indexed roles m) (hn : at' + n ≤ m.events.length) (hcursor : m.cursor ≤ at')
    (hclear : m.Clear at') (hfirst : ∀ command, first = some command →
      m.cursor ≤ command ∧ command < m.events.length ∧ m.Clear command) :
    let raced := raceLoop signalName timerId n at' first m
    ∃ indices, Serves roles m indices raced.2 ∧
      indices.map m.signalAt = (raceSignalsOf signalName raced.1).map some := by
  induction n generalizing m at' first with
  | zero => exact raceLoop_open_serves signalName timerId hindexed hfirst
  | succ n ih =>
    have hlt : at' < m.events.length := by omega
    obtain ⟨event, hevent⟩ : ∃ event, m.events[at']? = some event :=
      ⟨_, List.getElem?_eq_getElem hlt⟩
    have hcommands : ∀ command, first = some command →
        command < m.events.length ∧ m.Clear command := fun command h => (hfirst command h).2
    have hon (first' : Option Nat) (m₁ : HistoryMatcher) (hserves : Serves roles m [] m₁)
        (hevents : m₁.events = m.events) (hcursor₁ : m₁.cursor = m.cursor)
        (hclear₁ : m₁.Clear (at' + 1)) (hfirst' : ∀ command, first' = some command →
          m.cursor ≤ command ∧ command < m.events.length ∧ m.Clear command) :
        ∃ indices, Serves roles m indices (raceLoop signalName timerId n (at' + 1) first' m₁).2 ∧
          indices.map m.signalAt = (raceSignalsOf signalName
            (raceLoop signalName timerId n (at' + 1) first' m₁).1).map some := by
      obtain ⟨indices, hrest, hreturned⟩ := @ih (at' + 1) first' m₁ (hmail.goes hserves.goes)
        hserves.indexed (by rw [hevents]; omega) (by omega) hclear₁ fun command hcommand => by
          obtain ⟨hle, hvisible, hclear'⟩ := hfirst' command hcommand
          exact ⟨hcursor₁ ▸ hle, hevents ▸ hvisible, hserves.goes.clear hclear'⟩
      refine ⟨indices, hserves.after hrest, ?_⟩
      rw [← hreturned]
      exact List.map_congr_left fun i _ => (hserves.goes.signalAt i).symm
    have hskip (hnone : (m.signalAt at').isSome → m.isConsumed at') (first' : Option Nat)
        (hfirst' : ∀ command, first' = some command →
          m.cursor ≤ command ∧ command < m.events.length ∧ m.Clear command) :=
      hon first' m (Serves.refl hindexed) rfl rfl (hclear.skip hnone) hfirst'
    by_cases hconsumed : m.isConsumed at'
    · rw [raceLoop, if_pos hconsumed]
      cases htake : m.takeStashedSignalAt at' signalName with
      | none => exact hskip (fun _ => hconsumed) first hfirst
      | some taken =>
        obtain ⟨payload, m₁⟩ := taken
        obtain ⟨hserves, hsignal⟩ := race_taken_serves timerId hindexed hmail.sound hlt hcursor hclear
          hconsumed htake hcommands
        refine ⟨[at'], hserves, ?_⟩
        rw [List.map_singleton, hsignal]
        rfl
    · rw [raceLoop, if_neg hconsumed, hevent]
      have hstash := stash_goes hconsumed hclear
      have hstashed := hon first _ (Serves.silent hstash.1 (hindexed.stash at')
        (stash_delivered m at')) (stash_events m at') (stash_cursor m at') hstash.2 hfirst
      split
      · next heq => cases heq
      · next recordedName payload heq =>
        obtain rfl := Option.some.inj heq
        have hsignal := signalAt_eq_some.mpr hevent
        split_ifs with hname
        · subst hname
          have hsome : (m.signalAt at').isSome := by
            rw [hsignal]
            rfl
          refine ⟨[at'], race_delivered_serves timerId hindexed hlt hcursor hclear hconsumed hsome
            hcommands, ?_⟩
          rw [List.map_singleton, hsignal]
          rfl
        · exact hstashed
      · next hother heq =>
        obtain rfl := Option.some.inj heq
        have hnone : (m.signalAt at').isSome → m.isConsumed at' := by
          intro hsome
          obtain ⟨⟨name, payload⟩, hsignal⟩ := Option.isSome_iff_exists.mp hsome
          have hreceived := signalAt_eq_some.mp hsignal
          rw [hevent] at hreceived
          exact absurd hreceived (by simpa using hother name payload)
        have hcommand : ∀ command, (first <|> some at') = some command →
            m.cursor ≤ command ∧ command < m.events.length ∧ m.Clear command := by
          intro command h
          cases first with
          | some earlier => exact hfirst command h
          | none =>
            obtain rfl := Option.some.inj h
            exact ⟨hcursor, hlt, hclear⟩
        by_cases hfire : isFireOf timerId event
        · rw [if_pos hfire]
          have hany : (m.events[at']?).any (isFireOf timerId) := by
            rw [hevent]
            exact hfire
          exact ⟨[], settleRaceTimerWon_serves signalName hindexed hany (by omega) hclear hcommands,
            rfl⟩
        · rw [if_neg hfire]
          by_cases hupdate : isUpdateEvent event
          · rw [if_pos hupdate]
            exact hskip hnone first hfirst
          · rw [if_neg hupdate]
            cases activityScanRole event with
            | externalTerminal => exact hstashed
            | barrier =>
              dsimp only
              split_ifs
              · exact hstashed
              · exact raceLoop_open_serves signalName timerId hindexed hfirst
            | scheduled id => exact hskip hnone _ hcommand
            | interleaved => exact hskip hnone _ hcommand
            | _ => exact hskip hnone first hfirst

/-- **`match_signal_or_timer`** delivers the signal that it returns. -/
theorem Mail.matchSignalOrTimer (h : Mail v) (hindexed : Indexed roles v.matcher)
    (signalName timerId : String) (expectedDuration : Option UInt64) :
    let raced := v.matcher.matchSignalOrTimer signalName timerId expectedDuration
    ∃ indices, Serves roles v.matcher indices raced.2 ∧
      indices.map v.matcher.signalAt = (raceSignalsOf signalName raced.1).map some := by
  intro raced
  have hprepare := prepareMatch_serves hindexed h.clear
  have hmail := h.goes hprepare.goes
  have hsignal := hprepare.goes.signalAt
  simp only [raced, HistoryMatcher.matchSignalOrTimer]
  generalize v.matcher.prepareMatch = p at hprepare hmail hsignal
  cases hfound : p.pendingSignals.removeFirst signalName fun entry =>
      decide (entry.index < p.cursor) with
  | some found =>
    obtain ⟨entry, pending⟩ := found
    refine ⟨[entry.index], hprepare.after (take_serves hprepare.indexed hfound), ?_⟩
    rw [List.map_singleton, ← hsignal, (hmail.race_early hfound).1]
    rfl
  | none =>
    dsimp only
    by_cases hreplaying : (! p.isReplaying) = true
    · rw [if_pos hreplaying]
      exact ⟨[], hprepare, rfl⟩
    · rw [if_neg hreplaying]
      split
      · next recordedId recordedDuration hevent =>
        by_cases hid : recordedId.name ≠ timerId
        · rw [if_pos hid]
          exact ⟨[], hprepare, rfl⟩
        · rw [if_neg hid]
          cases durationDiffers expectedDuration recordedDuration with
          | some expected => exact ⟨[], hprepare, rfl⟩
          | none =>
            obtain ⟨hpass, hnext⟩ := pass_command hprepare.indexed hmail.clear hevent (by rintro ⟨⟩)
            have hlt := (List.getElem?_eq_some_iff.mp hevent).1
            obtain ⟨indices, hraced, hreturned⟩ := @raceLoop_serves roles signalName timerId v.cuts
              (p.events.length - (p.cursor + 1)) (p.cursor + 1) none
              { p with cursor := p.cursor + 1 } (hmail.goes hpass.goes) hpass.indexed
              (by show p.cursor + 1 + (p.events.length - (p.cursor + 1)) ≤ p.events.length; omega)
              (Nat.le_refl _) hnext (by rintro _ ⟨⟩)
            refine ⟨indices, hprepare.after (hpass.after hraced), ?_⟩
            rw [← hreturned]
            exact List.map_congr_left fun i _ =>
              ((hpass.goes.signalAt i).trans (hsignal i)).symm
      · exact ⟨[], hprepare, rfl⟩

/-! ## Child workflows -/

/-- The search for the terminal of a child changes the index only. -/
theorem findChildTerminal_serves {m : HistoryMatcher} (hindexed : Indexed roles m)
    (childId : ExecutionId) (start : Nat) :
    Serves roles m [] (m.findChildTerminal childId start).2 ∧
      (m.findChildTerminal childId start).2.events = m.events ∧
      (m.findChildTerminal childId start).2.cursor = m.cursor := by
  have hindex (index : ActivityScanIndex) (h : Indexed roles (m.withIndex index)) :
      Serves roles m [] (m.withIndex index) :=
    .quiet (quiet_withIndex m index) h
  unfold findChildTerminal findChildTerminalWith
  dsimp only
  generalize childWalk m.leavesWalk childId start m.events (m.events.length - start) start = walked
  have hnote := hindexed.noteWalk (walked.2 - start)
  cases walked.1 with
  | some terminal => exact ⟨hindex _ hnote, rfl, rfl⟩
  | none =>
    dsimp only
    split_ifs
    · exact ⟨hindex _ hnote, rfl, rfl⟩
    · exact ⟨hindex _ hnote.extend, rfl, rfl⟩

theorem signalOf_of_childResult {event : WorkflowEvent} {result : HistoryMatch}
    (h : childResult event = some result) : signalOf event = none := by
  cases event <;> first | rfl | cases h

/-- **`match_child_workflow`** delivers no signal. -/
theorem Mail.matchChildWorkflow (h : Mail v) (hindexed : Indexed roles v.matcher)
    (showJson : Json → String) (workflowName : String) (input : Json) :
    Serves roles v.matcher [] (v.matcher.matchChildWorkflow showJson workflowName input).2 := by
  have hprepare := prepareMatch_serves hindexed h.clear
  have hmail := h.goes hprepare.goes
  unfold HistoryMatcher.matchChildWorkflow
  generalize v.matcher.prepareMatch = p at hprepare hmail
  dsimp only
  split_ifs
  · exact hprepare
  · split
    · next childId recordedName recordedInput hevent =>
      split_ifs
      · exact hprepare
      · exact hprepare
      · obtain ⟨hfind, hevents, hcursor⟩ :=
          findChildTerminal_serves hprepare.indexed childId (p.cursor + 1)
        have hlt := (List.getElem?_eq_some_iff.mp hevent).1
        have hnext : p.Clear (p.cursor + 1) := hmail.clear.skip (by
          rw [signalAt_eq_none_of_role hevent nofun]
          exact nofun)
        have hclear := hfind.goes.clear hnext
        revert hfind hevents hcursor hclear
        rcases p.findChildTerminal childId (p.cursor + 1) with ⟨terminal, m₁⟩
        intro hfind hevents hcursor hclear
        dsimp only at hfind hevents hcursor hclear ⊢
        have hreplay : m₁.cursor < m₁.events.length := by
          rw [hcursor, hevents]
          exact hlt
        refine (hprepare.after hfind).after ?_
        split
        · next i result hfound =>
          obtain ⟨terminal, -, hmap⟩ := Option.bind_eq_some_iff.mp hfound
          obtain ⟨outcome, hbind, heq⟩ := Option.map_eq_some_iff.mp hmap
          obtain ⟨event, hat, hresult⟩ := Option.bind_eq_some_iff.mp hbind
          obtain ⟨rfl, rfl⟩ := Prod.mk.inj heq
          have hquiet := quiet_outOfOrder (List.getElem?_eq_some_iff.mp hat).1
            (signalIn_of_numbered hat (signalOf_of_childResult hresult))
          have hindexed₁ := indexed_outOfOrder hfind.indexed terminal
          exact (Serves.quiet hquiet hindexed₁).after (@settle_serves roles { m₁ with
            consumedOutOfOrderEvents := insert terminal m₁.consumedOutOfOrderEvents }
            (p.cursor + 1) hindexed₁ hreplay (by rw [← hevents] at hlt; exact hlt)
            (hquiet.clear hclear))
        · exact settle_serves hfind.indexed hreplay (hevents ▸ hlt) hclear
    · exact hprepare

end Wait

end Harvest.Replay
