import Harvest.Replay.Mail
import Harvest.Replay.Probe

/-!
# The methods of the matcher as steps on the signals

Every method is a sequence of the steps of `Mail`. A scan goes over the events in order and
stashes each signal that it crosses, so every signal behind it is consumed (`Clear`).

Proved here:
* `Mail.goes`: passes keep the invariant.
* `stash_goes`: stashing the event that a scan stands at is passes.
* `prepareMatch_goes`: what every match opens with is passes.
-/

namespace Harvest.Replay

open HistoryMatcher

/-- The steps from one matcher to another, whatever the cuts of the view. -/
def Goes (m m' : HistoryMatcher) : Prop :=
  ∀ cuts : List ViewCut, Relation.ReflTransGen Pass ⟨m, cuts⟩ ⟨m', cuts⟩

namespace HistoryMatcher

variable {m m' : HistoryMatcher}

/-! ## Quiet changes -/

theorem Still.refl (m : HistoryMatcher) : m.Still m :=
  ⟨rfl, fun _ => rfl, rfl, rfl, rfl, fun _ => Or.inl rfl⟩

theorem Still.trans {m₁ m₂ m₃ : HistoryMatcher} (h₁ : m₁.Still m₂) (h₂ : m₂.Still m₃) :
    m₁.Still m₃ := by
  refine ⟨h₂.length.trans h₁.length, fun i => (h₂.signalAt i).trans (h₁.signalAt i),
    h₂.cursor.trans h₁.cursor, h₂.pendingSignals.trans h₁.pendingSignals,
    h₂.delivered.trans h₁.delivered, fun i => ?_⟩
  rcases h₂.consumed i with hsame | ⟨hlt, hnone⟩
  · rw [hsame]
    exact h₁.consumed i
  · rw [h₁.length] at hlt
    rw [h₁.signalAt] at hnone
    exact Or.inr ⟨hlt, hnone⟩

/-- Consuming an event that is no signal. -/
theorem Still.consume {i : Nat} (hevents : m'.events = m.events) (hcursor : m'.cursor = m.cursor)
    (hpending : m'.pendingSignals = m.pendingSignals) (hdelivered : m'.delivered = m.delivered)
    (hconsumed : ∀ j, m'.isConsumed j = (m.isConsumed j || decide (j = i)))
    (hlt : i < m.events.length) (hnone : m.signalAt i = none) : m.Still m' := by
  refine ⟨by rw [hevents], fun j => by rw [HistoryMatcher.signalAt, hevents]; rfl, hcursor,
    hpending, hdelivered, fun j => ?_⟩
  by_cases hj : j = i
  · subst hj
    exact Or.inr ⟨hlt, hnone⟩
  · left
    rw [hconsumed, decide_eq_false hj, Bool.or_false]

theorem Still.resolveStashedTerminal (m : HistoryMatcher) (at' : Nat) :
    m.Still (m.resolveStashedTerminal at') := by
  have hinsert (external : ExternalCalls) (event : WorkflowEvent)
      (hevent : m.events[at']? = some event) (hnone : signalOf event = none) :
      m.Still { m with
        external := external
        consumedSignalEvents := insert at' m.consumedSignalEvents } := by
    refine Still.consume rfl rfl rfl rfl (fun j => ?_) (List.getElem?_eq_some_iff.mp hevent).1 ?_
    · simp only [isConsumed, Finset.mem_insert]
      by_cases hj : j = at' <;> simp [hj]
    · exact signalIn_of_numbered hevent hnone
  unfold HistoryMatcher.resolveStashedTerminal
  dsimp only
  split
  · next external hresolved =>
    cases hevent : m.events[at']? with
    | none =>
      rw [hevent] at hresolved
      cases hresolved
    | some event =>
      refine hinsert external event hevent ?_
      rw [hevent] at hresolved
      cases event <;> first | rfl | cases hresolved
  · exact Still.refl m

theorem Quiet.refl (m : HistoryMatcher) : m.Quiet m := ⟨Still.refl m, .refl⟩

theorem Quiet.trans {m₁ m₂ m₃ : HistoryMatcher} (h₁ : m₁.Quiet m₂) (h₂ : m₂.Quiet m₃) :
    m₁.Quiet m₃ :=
  ⟨h₁.toStill.trans h₂.toStill, h₁.touches.trans h₂.touches⟩

/-- A change that leaves the external calls, the events and what is consumed. -/
theorem Quiet.idle (hstill : m.Still m') (hexternal : m'.external = m.external)
    (hevents : m'.events = m.events) (hconsumed : ∀ i, m.isConsumed i → m'.isConsumed i) :
    m.Quiet m' :=
  ⟨hstill, .single (.keep hexternal (by rw [hevents]) hconsumed)⟩

theorem Quiet.scanAhead (m : HistoryMatcher) : m.Quiet m.scanAheadForExternalSignalTerminals := by
  have habsorbs : Absorbs Still :=
    { refl := Still.refl
      trans := fun _ _ _ => Still.trans
      external := fun m external => ⟨rfl, fun _ => rfl, rfl, rfl, rfl, fun _ => Or.inl rfl⟩
      resolve := Still.resolveStashedTerminal }
  exact ⟨habsorbs.scanAhead m, .single (.scan m)⟩

theorem Quiet.clear (h : m.Quiet m') {n : Nat} (hclear : m.Clear n) : m'.Clear n := by
  intro i hi hsignal
  rw [h.signalAt] at hsignal
  rcases h.consumed i with hsame | ⟨-, hnone⟩
  · rw [hsame]
    exact hclear i hi hsignal
  · rw [hnone] at hsignal
    cases hsignal

end HistoryMatcher

/-! ## Steps -/

namespace Goes

variable {m m' m₁ m₂ m₃ : HistoryMatcher}

theorem refl (m : HistoryMatcher) : Goes m m := fun _ => .refl

theorem trans (h₁ : Goes m₁ m₂) (h₂ : Goes m₂ m₃) : Goes m₁ m₃ :=
  fun cuts => (h₁ cuts).trans (h₂ cuts)

theorem quiet (h : m.Quiet m') : Goes m m' := fun cuts =>
  .single (@Pass.quiet ⟨m, cuts⟩ m' h)

theorem move {cursor : Nat} (hreplay : m.cursor < m.events.length)
    (hle : cursor ≤ m.events.length) (hclear : m.Clear cursor) :
    Goes m { m with cursor := cursor } := fun cuts =>
  .single (@Pass.move ⟨m, cuts⟩ cursor hreplay hle hclear)

theorem view (h : Goes m m') (cuts : List ViewCut) (i : Nat) :
    (⟨m', cuts⟩ : View).signalAt i = (⟨m, cuts⟩ : View).signalAt i ∧
      (((⟨m, cuts⟩ : View).signalAt i).isSome → m.isConsumed i → m'.isConsumed i) := by
  -- along the passes, whatever the view is in between
  have hrun : ∀ w, Relation.ReflTransGen Pass ⟨m, cuts⟩ w → w.signalAt i =
      (⟨m, cuts⟩ : View).signalAt i ∧ (((⟨m, cuts⟩ : View).signalAt i).isSome →
        m.isConsumed i → w.matcher.isConsumed i) := by
    intro w hw
    induction hw with
    | refl => exact ⟨rfl, fun _ => id⟩
    | tail _ hpass ih =>
      refine ⟨(hpass.signalAt i).trans ih.1, fun hi hdone => ?_⟩
      exact hpass.consumed (ih.1 ▸ hi) (ih.2 hi hdone)
  exact hrun _ (h cuts)

theorem length (h : Goes m m') : m'.events.length = m.events.length := by
  have hrun : ∀ w, Relation.ReflTransGen Pass ⟨m, []⟩ w → w.full.length =
      (⟨m, []⟩ : View).full.length := by
    intro w hw
    induction hw with
    | refl => rfl
    | tail _ hpass ih => exact hpass.length.trans ih
  have hsame := hrun _ (h [])
  simpa only [View.full, List.map_nil, List.flatten_nil, List.append_nil] using hsame

theorem signalAt_uncut (m : HistoryMatcher) (i : Nat) :
    (⟨m, []⟩ : View).signalAt i = m.signalAt i :=
  congrArg (signalIn · i) (List.append_nil m.events)

theorem signalAt (h : Goes m m') (i : Nat) : m'.signalAt i = m.signalAt i := by
  have hsame := (h.view [] i).1
  rwa [signalAt_uncut, signalAt_uncut] at hsame

theorem consumed (h : Goes m m') {i : Nat} (hi : (m.signalAt i).isSome) (hdone : m.isConsumed i) :
    m'.isConsumed i := by
  refine (h.view [] i).2 ?_ hdone
  rw [signalAt_uncut]
  exact hi

theorem clear (h : Goes m m') {n : Nat} (hclear : m.Clear n) : m'.Clear n := by
  intro i hi hsignal
  rw [h.signalAt] at hsignal
  exact h.consumed hsignal (hclear i hi hsignal)

end Goes

theorem Mail.goes {v : View} (h : Mail v) {m : HistoryMatcher} (hgoes : Goes v.matcher m) :
    Mail ⟨m, v.cuts⟩ := by
  have hrun : ∀ w, Relation.ReflTransGen Pass v w → Mail w := by
    intro w hw
    induction hw with
    | refl => exact h
    | tail _ hpass ih => exact hpass.mail ih
  exact hrun _ (hgoes v.cuts)

namespace HistoryMatcher

variable {m : HistoryMatcher}

theorem Clear.mono {n k : Nat} (h : m.Clear n) (hle : k ≤ n) : m.Clear k :=
  fun i hi => h i (Nat.lt_of_lt_of_le hi hle)

/-- A consumed position leaves the signals behind it consumed. -/
theorem Clear.skip {n : Nat} (h : m.Clear n) (hn : (m.signalAt n).isSome → m.isConsumed n) :
    m.Clear (n + 1) := by
  intro i hi hsignal
  rcases Nat.lt_succ_iff_lt_or_eq.mp hi with hlt | rfl
  · exact h i hlt hsignal
  · exact hn hsignal

theorem Clear.advance (h : m.Clear m.cursor) :
    m.Clear m.advanceToNextUnconsumedEvent.cursor := by
  intro i hi hsignal
  by_cases hlt : i < m.cursor
  · exact h i hlt hsignal
  · exact of_lt_skipFrom (Nat.not_lt.mp hlt) hi

/-- Moving past consumed events. -/
theorem advance_goes (h : m.Clear m.cursor) :
    Goes m m.advanceToNextUnconsumedEvent := by
  by_cases hlt : m.cursor < m.events.length
  · refine Goes.move hlt ?_ h.advance
    have hle := @skipFrom_le m.isConsumed (m.events.length - m.cursor) m.cursor
    show skipFrom m.isConsumed (m.events.length - m.cursor) m.cursor ≤ m.events.length
    omega
  · have hsame : m.advanceToNextUnconsumedEvent = m := by
      unfold advanceToNextUnconsumedEvent
      rw [Nat.sub_eq_zero_of_le (Nat.not_lt.mp hlt)]
      rfl
    rw [hsame]
    exact Goes.refl m

/-- Moving the cursor in replay, then past consumed events. -/
theorem settle_goes {cursor : Nat} (hreplay : m.cursor < m.events.length)
    (hle : cursor ≤ m.events.length) (hclear : m.Clear cursor) :
    Goes m { m with cursor := cursor }.advanceToNextUnconsumedEvent ∧
      { m with cursor := cursor }.advanceToNextUnconsumedEvent.Clear
        { m with cursor := cursor }.advanceToNextUnconsumedEvent.cursor := by
  have hclear' : { m with cursor := cursor }.Clear cursor := hclear
  exact ⟨(Goes.move hreplay hle hclear).trans (advance_goes hclear'), hclear'.advance⟩

/-! ## Stashing -/

theorem stash_signalAt (m : HistoryMatcher) (at' i : Nat) :
    (m.stashTransparentExternalEvent at').signalAt i = m.signalAt i := by
  unfold HistoryMatcher.signalAt
  rw [stash_events]

theorem stash_delivered (m : HistoryMatcher) (at' : Nat) :
    (m.stashTransparentExternalEvent at').delivered = m.delivered := by
  rcases m.stash_cases at' with h | ⟨_, _, h⟩ <;> rw [h]

/-- Stashing does nothing at an event that is not transparent. -/
theorem stash_eq_self {at' : Nat} (h : ¬ (m.events[at']?).any isTransparentExternalEvent) :
    m.stashTransparentExternalEvent at' = m := by
  unfold stashTransparentExternalEvent
  split <;> first
    | rfl
    | (next hevent => rw [hevent] at h; exact absurd rfl h)

theorem stash_isConsumed_of_ne {at' i : Nat} (hne : i ≠ at') :
    (m.stashTransparentExternalEvent at').isConsumed i = m.isConsumed i := by
  by_cases htransparent : (m.events[at']?).any isTransparentExternalEvent
  · rw [stash_isConsumed m at' htransparent, decide_eq_false hne, Bool.or_false]
  · rw [stash_eq_self htransparent]

/-- Stashing an event that is no signal. -/
theorem quiet_stash {at' : Nat} (hnone : m.signalAt at' = none) :
    m.Quiet (m.stashTransparentExternalEvent at') := by
  by_cases htransparent : (m.events[at']?).any isTransparentExternalEvent
  · have hlt : at' < m.events.length := by
      obtain ⟨event, hevent, -⟩ := (Option.any_eq_true _ _).mp htransparent
      exact (List.getElem?_eq_some_iff.mp hevent).1
    refine ⟨Still.consume (stash_events m at') (stash_cursor m at') ?_ (stash_delivered m at')
      (stash_isConsumed m at' htransparent) hlt hnone, .single (.stash m at')⟩
    unfold stashTransparentExternalEvent
    split
    · next hevent =>
      unfold HistoryMatcher.signalAt signalIn at hnone
      rw [hevent] at hnone
      cases hnone
    all_goals rfl
  · rw [stash_eq_self htransparent]
    exact Quiet.refl m

theorem stash_eq_stashSignal {at' : Nat} {name : String} {payload : Json}
    (h : m.signalAt at' = some (name, payload)) :
    m.stashTransparentExternalEvent at' = m.stashSignal at' name payload := by
  have hevent : m.events[at']? = some (.signalReceived name payload) := by
    unfold HistoryMatcher.signalAt signalIn at h
    cases hevent : m.events[at']? with
    | none =>
      rw [hevent] at h
      cases h
    | some event =>
      rw [hevent] at h
      cases event <;> cases h
      rfl
  unfold stashTransparentExternalEvent
  rw [hevent]

/-- A scan stashes the event it stands at. -/
theorem stash_goes {at' : Nat} (hnew : ¬ m.isConsumed at') (hclear : m.Clear at') :
    Goes m (m.stashTransparentExternalEvent at') ∧
      (m.stashTransparentExternalEvent at').Clear (at' + 1) := by
  cases hsignal : m.signalAt at' with
  | none =>
    have hquiet := quiet_stash hsignal
    refine ⟨Goes.quiet hquiet, (hquiet.clear hclear).skip ?_⟩
    rw [stash_signalAt, hsignal]
    exact nofun
  | some signal =>
    obtain ⟨name, payload⟩ := signal
    rw [stash_eq_stashSignal hsignal]
    refine ⟨fun cuts => .single (@Pass.stash ⟨m, cuts⟩ at' name payload hsignal hnew hclear), ?_⟩
    intro i hi hsome
    rw [isConsumed_stashSignal]
    rcases Nat.lt_succ_iff_lt_or_eq.mp hi with hlt | rfl
    · exact Or.inr (hclear i hlt hsome)
    · exact Or.inl rfl

end HistoryMatcher

theorem SignalStash.removeFirst_eq_some {stash pending : SignalStash} {name : String}
    {accept : StashedSignal → Bool} {entry : StashedSignal}
    (h : stash.removeFirst name accept = some (entry, pending)) :
    entry.name = name ∧ accept entry ∧ ∃ before after,
      stash.entries = before ++ entry :: after ∧ pending.entries = before ++ after ∧
        ∀ other ∈ before, ¬ (other.name = name ∧ accept other) := by
  obtain ⟨found, hfind, heq⟩ := Option.map_eq_some_iff.mp h
  obtain ⟨rfl, rfl⟩ := Prod.mk.inj heq
  obtain ⟨htakes, before, after, hentries, hbefore⟩ := List.find?_eq_some_iff_append.mp hfind
  have hskip : ∀ other ∈ before, ¬ (decide (other.name = name) && accept other) = true :=
    fun other hother => by
      have hrefused := hbefore other hother
      rw [Bool.not_eq_true'] at hrefused
      rw [hrefused]
      exact Bool.false_ne_true
  rw [Bool.and_eq_true, decide_eq_true_eq] at htakes
  refine ⟨htakes.1, htakes.2, before, after, hentries, ?_, fun other hother hboth => ?_⟩
  · rw [hentries, List.eraseP_append_right _ hskip, List.eraseP_cons_of_pos]
    rw [Bool.and_eq_true, decide_eq_true_eq]
    exact htakes
  · refine hskip other hother ?_
    rw [Bool.and_eq_true, decide_eq_true_eq]
    exact hboth

theorem SignalStash.removeFirst_eq_none {stash : SignalStash} {name : String}
    {accept : StashedSignal → Bool} (h : stash.removeFirst name accept = none) :
    ∀ entry ∈ stash.entries, ¬ (entry.name = name ∧ accept entry) := by
  intro entry hmem hboth
  have hrefused := List.find?_eq_none.mp (Option.map_eq_none_iff.mp h) entry hmem
  rw [Bool.and_eq_true, decide_eq_true_eq] at hrefused
  exact hrefused hboth

namespace HistoryMatcher

variable {m : HistoryMatcher}

/-! ## Preparing a match -/

theorem drainLoop_goes (fuel : Nat) (m : HistoryMatcher)
    (hnew : m.cursor < m.events.length → ¬ m.isConsumed m.cursor) (hclear : m.Clear m.cursor) :
    Goes m (drainLoop fuel m) ∧ (drainLoop fuel m).Clear (drainLoop fuel m).cursor ∧
      (drainLoop fuel m).delivered = m.delivered := by
  induction fuel generalizing m with
  | zero => exact ⟨Goes.refl m, hclear, rfl⟩
  | succ fuel ih =>
    -- one turn: an event is taken and the cursor moves on
    have hturn (m₁ : HistoryMatcher) (hlt : m.cursor < m.events.length) (hgoes : Goes m m₁)
        (hlength : m₁.events.length = m.events.length) (hcursor : m₁.cursor = m.cursor)
        (hclear₁ : m₁.Clear (m.cursor + 1)) (hdelivered : m₁.delivered = m.delivered) :
        let m₂ := { m₁ with cursor := m.cursor + 1 }.advanceToNextUnconsumedEvent
        Goes m (drainLoop fuel m₂) ∧ (drainLoop fuel m₂).Clear (drainLoop fuel m₂).cursor ∧
          (drainLoop fuel m₂).delivered = m.delivered := by
      obtain ⟨hmove, hnext⟩ := @settle_goes m₁ (m.cursor + 1) (by omega) (by omega) hclear₁
      obtain ⟨hrest, hrestClear, hrestDelivered⟩ := ih
        { m₁ with cursor := m.cursor + 1 }.advanceToNextUnconsumedEvent
        (advanceToNext_unconsumed _) hnext
      exact ⟨(hgoes.trans hmove).trans hrest, hrestClear, hrestDelivered.trans hdelivered⟩
    unfold drainLoop
    cases hevent : m.events[m.cursor]? with
    | none => exact ⟨Goes.refl m, hclear, rfl⟩
    | some event =>
      have hlt := (List.getElem?_eq_some_iff.mp hevent).1
      dsimp only
      split_ifs with htransparent hupdate
      · obtain ⟨hgoes, hclear₁⟩ := stash_goes (hnew hlt) hclear
        exact hturn _ hlt hgoes (by rw [stash_events]) (stash_cursor m _) hclear₁
          (stash_delivered m _)
      · have hnone : m.signalAt m.cursor = none := by
          refine signalIn_of_numbered hevent ?_
          cases event <;> first | rfl | cases hupdate
        have hquiet : m.Quiet { m with
            consumedSignalEvents := insert m.cursor m.consumedSignalEvents } := by
          refine Quiet.idle (Still.consume rfl rfl rfl rfl (fun j => ?_) hlt hnone) rfl rfl
            fun j hj => ?_
          · simp only [isConsumed, Finset.mem_insert]
            by_cases hj : j = m.cursor <;> simp [hj]
          · rw [isConsumed_iff] at hj ⊢
            exact hj.imp_right (Or.imp_left fun hmem => Finset.mem_insert_of_mem hmem)
        refine hturn _ hlt (Goes.quiet hquiet) rfl rfl ((hquiet.clear hclear).skip ?_) rfl
        rw [hquiet.signalAt, hnone]
        rintro ⟨⟩
      · exact ⟨Goes.refl m, hclear, rfl⟩

/-- **What every match opens with is steps**, and it delivers nothing. -/
theorem prepareMatch_goes (hclear : m.Clear m.cursor) :
    Goes m m.prepareMatch ∧ m.prepareMatch.Clear m.prepareMatch.cursor ∧
      m.prepareMatch.delivered = m.delivered := by
  obtain ⟨hdrain, hdrainClear, hdelivered⟩ := drainLoop_goes m.events.length
    m.advanceToNextUnconsumedEvent m.advanceToNext_unconsumed hclear.advance
  have hscan := Quiet.scanAhead m.advanceToNextUnconsumedEvent.drainEarlySignals
  refine ⟨((advance_goes hclear).trans hdrain).trans (Goes.quiet hscan), ?_,
    hscan.delivered.trans hdelivered⟩
  have hcursor : m.prepareMatch.cursor =
      m.advanceToNextUnconsumedEvent.drainEarlySignals.cursor := hscan.cursor
  rw [hcursor]
  exact hscan.clear hdrainClear

end HistoryMatcher

end Harvest.Replay
