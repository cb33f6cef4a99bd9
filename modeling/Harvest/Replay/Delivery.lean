import Harvest.Replay.Serving

/-!
# Every signal is delivered once

Sequences of calls on a new matcher. What holds between calls is `Served`; one call keeps it and
says what it delivered (`Execs`).

Proved here:
* `Served.exec`, `Served.run`: one call and all calls.
* `signals_are_delivered_exactly_once`: where each signal is after any calls, and the order in
  which plain waits deliver.
-/

namespace Harvest.Replay

open HistoryMatcher

/-! ## Sequences of calls -/

/-- The calls on a matcher. `restoreView` undoes the innermost cut. -/
inductive Call
  | matchActivity (activityName : String)
  | matchTimerStrict (timerId : String) (expectedDuration : Option UInt64)
  | matchSignal (signalName : String)
  | matchSignalWhere (signalName : String) (predicate : Json → Bool)
  | matchSignalOrTimer (signalName timerId : String) (expectedDuration : Option UInt64)
  | matchChildWorkflow (workflowName : String) (input : Json)
  | claimPendingSignal (signalName : String)
  | tryClaimPendingSignal (signalName : String)
  | cutView (horizon : Nat)
  | restoreView

namespace Call

/-- The name whose signals the call can return. -/
def signalName : Call → Option String
  | matchSignal name | matchSignalWhere name _ | matchSignalOrTimer name ..
  | claimPendingSignal name | tryClaimPendingSignal name => some name
  | _ => none

variable (showJson : Json → String)

/-- The signals that the call returns, and the view after it. -/
def exec : Call → View → List (String × Json) × View
  | matchActivity activityName, v => ([], ⟨(v.matcher.matchActivity activityName).2, v.cuts⟩)
  | matchTimerStrict timerId expectedDuration, v =>
    ([], ⟨(v.matcher.matchTimerStrict timerId expectedDuration).2, v.cuts⟩)
  | matchSignal name, v =>
    let (result, m) := v.matcher.matchSignal name
    (signalsOf name result, ⟨m, v.cuts⟩)
  | matchSignalWhere name predicate, v =>
    let (result, m) := v.matcher.matchSignalWhere name predicate
    (signalsOf name result, ⟨m, v.cuts⟩)
  | matchSignalOrTimer name timerId expectedDuration, v =>
    let (result, m) := v.matcher.matchSignalOrTimer name timerId expectedDuration
    (raceSignalsOf name result, ⟨m, v.cuts⟩)
  | matchChildWorkflow workflowName input, v =>
    ([], ⟨(v.matcher.matchChildWorkflow showJson workflowName input).2, v.cuts⟩)
  | claimPendingSignal name, v =>
    let (claimed, m) := v.matcher.claimPendingSignal name
    (claimed.map fun signal => (name, signal.2), ⟨m, v.cuts⟩)
  | tryClaimPendingSignal name, v =>
    let (claimed, m) := v.matcher.tryClaimPendingSignal name
    (claimed.toList.map fun payload => (name, payload), ⟨m, v.cuts⟩)
  | cutView horizon, v =>
    match v.matcher.cutView horizon with
    | some (cut, m) => ([], ⟨m, cut :: v.cuts⟩)
    | none => ([], v)
  | restoreView, v =>
    match v.cuts with
    | cut :: cuts => ([], ⟨v.matcher.restoreView cut, cuts⟩)
    | [] => ([], v)

/-- The calls one after the other. -/
def run : List Call → View → List (String × Json) × View
  | [], v => ([], v)
  | call :: calls, v =>
    let (returned, v) := call.exec showJson v
    let (more, v) := run calls v
    (returned ++ more, v)

end Call

/-- What holds between calls. -/
structure Served (history : List WorkflowEvent) (returned : List (String × Json)) (v : View) :
    Prop where
  mail : Mail v
  signals : ∀ i, v.signalAt i = signalIn history i
  roles : v.full.map activityScanRole = history.map activityScanRole
  indexed : Indexed (history.map activityScanRole) v.matcher
  returned : v.matcher.delivered.map (signalIn history) = returned.map some

section Run

variable {history : List WorkflowEvent} {returned : List (String × Json)} {v : View}
  {showJson : Json → String}

/-- What a call returns was visible to it. -/
theorem lt_of_returned {m : HistoryMatcher} {indices : List Nat} {more : List (String × Json)}
    (hmore : indices.map m.signalAt = more.map some) {i : Nat} (hi : i ∈ indices) :
    i < m.events.length := by
  obtain ⟨signal, -, hsignal⟩ := List.mem_map.mp (hmore ▸ List.mem_map_of_mem hi)
  refine lt_of_signalIn ?_
  show (m.signalAt i).isSome
  rw [← hsignal]
  rfl

/-- A call that leaves the cuts. -/
theorem Served.serves (h : Served history returned v) {m : HistoryMatcher} {indices : List Nat}
    {more : List (String × Json)}
    (hserves : Serves (history.map activityScanRole) v.matcher indices m)
    (hmore : indices.map v.matcher.signalAt = more.map some) :
    Served history (returned ++ more) ⟨m, v.cuts⟩ ∧
      indices.map (signalIn history) = more.map some := by
  have hsome : indices.map (signalIn history) = more.map some := by
    rw [← hmore]
    refine List.map_congr_left fun i hi => ?_
    rw [← h.signals, v.signalAt_visible (lt_of_returned hmore hi)]
  refine ⟨⟨h.mail.goes hserves.goes, fun i => ?_, ?_, hserves.indexed, ?_⟩, hsome⟩
  · exact ((hserves.goes.view v.cuts i).1).trans (h.signals i)
  · rw [← h.roles]
    unfold View.full
    rw [List.map_append, List.map_append, hserves.indexed.agree, h.indexed.agree,
      hserves.goes.length]
  · show m.delivered.map (signalIn history) = _
    rw [hserves.delivered, List.map_append, List.map_append, h.returned, hsome]

/-- The visible events have the roles of the history. -/
theorem agree_of_full {roles : List ScanRole} (h : v.full.map activityScanRole = roles) :
    v.matcher.events.map activityScanRole = roles.take v.matcher.events.length := by
  rw [← h, View.full, List.map_append, List.take_append_of_le_length (by rw [List.length_map]),
    List.take_of_length_le (by rw [List.length_map])]

/-- A call that only changes the cuts. -/
theorem Served.recut (h : Served history returned v) {w : View} (hpass : Pass v w)
    (hfull : w.full = v.full) (hdelivered : w.matcher.delivered = v.matcher.delivered)
    (hconsumed : w.matcher.isConsumed = v.matcher.isConsumed)
    (hindex : w.matcher.activityScanIndex = v.matcher.activityScanIndex) :
    Served history returned w := by
  have hroles : w.full.map activityScanRole = history.map activityScanRole := by
    rw [hfull, h.roles]
  refine ⟨hpass.mail h.mail, fun i => (hpass.signalAt i).trans (h.signals i), hroles,
    ⟨agree_of_full hroles, ?_⟩, ?_⟩
  · rw [hconsumed, hindex]
    exact h.indexed.index
  · rw [hdelivered, h.returned]

/-- What one call does: it keeps what holds between calls, and delivers what it returns. -/
structure Execs (history : List WorkflowEvent) (returned : List (String × Json)) (v : View)
    (call : Call) (more : List (String × Json)) (w : View) (indices : List Nat) : Prop where
  served : Served history (returned ++ more) w
  passes : Relation.ReflTransGen Pass v w
  delivered : w.matcher.delivered = v.matcher.delivered ++ indices
  signals : indices.map (signalIn history) = more.map some
  names : ∀ signal ∈ more, call.signalName = some signal.1
  /-- A plain wait delivers the first signal of its name. -/
  plain : ∀ name, call = .matchSignal name → ∀ i ∈ indices, ∀ j < i, ∀ payload,
    signalIn history j = some (name, payload) → j ∈ v.matcher.delivered

theorem mem_signalsOf {name : String} {result : HistoryMatch} {signal : String × Json}
    (h : signal ∈ signalsOf name result) : signal.1 = name := by
  cases result with
  | matched payload => rw [List.mem_singleton.mp h]
  | _ => cases h

theorem mem_raceSignalsOf {name : String} {result : SignalOrTimerMatch} {signal : String × Json}
    (h : signal ∈ raceSignalsOf name result) : signal.1 = name := by
  cases result with
  | signalWon payload => rw [List.mem_singleton.mp h]
  | _ => cases h

/-- **One call.** -/
theorem Served.exec (h : Served history returned v) (call : Call) :
    ∃ indices, Execs history returned v call (call.exec showJson v).1 (call.exec showJson v).2
      indices := by
  have hcall {m : HistoryMatcher} {indices : List Nat} {more : List (String × Json)}
      (hserves : Serves (history.map activityScanRole) v.matcher indices m)
      (hmore : indices.map v.matcher.signalAt = more.map some)
      (hnames : ∀ signal ∈ more, call.signalName = some signal.1)
      (hplain : ∀ name, call = .matchSignal name → ∀ i ∈ indices, ∀ j < i, ∀ payload,
        signalIn history j = some (name, payload) → j ∈ v.matcher.delivered) :
      ∃ indices, Execs history returned v call more ⟨m, v.cuts⟩ indices := by
    obtain ⟨hserved, hsignals⟩ := h.serves hserves hmore
    exact ⟨indices, hserved, hserves.goes v.cuts, hserves.delivered, hsignals, hnames, hplain⟩
  have hrecut {w : View} (hcall : ∀ name, call ≠ .matchSignal name)
      (hpasses : Relation.ReflTransGen Pass v w) (hserved : Served history returned w)
      (hdelivered : w.matcher.delivered = v.matcher.delivered) :
      ∃ indices, Execs history returned v call [] w indices := by
    refine ⟨[], ?_, hpasses, ?_, rfl, nofun, fun name heq => absurd heq (hcall name)⟩
    · rw [List.append_nil]
      exact hserved
    · rw [List.append_nil]
      exact hdelivered
  cases call with
  | matchActivity activityName =>
    exact hcall (matchActivity_serves h.indexed h.mail.clear activityName) rfl nofun nofun
  | matchTimerStrict timerId expectedDuration =>
    exact hcall (matchTimerStrict_serves h.indexed h.mail.clear timerId expectedDuration) rfl nofun
      nofun
  | matchSignal name =>
    obtain ⟨indices, hserves, hreturned, hfirst⟩ :=
      h.mail.matchSignalInner h.indexed name none none
    refine hcall hserves hreturned (fun signal hmem => congrArg some (mem_signalsOf hmem).symm) ?_
    rintro _ ⟨rfl⟩ i hi j hlt payload hj
    refine hfirst rfl i hi j hlt payload ?_
    rw [← v.signalAt_visible (Nat.lt_trans hlt (lt_of_returned hreturned hi)), h.signals, hj]
  | matchSignalWhere name predicate =>
    obtain ⟨indices, hserves, hreturned, -⟩ :=
      h.mail.matchSignalInner h.indexed name none (some fun _ payload => predicate payload)
    exact hcall hserves hreturned (fun signal hmem => congrArg some (mem_signalsOf hmem).symm) nofun
  | matchSignalOrTimer name timerId expectedDuration =>
    obtain ⟨indices, hserves, hreturned⟩ :=
      h.mail.matchSignalOrTimer h.indexed name timerId expectedDuration
    exact hcall hserves hreturned (fun signal hmem => congrArg some (mem_raceSignalsOf hmem).symm)
      nofun
  | matchChildWorkflow workflowName input =>
    exact hcall (h.mail.matchChildWorkflow h.indexed showJson workflowName input) rfl nofun nofun
  | claimPendingSignal name =>
    obtain ⟨indices, hserves, hreturned⟩ := h.mail.claimPendingSignal h.indexed name
    refine hcall hserves hreturned (fun signal hmem => ?_) nofun
    obtain ⟨claimed, -, rfl⟩ := List.mem_map.mp hmem
    rfl
  | tryClaimPendingSignal name =>
    obtain ⟨indices, hserves, hreturned⟩ := h.mail.tryClaimPendingSignal h.indexed name
    refine hcall hserves hreturned (fun signal hmem => ?_) nofun
    obtain ⟨payload, -, rfl⟩ := List.mem_map.mp hmem
    rfl
  | cutView horizon =>
    rw [Call.exec]
    cases hcut : v.matcher.cutView horizon with
    | none => exact hrecut nofun .refl h rfl
    | some found =>
      obtain ⟨cut, m⟩ := found
      have hfull := full_cut hcut
      have hpass := Pass.cut hcut
      obtain ⟨-, rfl, rfl⟩ := cutView_eq_some hcut
      exact hrecut nofun (.single hpass) (h.recut hpass hfull rfl rfl rfl) rfl
  | restoreView =>
    rw [Call.exec]
    obtain ⟨m, cuts⟩ := v
    cases cuts with
    | nil => exact hrecut nofun .refl h rfl
    | cons cut cuts =>
      have hpass := Pass.restore m cut cuts
      exact hrecut nofun (.single hpass) (h.recut hpass (full_restore m cut cuts) rfl rfl rfl) rfl

theorem Served.new (history : List WorkflowEvent) :
    Served history [] ⟨HistoryMatcher.new history, []⟩ := by
  have hfull : (⟨HistoryMatcher.new history, []⟩ : View).full = history := List.append_nil history
  have hroles : (⟨HistoryMatcher.new history, []⟩ : View).full.map activityScanRole =
      history.map activityScanRole := by
    rw [hfull]
  exact ⟨Mail.new history, fun i => congrArg (signalIn · i) hfull, hroles,
    ⟨agree_of_full hroles, indexes_empty _ _⟩, rfl⟩

/-- **All calls.** -/
theorem Served.run (h : Served history returned v) (calls : List Call) :
    Served history (returned ++ (Call.run showJson calls v).1) (Call.run showJson calls v).2 := by
  induction calls generalizing returned v with
  | nil =>
    rw [Call.run, List.append_nil]
    exact h
  | cons call calls ih =>
    obtain ⟨indices, hexecs⟩ := @Served.exec history returned v showJson h call
    have hrest := ih hexecs.served
    rw [List.append_assoc] at hrest
    exact hrest

/-! ## Plain waits -/

/-- The delivered signals of a name are the first ones, in their order. -/
structure InOrder (history : List WorkflowEvent) (name : String) (delivered : List Nat) :
    Prop where
  sorted : delivered.Pairwise fun i j => (∃ payload, signalIn history i = some (name, payload)) →
    (∃ payload, signalIn history j = some (name, payload)) → i < j
  noGap : ∀ i ∈ delivered, (∃ payload, signalIn history i = some (name, payload)) →
    ∀ j < i, (∃ payload, signalIn history j = some (name, payload)) → j ∈ delivered

/-- One call delivers other names, or the next signal of the name. -/
theorem Execs.inOrder {call : Call} {more : List (String × Json)} {w : View} {indices : List Nat}
    {name : String} (h : Execs history returned v call more w indices)
    (honly : call.signalName = some name → call = .matchSignal name)
    (hone : call = .matchSignal name → more.length ≤ 1)
    (hbefore : InOrder history name v.matcher.delivered) :
    InOrder history name w.matcher.delivered := by
  have hnodup := h.served.mail.nodup
  rw [h.delivered] at hnodup ⊢
  by_cases hname : call.signalName = some name
  · -- a plain wait: at most one signal, and all before it are delivered
    have hcall := honly hname
    have hfirst := h.plain name hcall
    have hlength : indices.length ≤ 1 := by
      have hsame := congrArg List.length h.signals
      rw [List.length_map, List.length_map] at hsame
      exact hsame.le.trans (hone hcall)
    have hnext (i : Nat) (hi : i ∈ indices)
        (hnamed : ∃ payload, signalIn history i = some (name, payload)) (j : Nat)
        (hj : j ∈ v.matcher.delivered)
        (hjnamed : ∃ payload, signalIn history j = some (name, payload)) : j < i := by
      by_contra hge
      have hnot : i ∉ v.matcher.delivered := fun hmem =>
        (List.nodup_append.mp hnodup).2.2 i hmem i hi rfl
      rcases Nat.eq_or_lt_of_le (Nat.not_lt.mp hge) with rfl | hlt
      · exact hnot hj
      · exact hnot (hbefore.noGap j hj hjnamed i hlt hnamed)
    refine ⟨List.pairwise_append.mpr ⟨hbefore.sorted, ?_, fun j hj i hi hjnamed hnamed =>
      hnext i hi hnamed j hj hjnamed⟩, fun i hi hnamed j hlt hjnamed => ?_⟩
    · match indices, hlength with
      | [], _ => exact List.Pairwise.nil
      | [i], _ => exact List.pairwise_singleton _ _
    · rcases List.mem_append.mp hi with hi | hi
      · exact List.mem_append_left _ (hbefore.noGap i hi hnamed j hlt hjnamed)
      · obtain ⟨payload, hj⟩ := hjnamed
        exact List.mem_append_left _ (hfirst i hi j hlt payload hj)
  · -- another name
    have hother (i : Nat) (hi : i ∈ indices) :
        ¬ ∃ payload, signalIn history i = some (name, payload) := by
      rintro ⟨payload, hsignal⟩
      have hmem : signalIn history i ∈ more.map some := h.signals ▸ List.mem_map_of_mem hi
      obtain ⟨signal, hsignal', heq⟩ := List.mem_map.mp hmem
      rw [hsignal] at heq
      obtain rfl := Option.some.inj heq
      exact hname (h.names _ hsignal')
    refine ⟨List.pairwise_append.mpr ⟨hbefore.sorted, ?_, fun j _ i hi _ hnamed =>
      absurd hnamed (hother i hi)⟩, fun i hi hnamed j hlt hjnamed => ?_⟩
    · exact List.pairwise_of_forall_mem_list fun i hi j _ hnamed => absurd hnamed (hother i hi)
    · rcases List.mem_append.mp hi with hi | hi
      · exact List.mem_append_left _ (hbefore.noGap i hi hnamed j hlt hjnamed)
      · exact absurd hnamed (hother i hi)

theorem length_signalsOf (name : String) (result : HistoryMatch) :
    (signalsOf name result).length ≤ 1 := by
  cases result with
  | matched payload => exact Nat.le_refl 1
  | _ => exact Nat.zero_le 1

theorem Served.run_inOrder (h : Served history returned v) {name : String} (calls : List Call)
    (honly : ∀ call ∈ calls, call.signalName = some name → call = .matchSignal name)
    (hbefore : InOrder history name v.matcher.delivered) :
    InOrder history name (Call.run showJson calls v).2.matcher.delivered := by
  induction calls generalizing returned v with
  | nil => exact hbefore
  | cons call calls ih =>
    obtain ⟨indices, hexecs⟩ := @Served.exec history returned v showJson h call
    refine ih hexecs.served (fun call hmem => honly call (List.mem_cons_of_mem _ hmem))
      (hexecs.inOrder (honly call List.mem_cons_self) ?_ hbefore)
    rintro rfl
    exact length_signalsOf name _

end Run

/-- **Signals are delivered exactly once.** After any calls on a new matcher of the history, every
visible signal waits ahead of the cursor, or is once in the stash, or was returned by exactly one
call. The stash is in history order, and so are the deliveries of a name that only plain waits
take, without a gap. `delivered` is what the calls returned. -/
theorem signals_are_delivered_exactly_once (showJson : Json → String)
    (history : List WorkflowEvent) (calls : List Call) :
    let returned := (Call.run showJson calls ⟨new history, []⟩).1
    let m := (Call.run showJson calls ⟨new history, []⟩).2.matcher
    let stashed := m.pendingSignals.entries.map StashedSignal.index
    (∀ i < m.events.length, (signalIn history i).isSome →
      (¬ m.isConsumed i ∧ m.cursor ≤ i ∧ i ∉ stashed ∧ i ∉ m.delivered) ∨
      (m.isConsumed i ∧ stashed.count i = 1 ∧ i ∉ m.delivered) ∨
      (m.isConsumed i ∧ i ∉ stashed ∧ m.delivered.count i = 1)) ∧
    m.delivered.map (signalIn history) = returned.map some ∧
    stashed.Pairwise (· < ·) ∧
    ∀ name, (∀ call ∈ calls, call.signalName = some name → call = .matchSignal name) →
      InOrder history name m.delivered := by
  intro returned m stashed
  have hserved : Served history returned (Call.run showJson calls ⟨new history, []⟩).2 :=
    (Served.new history).run calls
  have hmail := hserved.mail
  have hsorted : stashed.Pairwise (· < ·) :=
    List.pairwise_map.mpr (List.pairwise_append.mp hmail.sorted).1
  refine ⟨fun i hlt hsome => ?_, hserved.returned, hsorted, fun name honly => ?_⟩
  · have hsignal : ((Call.run showJson calls ⟨new history, []⟩).2.signalAt i).isSome := by
      rw [hserved.signals]
      exact hsome
    have hheld (hmem : i ∈ stashed) : m.isConsumed i ∧ i ∉ m.delivered := by
      obtain ⟨entry, hentry, rfl⟩ := List.mem_map.mp hmem
      have hkept := List.mem_append_left ((Call.run showJson calls ⟨new history, []⟩).2.cuts.map
        ViewCut.hiddenSignals).flatten hentry
      exact ⟨hmail.consumed entry hkept, fun hdelivered =>
        (hmail.returned _ hdelivered).2.2 (List.mem_map_of_mem hkept)⟩
    by_cases hdone : m.isConsumed i
    · by_cases hdelivered : i ∈ m.delivered
      · refine Or.inr (Or.inr ⟨hdone, fun hmem => (hheld hmem).2 hdelivered, ?_⟩)
        exact List.count_eq_one_of_mem hmail.nodup hdelivered
      · refine Or.inr (Or.inl ⟨hdone, ?_, hdelivered⟩)
        have hnodup : stashed.Nodup := hsorted.imp fun hlt => Nat.ne_of_lt hlt
        refine List.count_eq_one_of_mem hnodup ?_
        obtain ⟨entry, hentry, hindex⟩ :=
          List.mem_map.mp ((hmail.kept i hsignal hdone).resolve_right hdelivered)
        rcases List.mem_append.mp hentry with hentry | hentry
        · exact List.mem_map.mpr ⟨entry, hentry, hindex⟩
        · have hle : m.events.length ≤ entry.index := hmail.boxed.le entry hentry
          omega
    · refine Or.inl ⟨hdone, ?_, fun hmem => hdone (hheld hmem).1, fun hmem =>
        hdone (hmail.returned i hmem).2.1⟩
      by_contra hbehind
      exact hdone (hmail.cursor i (Nat.not_le.mp hbehind) hsignal)
  · exact (Served.new history).run_inOrder calls honly ⟨List.Pairwise.nil, nofun⟩

end Harvest.Replay
