import Harvest.Replay.Memo
import Mathlib.Logic.Relation

/-!
# Where the signals of a history are

A matcher never loses a signal: it is ahead of every consumed one, or in the stash, or delivered.
The invariant is about the whole history, with the cuts of the view that hide its tail.

`Pass` says what a method of the matcher can do to the signals: consume other events, move the
cursor over consumed signals, stash or deliver the first unconsumed signal, deliver stashed ones,
and cut and restore the view. Every method is a sequence of such passes; `Calls` proves it for the
methods of this model. A `Step` may also append what was consumed live.

Proved here:
* `Pass.mail`: every pass keeps the invariant.
* `Reachable.mail_or_spent`: it holds in every reachable state, until events are appended; from
  then on the cursor stays at the end.
-/

namespace Harvest.Replay

open HistoryMatcher

/-! ## Signals of a history -/

/-- The name and the payload of a signal. -/
def signalOf : WorkflowEvent → Option (String × Json)
  | .signalReceived name payload => some (name, payload)
  | _ => none

def signalIn (events : List WorkflowEvent) (i : Nat) : Option (String × Json) :=
  (events[i]?).bind signalOf

theorem signalIn_append_left {events tail : List WorkflowEvent} {i : Nat} (h : i < events.length) :
    signalIn (events ++ tail) i = signalIn events i := by
  unfold signalIn
  rw [List.getElem?_append_left h]

theorem lt_of_signalIn {events : List WorkflowEvent} {i : Nat} (h : (signalIn events i).isSome) :
    i < events.length := by
  by_contra hge
  unfold signalIn at h
  rw [List.getElem?_eq_none (Nat.not_lt.mp hge)] at h
  cases h

namespace HistoryMatcher

def signalAt (m : HistoryMatcher) (i : Nat) : Option (String × Json) := signalIn m.events i

/-- Every signal before `at'` is consumed. -/
def Clear (m : HistoryMatcher) (at' : Nat) : Prop :=
  ∀ i < at', (m.signalAt i).isSome → m.isConsumed i

/-- The two matchers differ in nothing that concerns a signal. -/
structure Still (m m' : HistoryMatcher) : Prop where
  length : m'.events.length = m.events.length
  signalAt : ∀ i, m'.signalAt i = m.signalAt i
  cursor : m'.cursor = m.cursor
  pendingSignals : m'.pendingSignals = m.pendingSignals
  delivered : m'.delivered = m.delivered
  consumed : ∀ i, m'.isConsumed i = m.isConsumed i ∨ i < m.events.length ∧ m.signalAt i = none

/-- A method does not touch a signal; it may touch the external calls. -/
structure Quiet (m m' : HistoryMatcher) : Prop extends Still m m' where
  touches : Relation.ReflTransGen Touch m m'

end HistoryMatcher

/-! ## Views -/

/-- A matcher with the cuts of its view, the innermost first. -/
structure View where
  matcher : HistoryMatcher
  cuts : List ViewCut

namespace View

/-- The whole history. -/
def full (v : View) : List WorkflowEvent := v.matcher.events ++ (v.cuts.map ViewCut.tail).flatten

/-- The signals that were stashed and not delivered yet. -/
def held (v : View) : List StashedSignal :=
  v.matcher.pendingSignals.entries ++ (v.cuts.map ViewCut.hiddenSignals).flatten

def signalAt (v : View) (i : Nat) : Option (String × Json) := signalIn v.full i

theorem signalAt_visible (v : View) {i : Nat} (h : i < v.matcher.events.length) :
    v.signalAt i = v.matcher.signalAt i :=
  signalIn_append_left h

end View

/-- What a method of the matcher can do to the signals. -/
inductive Pass : View → View → Prop
  | quiet {v : View} {m : HistoryMatcher} (h : v.matcher.Quiet m) : Pass v ⟨m, v.cuts⟩
  /-- The cursor moves only in replay, and not past an unconsumed signal. -/
  | move {v : View} (cursor : Nat) (hreplay : v.matcher.cursor < v.matcher.events.length)
      (hle : cursor ≤ v.matcher.events.length) (hclear : v.matcher.Clear cursor) :
      Pass v ⟨{ v.matcher with cursor := cursor }, v.cuts⟩
  | stash {v : View} (at' : Nat) (name : String) (payload : Json)
      (hsignal : v.matcher.signalAt at' = some (name, payload))
      (hnew : ¬ v.matcher.isConsumed at') (hclear : v.matcher.Clear at') :
      Pass v ⟨v.matcher.stashSignal at' name payload, v.cuts⟩
  | deliver {v : View} (at' : Nat) (hsignal : (v.matcher.signalAt at').isSome)
      (hnew : ¬ v.matcher.isConsumed at') (hclear : v.matcher.Clear at') :
      Pass v ⟨v.matcher.deliverAt at', v.cuts⟩
  | take {v : View} (taken rest : List StashedSignal)
      (hrest : rest.Sublist v.matcher.pendingSignals.entries)
      (hall : (taken ++ rest).Perm v.matcher.pendingSignals.entries) :
      Pass v ⟨{ v.matcher with
        pendingSignals := ⟨rest⟩
        delivered := v.matcher.delivered ++ taken.map StashedSignal.index }, v.cuts⟩
  | cut {v : View} {horizon : Nat} {cut : ViewCut} {m : HistoryMatcher}
      (h : v.matcher.cutView horizon = some (cut, m)) : Pass v ⟨m, cut :: v.cuts⟩
  | restore (m : HistoryMatcher) (cut : ViewCut) (cuts : List ViewCut) :
      Pass ⟨m, cut :: cuts⟩ ⟨m.restoreView cut, cuts⟩

/-- A method, or what was consumed live. -/
inductive Step : View → View → Prop
  | pass {v w : View} (h : Pass v w) : Step v w
  | append (m : HistoryMatcher) (events : List WorkflowEvent) :
      Step ⟨m, []⟩ ⟨m.appendConsumed events, []⟩

/-- The states that the calls on a history can reach. -/
def Reachable (history : List WorkflowEvent) (v : View) : Prop :=
  Relation.ReflTransGen Step ⟨new history, []⟩ v

/-! ## The invariant -/

/-- The hidden signals of each cut are in the tail that it hides, which starts at `start`. -/
def Boxed : Nat → List ViewCut → Prop
  | _, [] => True
  | start, cut :: cuts =>
    (∀ entry ∈ cut.hiddenSignals, start ≤ entry.index ∧ entry.index < start + cut.tail.length) ∧
      Boxed (start + cut.tail.length) cuts

/-- Where the signals are. -/
structure Mail (v : View) : Prop where
  /-- A held entry is a signal of the history. -/
  signal : ∀ entry ∈ v.held, v.signalAt entry.index = some (entry.name, entry.payload)
  consumed : ∀ entry ∈ v.held, v.matcher.isConsumed entry.index
  sorted : v.held.Pairwise fun a b => a.index < b.index
  visible : ∀ entry ∈ v.matcher.pendingSignals.entries, entry.index < v.matcher.events.length
  boxed : Boxed v.matcher.events.length v.cuts
  /-- The consumed signals are the first ones. -/
  inOrder : ∀ i j, i < j → (v.signalAt i).isSome → (v.signalAt j).isSome →
    v.matcher.isConsumed j → v.matcher.isConsumed i
  cursor : ∀ i < v.matcher.cursor, (v.signalAt i).isSome → v.matcher.isConsumed i
  cuts : ∀ cut ∈ v.cuts, ∀ i < cut.cursor, (v.signalAt i).isSome → v.matcher.isConsumed i
  nodup : v.matcher.delivered.Nodup
  returned : ∀ i ∈ v.matcher.delivered,
    (v.signalAt i).isSome ∧ v.matcher.isConsumed i ∧ i ∉ v.held.map StashedSignal.index
  kept : ∀ i, (v.signalAt i).isSome → v.matcher.isConsumed i →
    i ∈ v.held.map StashedSignal.index ∨ i ∈ v.matcher.delivered

/-- The cursor is at the end of the whole history, also after the view is restored. -/
structure Spent (v : View) : Prop where
  cursor : v.full.length ≤ v.matcher.cursor
  cuts : ∀ cut ∈ v.cuts, v.full.length ≤ cut.cursor

/-! ## One step -/

section Steps

variable {v : View} {m : HistoryMatcher}

theorem Boxed.le {start : Nat} {cuts : List ViewCut} (h : Boxed start cuts) :
    ∀ entry ∈ (cuts.map ViewCut.hiddenSignals).flatten, start ≤ entry.index := by
  induction cuts generalizing start with
  | nil =>
    intro entry hmem
    cases hmem
  | cons cut cuts ih =>
    intro entry hmem
    rcases List.mem_append.mp hmem with hmem | hmem
    · exact (h.1 entry hmem).1
    · exact Nat.le_trans (Nat.le_add_right _ _) (ih h.2 entry hmem)

theorem signalIn_append_congr {events events' tail : List WorkflowEvent}
    (hlength : events'.length = events.length)
    (h : ∀ i, signalIn events' i = signalIn events i) (i : Nat) :
    signalIn (events' ++ tail) i = signalIn (events ++ tail) i := by
  by_cases hi : i < events.length
  · rw [signalIn_append_left hi, signalIn_append_left (hlength ▸ hi), h i]
  · unfold signalIn
    rw [List.getElem?_append_right (by omega), List.getElem?_append_right (by omega), hlength]

theorem Mail.isSome_held (h : Mail v) {entry : StashedSignal} (hmem : entry ∈ v.held) :
    (v.signalAt entry.index).isSome := by
  rw [h.signal entry hmem]
  rfl

/-- A step that does not touch the signals. -/
theorem Mail.quiet (h : Mail v) (hquiet : v.matcher.Quiet m) : Mail ⟨m, v.cuts⟩ := by
  have hsignal (i : Nat) : (⟨m, v.cuts⟩ : View).signalAt i = v.signalAt i :=
    signalIn_append_congr hquiet.length hquiet.signalAt i
  have hheld : (⟨m, v.cuts⟩ : View).held = v.held := by
    unfold View.held
    rw [hquiet.pendingSignals]
  have hconsumed (i : Nat) (hi : (v.signalAt i).isSome) :
      m.isConsumed i = v.matcher.isConsumed i := by
    rcases hquiet.consumed i with hsame | ⟨hlt, hnone⟩
    · exact hsame
    · rw [v.signalAt_visible hlt, hnone] at hi
      cases hi
  refine ⟨?_, ?_, ?_, ?_, ?_, ?_, ?_, ?_, ?_, ?_, ?_⟩
  · rw [hheld]
    intro entry hmem
    rw [hsignal]
    exact h.signal entry hmem
  · rw [hheld]
    intro entry hmem
    show m.isConsumed entry.index
    rw [hconsumed _ (h.isSome_held hmem)]
    exact h.consumed entry hmem
  · rw [hheld]
    exact h.sorted
  · show ∀ entry ∈ m.pendingSignals.entries, entry.index < m.events.length
    rw [hquiet.pendingSignals, hquiet.length]
    exact h.visible
  · show Boxed m.events.length v.cuts
    rw [hquiet.length]
    exact h.boxed
  · intro i j hij hi hj hconsumedj
    rw [hsignal] at hi hj
    show m.isConsumed i
    rw [hconsumed i hi]
    rw [show m.isConsumed j = _ from hconsumed j hj] at hconsumedj
    exact h.inOrder i j hij hi hj hconsumedj
  · intro i hlt hi
    rw [hsignal] at hi
    show m.isConsumed i
    rw [hconsumed i hi]
    exact h.cursor i (hquiet.cursor ▸ hlt) hi
  · intro cut hcut i hlt hi
    rw [hsignal] at hi
    show m.isConsumed i
    rw [hconsumed i hi]
    exact h.cuts cut hcut i hlt hi
  · show m.delivered.Nodup
    rw [hquiet.delivered]
    exact h.nodup
  · show ∀ i ∈ m.delivered, _
    rw [hquiet.delivered]
    intro i hmem
    obtain ⟨hi, hconsumedi, hnot⟩ := h.returned i hmem
    refine ⟨(hsignal i).symm ▸ hi, ?_, hheld.symm ▸ hnot⟩
    show m.isConsumed i
    rw [hconsumed i hi]
    exact hconsumedi
  · intro i hi hconsumedi
    rw [hsignal] at hi
    rw [show m.isConsumed i = _ from hconsumed i hi] at hconsumedi
    rw [hheld]
    show _ ∨ i ∈ m.delivered
    rw [hquiet.delivered]
    exact h.kept i hi hconsumedi

theorem Mail.move (h : Mail v) {cursor : Nat} (hle : cursor ≤ v.matcher.events.length)
    (hclear : v.matcher.Clear cursor) : Mail ⟨{ v.matcher with cursor := cursor }, v.cuts⟩ := by
  refine ⟨h.signal, h.consumed, h.sorted, h.visible, h.boxed, h.inOrder, ?_, h.cuts, h.nodup,
    h.returned, h.kept⟩
  intro i hlt hi
  have hvisible : (v.matcher.signalAt i).isSome := by
    rw [← v.signalAt_visible (Nat.lt_of_lt_of_le hlt hle)]
    exact hi
  exact hclear i hlt hvisible

/-- Every held signal is before an unconsumed one. -/
theorem Mail.held_lt (h : Mail v) {at' : Nat} (hsignal : (v.signalAt at').isSome)
    (hnew : ¬ v.matcher.isConsumed at') {entry : StashedSignal} (hmem : entry ∈ v.held) :
    entry.index < at' := by
  have hconsumed := h.consumed entry hmem
  by_contra hge
  rcases Nat.eq_or_lt_of_le (Nat.not_lt.mp hge) with heq | hlt
  · rw [← heq] at hconsumed
    exact hnew hconsumed
  · exact hnew (h.inOrder at' entry.index hlt hsignal (h.isSome_held hmem) hconsumed)

/-- A cut hides no signal while there is an unconsumed one in view. -/
theorem Mail.hidden_eq_nil (h : Mail v) {at' : Nat} (hvisible : at' < v.matcher.events.length)
    (hsignal : (v.signalAt at').isSome) (hnew : ¬ v.matcher.isConsumed at') :
    (v.cuts.map ViewCut.hiddenSignals).flatten = [] := by
  rw [List.eq_nil_iff_forall_not_mem]
  intro entry hmem
  have hle := h.boxed.le entry hmem
  have hlt := h.held_lt hsignal hnew (List.mem_append_right _ hmem)
  omega

theorem isConsumed_stashSignal (m : HistoryMatcher) (at' : Nat) (name : String) (payload : Json)
    (i : Nat) : (m.stashSignal at' name payload).isConsumed i ↔ i = at' ∨ m.isConsumed i := by
  rw [isConsumed_iff, isConsumed_iff, stashSignal, Finset.mem_insert]
  tauto

theorem isConsumed_deliverAt (m : HistoryMatcher) (at' i : Nat) :
    (m.deliverAt at').isConsumed i ↔ i = at' ∨ m.isConsumed i := by
  rw [isConsumed_iff, isConsumed_iff, deliverAt, Finset.mem_insert]
  tauto

/-- Consuming the first unconsumed signal keeps the consumed signals first. -/
theorem Mail.inOrder_consume (h : Mail v) {at' : Nat} (hvisible : at' < v.matcher.events.length)
    (hclear : v.matcher.Clear at') {consumed : Nat → Prop}
    (hconsumed : ∀ i, consumed i ↔ i = at' ∨ v.matcher.isConsumed i) (i j : Nat) (hij : i < j)
    (hi : (v.signalAt i).isSome) (hj : (v.signalAt j).isSome) (hdone : consumed j) :
    consumed i := by
  rw [hconsumed]
  rcases (hconsumed j).mp hdone with rfl | hdone
  · refine Or.inr (hclear i hij ?_)
    rw [← v.signalAt_visible (Nat.lt_trans hij hvisible)]
    exact hi
  · exact Or.inr (h.inOrder i j hij hi hj hdone)

theorem Mail.stash (h : Mail v) {at' : Nat} {name : String} {payload : Json}
    (hsignal : v.matcher.signalAt at' = some (name, payload))
    (hnew : ¬ v.matcher.isConsumed at') (hclear : v.matcher.Clear at') :
    Mail ⟨v.matcher.stashSignal at' name payload, v.cuts⟩ := by
  have hvisible : at' < v.matcher.events.length := lt_of_signalIn (by
    show (v.matcher.signalAt at').isSome
    rw [hsignal]
    rfl)
  have hat : v.signalAt at' = some (name, payload) := by rw [v.signalAt_visible hvisible, hsignal]
  have hsome : (v.signalAt at').isSome := by rw [hat]; rfl
  have hheld : (⟨v.matcher.stashSignal at' name payload, v.cuts⟩ : View).held =
      v.held ++ [⟨name, payload, at'⟩] := by
    have hnone := h.hidden_eq_nil hvisible hsome hnew
    unfold View.held
    rw [hnone, List.append_nil, List.append_nil]
    rfl
  have hconsumed := isConsumed_stashSignal v.matcher at' name payload
  refine ⟨?_, ?_, ?_, ?_, h.boxed, h.inOrder_consume hvisible hclear hconsumed, ?_, ?_, h.nodup,
    ?_, ?_⟩
  · rw [hheld]
    intro entry hmem
    rcases List.mem_append.mp hmem with hmem | hmem
    · exact h.signal entry hmem
    · rw [List.mem_singleton.mp hmem]
      exact hat
  · rw [hheld]
    intro entry hmem
    rw [hconsumed]
    rcases List.mem_append.mp hmem with hmem | hmem
    · exact Or.inr (h.consumed entry hmem)
    · rw [List.mem_singleton.mp hmem]
      exact Or.inl rfl
  · rw [hheld, List.pairwise_append]
    refine ⟨h.sorted, List.pairwise_singleton _ _, fun entry hmem other hother => ?_⟩
    rw [List.mem_singleton.mp hother]
    exact h.held_lt hsome hnew hmem
  · intro entry hmem
    rcases List.mem_append.mp hmem with hmem | hmem
    · exact h.visible entry hmem
    · rw [List.mem_singleton.mp hmem]
      exact hvisible
  · intro i hlt hi
    rw [hconsumed]
    exact Or.inr (h.cursor i hlt hi)
  · intro cut hcut i hlt hi
    rw [hconsumed]
    exact Or.inr (h.cuts cut hcut i hlt hi)
  · intro i hmem
    obtain ⟨hi, hdone, hnot⟩ := h.returned i hmem
    refine ⟨hi, (hconsumed i).mpr (Or.inr hdone), ?_⟩
    rw [hheld, List.map_append, List.mem_append, not_or]
    refine ⟨hnot, fun hmem => ?_⟩
    rw [List.mem_singleton.mp hmem] at hdone
    exact hnew hdone
  · intro i hi hdone
    rw [hheld, List.map_append, List.mem_append]
    rcases (hconsumed i).mp hdone with rfl | hdone
    · exact Or.inl (Or.inr (List.mem_singleton.mpr rfl))
    · exact (h.kept i hi hdone).imp_left Or.inl

theorem Mail.deliver (h : Mail v) {at' : Nat} (hsignal : (v.matcher.signalAt at').isSome)
    (hnew : ¬ v.matcher.isConsumed at') (hclear : v.matcher.Clear at') :
    Mail ⟨v.matcher.deliverAt at', v.cuts⟩ := by
  have hvisible : at' < v.matcher.events.length := lt_of_signalIn hsignal
  have hsome : (v.signalAt at').isSome := by rw [v.signalAt_visible hvisible]; exact hsignal
  have hconsumed := isConsumed_deliverAt v.matcher at'
  refine ⟨h.signal, ?_, h.sorted, h.visible, h.boxed,
    h.inOrder_consume hvisible hclear hconsumed, ?_, ?_, ?_, ?_, ?_⟩
  · intro entry hmem
    exact (hconsumed _).mpr (Or.inr (h.consumed entry hmem))
  · intro i hlt hi
    exact (hconsumed i).mpr (Or.inr (h.cursor i hlt hi))
  · intro cut hcut i hlt hi
    exact (hconsumed i).mpr (Or.inr (h.cuts cut hcut i hlt hi))
  · show (v.matcher.delivered ++ [at']).Nodup
    rw [List.nodup_append]
    refine ⟨h.nodup, List.nodup_singleton _, fun i hmem j hj heq => ?_⟩
    have hdone := (h.returned i hmem).2.1
    rw [heq, List.mem_singleton.mp hj] at hdone
    exact hnew hdone
  · intro i hmem
    rcases List.mem_append.mp hmem with hmem | hmem
    · obtain ⟨hi, hdone, hnot⟩ := h.returned i hmem
      exact ⟨hi, (hconsumed i).mpr (Or.inr hdone), hnot⟩
    · rw [List.mem_singleton.mp hmem]
      refine ⟨hsome, (hconsumed at').mpr (Or.inl rfl), fun hheld => ?_⟩
      obtain ⟨entry, hentry, heq⟩ := List.mem_map.mp hheld
      have hlt := h.held_lt hsome hnew hentry
      omega
  · intro i hi hdone
    rcases (hconsumed i).mp hdone with rfl | hdone
    · exact Or.inr (List.mem_append_right _ (List.mem_singleton.mpr rfl))
    · exact (h.kept i hi hdone).imp_right (List.mem_append_left _)

theorem Mail.take (h : Mail v) {taken rest : List StashedSignal}
    (hrest : rest.Sublist v.matcher.pendingSignals.entries)
    (hall : (taken ++ rest).Perm v.matcher.pendingSignals.entries) :
    Mail ⟨{ v.matcher with
      pendingSignals := ⟨rest⟩
      delivered := v.matcher.delivered ++ taken.map StashedSignal.index }, v.cuts⟩ := by
  set hidden := (v.cuts.map ViewCut.hiddenSignals).flatten
  have hsub : (rest ++ hidden).Sublist v.held := hrest.append (List.Sublist.refl hidden)
  have htaken (entry : StashedSignal) (hmem : entry ∈ taken) : entry ∈ v.held :=
    List.mem_append_left _ (hall.mem_iff.mp (List.mem_append_left _ hmem))
  -- no index is held twice
  have hindices : (v.held.map StashedSignal.index).Nodup :=
    (List.pairwise_map.mpr h.sorted).imp Nat.ne_of_lt
  have hperm : (taken ++ (rest ++ hidden)).Perm v.held := by
    rw [← List.append_assoc]
    exact hall.append_right hidden
  have hsplit := (hperm.map StashedSignal.index).nodup_iff.mpr hindices
  rw [List.map_append, List.nodup_append] at hsplit
  obtain ⟨htakenNodup, -, hdisjoint⟩ := hsplit
  refine ⟨fun entry hmem => h.signal entry (hsub.subset hmem),
    fun entry hmem => h.consumed entry (hsub.subset hmem), h.sorted.sublist hsub,
    fun entry hmem => h.visible entry (hrest.subset hmem), h.boxed, h.inOrder, h.cursor, h.cuts,
    ?_, ?_, ?_⟩
  · show (v.matcher.delivered ++ taken.map StashedSignal.index).Nodup
    rw [List.nodup_append]
    refine ⟨h.nodup, htakenNodup, fun i hmem j hj heq => ?_⟩
    obtain ⟨entry, hentry, rfl⟩ := List.mem_map.mp hj
    exact (h.returned i hmem).2.2 (heq ▸ List.mem_map_of_mem (htaken entry hentry))
  · intro i hmem
    rcases List.mem_append.mp hmem with hmem | hmem
    · obtain ⟨hi, hdone, hnot⟩ := h.returned i hmem
      exact ⟨hi, hdone, fun hheld => hnot ((hsub.map _).subset hheld)⟩
    · obtain ⟨entry, hentry, rfl⟩ := List.mem_map.mp hmem
      have hentry' := htaken entry hentry
      refine ⟨h.isSome_held hentry', h.consumed entry hentry', fun hheld => ?_⟩
      exact hdisjoint _ (List.mem_map_of_mem hentry) _ hheld rfl
  · intro i hi hdone
    rcases h.kept i hi hdone with hheld | hreturned
    · have hmem := (hperm.map StashedSignal.index).mem_iff.mpr hheld
      rw [List.map_append, List.mem_append] at hmem
      exact hmem.elim (fun hmem => Or.inr (List.mem_append_right _ hmem)) Or.inl
    · exact Or.inr (List.mem_append_left _ hreturned)

/-! ### Cuts -/

/-- Splitting a sorted stash keeps its order. -/
theorem filter_append_filter {entries : List StashedSignal}
    (h : entries.Pairwise fun a b => a.index < b.index) (horizon : Nat) :
    (entries.filter fun entry => ! decide (horizon ≤ entry.index)) ++
      (entries.filter fun entry => decide (horizon ≤ entry.index)) = entries := by
  induction entries with
  | nil => rfl
  | cons entry entries ih =>
    obtain ⟨hfirst, hrest⟩ := List.pairwise_cons.mp h
    by_cases hle : horizon ≤ entry.index
    · have hall : ∀ other ∈ entries, decide (horizon ≤ other.index) := by
        intro other hmem
        have hlt := hfirst other hmem
        exact decide_eq_true (by omega)
      have hnone : (entries.filter fun other => ! decide (horizon ≤ other.index)) = [] := by
        rw [List.filter_eq_nil_iff]
        intro other hmem
        simpa using hall other hmem
      rw [List.filter_cons_of_neg (by simpa using hle), List.filter_cons_of_pos (by simpa using hle),
        hnone, List.filter_eq_self.mpr hall, List.nil_append]
    · rw [List.filter_cons_of_pos (by simpa using hle),
        List.filter_cons_of_neg (by simpa using hle), List.cons_append, ih hrest]

/-- A change of the view that moves no signal. -/
theorem Mail.transport (h : Mail v) {w : View} (hfull : w.full = v.full) (hheld : w.held = v.held)
    (hconsumed : w.matcher.isConsumed = v.matcher.isConsumed)
    (hdelivered : w.matcher.delivered = v.matcher.delivered)
    (hvisible : ∀ entry ∈ w.matcher.pendingSignals.entries,
      entry.index < w.matcher.events.length)
    (hboxed : Boxed w.matcher.events.length w.cuts)
    (hcursor : w.matcher.cursor = v.matcher.cursor ∨
      ∃ cut ∈ v.cuts, w.matcher.cursor = cut.cursor)
    (hcuts : ∀ cut ∈ w.cuts, cut ∈ v.cuts ∨ cut.cursor = v.matcher.cursor) : Mail w := by
  have hsignal : w.signalAt = v.signalAt := by
    funext i
    show signalIn w.full i = signalIn v.full i
    rw [hfull]
  refine ⟨?_, ?_, ?_, hvisible, hboxed, ?_, ?_, ?_, ?_, ?_, ?_⟩ <;>
    simp only [hsignal, hheld, hconsumed, hdelivered]
  · exact h.signal
  · exact h.consumed
  · exact h.sorted
  · exact h.inOrder
  · rcases hcursor with heq | ⟨cut, hcut, heq⟩
    · rw [heq]
      exact h.cursor
    · rw [heq]
      exact h.cuts cut hcut
  · intro cut hcut
    rcases hcuts cut hcut with hold | heq
    · exact h.cuts cut hold
    · rw [heq]
      exact h.cursor
  · exact h.nodup
  · exact h.returned
  · exact h.kept

theorem cutView_eq_some {horizon : Nat} {cut : ViewCut}
    (hcut : v.matcher.cutView horizon = some (cut, m)) :
    horizon < v.matcher.events.length ∧
      cut = ⟨v.matcher.events.drop horizon,
        v.matcher.pendingSignals.entries.filter fun entry => decide (horizon ≤ entry.index),
        v.matcher.cursor⟩ ∧
      m = { v.matcher with
        events := v.matcher.events.take horizon
        pendingSignals := ⟨v.matcher.pendingSignals.entries.filter fun entry =>
          ! decide (horizon ≤ entry.index)⟩ } := by
  unfold cutView at hcut
  split_ifs at hcut with hle
  obtain ⟨rfl, rfl⟩ := Prod.mk.inj (Option.some.inj hcut)
  exact ⟨Nat.not_le.mp hle, rfl, rfl⟩

theorem full_cut {horizon : Nat} {cut : ViewCut}
    (hcut : v.matcher.cutView horizon = some (cut, m)) :
    (⟨m, cut :: v.cuts⟩ : View).full = v.full := by
  obtain ⟨-, rfl, rfl⟩ := cutView_eq_some hcut
  show v.matcher.events.take horizon ++ (v.matcher.events.drop horizon ++ _) = _
  rw [← List.append_assoc, List.take_append_drop]
  rfl

theorem full_restore (m : HistoryMatcher) (cut : ViewCut) (cuts : List ViewCut) :
    (⟨m.restoreView cut, cuts⟩ : View).full = (⟨m, cut :: cuts⟩ : View).full := by
  show (m.events ++ cut.tail) ++ _ = m.events ++ (cut.tail ++ _)
  rw [List.append_assoc]

theorem cursor_restore (m : HistoryMatcher) (cut : ViewCut) :
    (m.restoreView cut).cursor = m.cursor ∨ (m.restoreView cut).cursor = cut.cursor := by
  by_cases hpast : m.events.length < cut.cursor
  · exact Or.inr (if_pos hpast)
  · exact Or.inl (if_neg hpast)

theorem Mail.cut (h : Mail v) {horizon : Nat} {cut : ViewCut}
    (hcut : v.matcher.cutView horizon = some (cut, m)) : Mail ⟨m, cut :: v.cuts⟩ := by
  have hfull := full_cut hcut
  obtain ⟨hlt, rfl, rfl⟩ := cutView_eq_some hcut
  have hlength : (v.matcher.events.take horizon).length = horizon := by
    rw [List.length_take]
    omega
  have hsorted := (List.pairwise_append.mp h.sorted).1
  refine h.transport hfull ?_ rfl rfl ?_ ?_ (Or.inl rfl) ?_
  · show (v.matcher.pendingSignals.entries.filter fun entry => ! decide (horizon ≤ entry.index)) ++
      ((v.matcher.pendingSignals.entries.filter fun entry => decide (horizon ≤ entry.index)) ++ _) = _
    rw [← List.append_assoc, filter_append_filter hsorted]
    rfl
  · intro entry hmem
    show entry.index < (v.matcher.events.take horizon).length
    have hlt := (List.mem_filter.mp hmem).2
    rw [hlength]
    simpa using hlt
  · show Boxed (v.matcher.events.take horizon).length _
    rw [hlength]
    have hend : horizon + (v.matcher.events.drop horizon).length = v.matcher.events.length := by
      rw [List.length_drop]
      omega
    refine ⟨fun entry hmem => ?_, ?_⟩
    · obtain ⟨hstash, hfrom⟩ := List.mem_filter.mp hmem
      have hlt := h.visible entry hstash
      refine ⟨of_decide_eq_true hfrom, ?_⟩
      show entry.index < horizon + (v.matcher.events.drop horizon).length
      rw [hend]
      exact hlt
    · rw [hend]
      exact h.boxed
  · intro cut hmem
    rcases List.mem_cons.mp hmem with rfl | hmem
    · exact Or.inr rfl
    · exact Or.inl hmem

theorem Mail.restore {cut : ViewCut} {cuts : List ViewCut} (h : Mail ⟨m, cut :: cuts⟩) :
    Mail ⟨m.restoreView cut, cuts⟩ := by
  have hheld : (⟨m, cut :: cuts⟩ : View).held =
      (m.pendingSignals.entries ++ cut.hiddenSignals) ++
        (cuts.map ViewCut.hiddenSignals).flatten := by
    unfold View.held
    rw [List.append_assoc]
    rfl
  -- the held signals are in order, so the sort does not move one
  have hsort : (m.pendingSignals.restore cut.hiddenSignals).entries =
      m.pendingSignals.entries ++ cut.hiddenSignals := by
    have hsorted := h.sorted
    rw [hheld, List.pairwise_append] at hsorted
    exact List.Pairwise.insertionSort_eq (hsorted.1.imp Nat.le_of_lt)
  obtain ⟨hhidden, hboxed⟩ := h.boxed
  refine h.transport (full_restore m cut cuts) ?_ rfl rfl ?_ ?_ ?_ ?_
  · rw [hheld]
    show (m.pendingSignals.restore cut.hiddenSignals).entries ++ _ = _
    rw [hsort]
  · show ∀ entry ∈ (m.pendingSignals.restore cut.hiddenSignals).entries,
      entry.index < (m.events ++ cut.tail).length
    rw [hsort, List.length_append]
    intro entry hmem
    rcases List.mem_append.mp hmem with hmem | hmem
    · exact Nat.lt_of_lt_of_le (h.visible entry hmem) (Nat.le_add_right _ _)
    · exact (hhidden entry hmem).2
  · show Boxed (m.events ++ cut.tail).length cuts
    rw [List.length_append]
    exact hboxed
  · exact (cursor_restore m cut).imp_right fun heq => ⟨cut, List.mem_cons_self, heq⟩
  · exact fun other hmem => Or.inl (List.mem_cons_of_mem _ hmem)

/-! ### Appended events -/

theorem Spent.transport (h : Spent v) {w : View} (hlength : w.full.length = v.full.length)
    (hcursor : w.matcher.cursor = v.matcher.cursor ∨
      ∃ cut ∈ v.cuts, w.matcher.cursor = cut.cursor)
    (hcuts : ∀ cut ∈ w.cuts, cut ∈ v.cuts ∨ cut.cursor = v.matcher.cursor) : Spent w := by
  refine ⟨?_, fun cut hmem => ?_⟩ <;> rw [hlength]
  · rcases hcursor with heq | ⟨cut, hmem, heq⟩
    · exact heq ▸ h.cursor
    · exact heq ▸ h.cuts cut hmem
  · rcases hcuts cut hmem with hmem | heq
    · exact h.cuts cut hmem
    · exact heq ▸ h.cursor

theorem spent_append (m : HistoryMatcher) (events : List WorkflowEvent) :
    Spent ⟨m.appendConsumed events, []⟩ := by
  refine ⟨?_, fun cut hmem => absurd hmem List.not_mem_nil⟩
  show (m.events ++ events ++ []).length ≤ m.events.length + events.length
  rw [List.append_nil, List.length_append]

theorem Spent.pass {w : View} (h : Spent v) (hpass : Pass v w) : Spent w := by
  cases hpass with
  | quiet hquiet =>
    refine h.transport ?_ (Or.inl hquiet.cursor) fun _ => Or.inl
    simp only [View.full, List.length_append, hquiet.length]
  | move cursor hreplay hle hclear =>
    have hcursor := h.cursor
    simp only [View.full, List.length_append] at hcursor
    omega
  | stash at' name payload hsignal hnew hclear => exact ⟨h.cursor, h.cuts⟩
  | deliver at' hsignal hnew hclear => exact ⟨h.cursor, h.cuts⟩
  | take taken rest hrest hall => exact ⟨h.cursor, h.cuts⟩
  | cut hcut =>
    have hfull := full_cut hcut
    obtain ⟨-, rfl, rfl⟩ := cutView_eq_some hcut
    refine h.transport (congrArg List.length hfull) (Or.inl rfl) fun other hmem => ?_
    exact (List.mem_cons.mp hmem).elim (fun heq => Or.inr (heq ▸ rfl)) Or.inl
  | restore m cut cuts =>
    refine h.transport (congrArg List.length (full_restore m cut cuts)) ?_
      fun other hmem => Or.inl (List.mem_cons_of_mem _ hmem)
    exact (cursor_restore m cut).imp_right fun heq => ⟨cut, List.mem_cons_self, heq⟩

theorem Spent.step {w : View} (h : Spent v) (hstep : Step v w) : Spent w := by
  cases hstep with
  | pass hpass => exact h.pass hpass
  | append m events => exact spent_append m events

/-- **Every pass keeps the signals.** -/
theorem Pass.mail {w : View} (hpass : Pass v w) (h : Mail v) : Mail w := by
  cases hpass with
  | quiet hquiet => exact h.quiet hquiet
  | move cursor hreplay hle hclear => exact h.move hle hclear
  | stash at' name payload hsignal hnew hclear => exact h.stash hsignal hnew hclear
  | deliver at' hsignal hnew hclear => exact h.deliver hsignal hnew hclear
  | take taken rest hrest hall => exact h.take hrest hall
  | cut hcut => exact h.cut hcut
  | restore m cut cuts => exact h.restore

/-- A pass changes no signal. -/
theorem Pass.signalAt {w : View} (hpass : Pass v w) (i : Nat) : w.signalAt i = v.signalAt i := by
  unfold View.signalAt
  cases hpass with
  | quiet hquiet => exact signalIn_append_congr hquiet.length hquiet.signalAt i
  | cut hcut => rw [full_cut hcut]
  | restore m cut cuts => rw [full_restore m cut cuts]
  | _ => rfl

theorem Pass.length {w : View} (hpass : Pass v w) : w.full.length = v.full.length := by
  cases hpass with
  | quiet hquiet => simp only [View.full, List.length_append, hquiet.length]
  | cut hcut => rw [full_cut hcut]
  | restore m cut cuts => rw [full_restore m cut cuts]
  | _ => rfl

/-- A consumed signal stays consumed. -/
theorem Pass.consumed {w : View} (hpass : Pass v w) {i : Nat} (hi : (v.signalAt i).isSome)
    (hdone : v.matcher.isConsumed i) : w.matcher.isConsumed i := by
  cases hpass with
  | quiet hquiet =>
    rcases hquiet.consumed i with hsame | ⟨hlt, hnone⟩
    · exact hsame ▸ hdone
    · rw [v.signalAt_visible hlt, hnone] at hi
      cases hi
  | stash at' name payload => exact (isConsumed_stashSignal _ at' name payload i).mpr (Or.inr hdone)
  | deliver at' => exact (isConsumed_deliverAt _ at' i).mpr (Or.inr hdone)
  | cut hcut =>
    obtain ⟨-, rfl, rfl⟩ := cutView_eq_some hcut
    exact hdone
  | _ => exact hdone

theorem Step.mail {w : View} (hstep : Step v w) (h : Mail v) : Mail w ∨ Spent w := by
  cases hstep with
  | pass hpass => exact Or.inl (hpass.mail h)
  | append m events => exact Or.inr (spent_append m events)

end Steps

/-! ## New matchers -/

/-- No event of the set is a signal. -/
def Signalless (events : List WorkflowEvent) (indices : Finset Nat) : Prop :=
  ∀ i ∈ indices, signalIn events i = none

theorem signalIn_eq_none {events : List WorkflowEvent} {i : Nat} {p : WorkflowEvent → Bool}
    (hp : ∀ name payload, p (.signalReceived name payload) = false) (h : (events[i]?).any p) :
    signalIn events i = none := by
  unfold signalIn
  cases hevent : events[i]? with
  | none => rfl
  | some event =>
    rw [hevent] at h
    cases event <;> first | rfl | (rw [Option.any_some, hp] at h; cases h)

namespace Signalless

variable {events : List WorkflowEvent} {s t : Finset Nat}

theorem insert (h : Signalless events s) {i : Nat} (hi : signalIn events i = none) :
    Signalless events (insert i s) := by
  intro j hj
  rcases Finset.mem_insert.mp hj with rfl | hj
  · exact hi
  · exact h j hj

theorem union (hs : Signalless events s) (ht : Signalless events t) :
    Signalless events (s ∪ t) := by
  intro i hi
  rcases Finset.mem_union.mp hi with hi | hi
  · exact hs i hi
  · exact ht i hi

/-- What hides no signal of the events before a position hides none of all. -/
theorem of_take {n : Nat} (h : Signalless (events.take n) s) (hlt : ∀ i ∈ s, i < (events.take n).length) :
    Signalless events s := by
  intro i hi
  have htake := h i hi
  rw [← List.take_append_drop n events, signalIn_append_left (hlt i hi)]
  exact htake

end Signalless

theorem signalIn_supersededFailure {events : List WorkflowEvent} {transparent : Finset Nat}
    {n j : Nat} (h : supersededFailure events transparent n = some j) :
    signalIn events j = none := by
  induction n with
  | zero => cases h
  | succ n ih =>
    unfold supersededFailure at h
    split_ifs at h with hmem hfailed
    · exact ih h
    · obtain rfl := Option.some.inj h
      exact signalIn_eq_none (fun _ _ => rfl) hfailed

theorem signalless_redriveStep {events : List WorkflowEvent} {marked : Finset Nat × Option Nat}
    (h : Signalless events marked.1) (i : Nat) :
    Signalless events (redriveStep events marked i).1 := by
  unfold redriveStep
  split_ifs with hredrive
  · have hmarked := h.insert (signalIn_eq_none (fun _ _ => rfl) hredrive)
    dsimp only
    split
    · next j hj => exact hmarked.insert (signalIn_supersededFailure hj)
    · exact hmarked
  · exact h

theorem signalless_redrivePass {events : List WorkflowEvent} {transparent : Finset Nat}
    (h : Signalless events transparent) : Signalless events (redrivePass events transparent).1 := by
  have hfold (positions : List Nat) (marked : Finset Nat × Option Nat)
      (hmarked : Signalless events marked.1) :
      Signalless events (positions.foldl (redriveStep events) marked).1 := by
    induction positions generalizing marked with
    | nil => exact hmarked
    | cons i positions ih => exact ih _ (signalless_redriveStep hmarked i)
  exact hfold _ _ h

/-- Each event stands with its index. -/
def Numbered (events : List WorkflowEvent) (pairs : List (WorkflowEvent × Nat)) : Prop :=
  ∀ pair ∈ pairs, events[pair.2]? = some pair.1

theorem numbered_zipIdx (events : List WorkflowEvent) : Numbered events events.zipIdx :=
  fun _ hmem => List.mem_zipIdx_iff_getElem?.mp hmem

theorem signalIn_of_numbered {events : List WorkflowEvent} {event : WorkflowEvent} {i : Nat}
    (h : events[i]? = some event) (hnone : signalOf event = none) : signalIn events i = none := by
  unfold signalIn
  rw [h]
  exact hnone

theorem abandonedStep_indices (scan : AbandonedScan) (event : WorkflowEvent) (i : Nat) :
    (abandonedStep scan (event, i)).indices = scan.indices ∨
      signalOf event = none ∧ (abandonedStep scan (event, i)).indices = scan.indices ++ [i] := by
  unfold abandonedStep
  split
  · exact Or.inl rfl
  · exact Or.inl rfl
  · next heq =>
    obtain ⟨rfl, rfl⟩ := Prod.mk.inj heq
    split_ifs
    · exact Or.inr ⟨rfl, rfl⟩
    · exact Or.inl rfl
  · next heq =>
    obtain ⟨rfl, rfl⟩ := Prod.mk.inj heq
    split_ifs
    · exact Or.inr ⟨rfl, rfl⟩
    · exact Or.inl rfl
  · exact Or.inl rfl

theorem releaseStep_indices (state : List ActivityExecId × List Nat) (event : WorkflowEvent)
    (i : Nat) :
    (releaseStep state (event, i)).2 = state.2 ∨
      signalOf event = none ∧ (releaseStep state (event, i)).2 = state.2 ++ [i] := by
  unfold releaseStep
  split
  · next heq =>
    obtain ⟨rfl, rfl⟩ := Prod.mk.inj heq
    split_ifs
    · exact Or.inr ⟨rfl, rfl⟩
    · exact Or.inl rfl
  · next heq =>
    obtain ⟨rfl, rfl⟩ := Prod.mk.inj heq
    split_ifs with hmember
    · refine Or.inr ⟨?_, rfl⟩
      cases event <;> first | rfl | cases hmember
    · exact Or.inl rfl

/-- A pass that adds only positions of other events finds no signal. -/
theorem signalless_foldl {σ : Type} {events : List WorkflowEvent}
    (step : σ → WorkflowEvent × Nat → σ) (indices : σ → List Nat)
    (hstep : ∀ state event i, indices (step state (event, i)) = indices state ∨
      signalOf event = none ∧ indices (step state (event, i)) = indices state ++ [i])
    (state : σ) (hstart : indices state = []) :
    Signalless events (indices (events.zipIdx.foldl step state)).toFinset ∧
      ∀ i ∈ (indices (events.zipIdx.foldl step state)).toFinset, i < events.length := by
  have hfold (pairs : List (WorkflowEvent × Nat)) (hpairs : Numbered events pairs) (state : σ)
      (hstate : ∀ i ∈ indices state, signalIn events i = none ∧ i < events.length) :
      ∀ i ∈ indices (pairs.foldl step state), signalIn events i = none ∧ i < events.length := by
    induction pairs generalizing state with
    | nil => exact hstate
    | cons pair pairs ih =>
      obtain ⟨event, at'⟩ := pair
      refine ih (fun other hmem => hpairs other (List.mem_cons_of_mem _ hmem)) _ ?_
      have hevent := hpairs (event, at') List.mem_cons_self
      rcases hstep state event at' with hsame | ⟨hnone, hadd⟩
      · rw [hsame]
        exact hstate
      · rw [hadd]
        intro i hi
        rcases List.mem_append.mp hi with hi | hi
        · exact hstate i hi
        · rw [List.mem_singleton.mp hi]
          exact ⟨signalIn_of_numbered hevent hnone, (List.getElem?_eq_some_iff.mp hevent).1⟩
  have hall := hfold events.zipIdx (numbered_zipIdx events) state (by simp [hstart])
  exact ⟨fun i hi => (hall i (List.mem_toFinset.mp hi)).1,
    fun i hi => (hall i (List.mem_toFinset.mp hi)).2⟩

theorem signalless_abandoned (events : List WorkflowEvent) :
    Signalless events (abandonedDispatchIndices events).toFinset ∧
      ∀ i ∈ (abandonedDispatchIndices events).toFinset, i < events.length := by
  have hscan := @signalless_foldl AbandonedScan events abandonedStep AbandonedScan.indices
    abandonedStep_indices ⟨[], [], [], []⟩ rfl
  have hstarts (i : Nat) (hi : i ∈ (events.zipIdx.filter fun entry =>
      startsAbandoned (abandonedScan events) entry.1).map Prod.snd) :
      signalIn events i = none ∧ i < events.length := by
    obtain ⟨⟨event, at'⟩, hmem, rfl⟩ := List.mem_map.mp hi
    obtain ⟨hpair, hstart⟩ := List.mem_filter.mp hmem
    have hevent := numbered_zipIdx events _ hpair
    refine ⟨signalIn_of_numbered hevent ?_, (List.getElem?_eq_some_iff.mp hevent).1⟩
    cases event <;> first | rfl | cases hstart
  have hall (i : Nat) (hi : i ∈ (abandonedDispatchIndices events).toFinset) :
      signalIn events i = none ∧ i < events.length := by
    unfold abandonedDispatchIndices at hi
    dsimp only at hi
    split_ifs at hi
    · cases hi
    · rw [List.mem_toFinset, List.mem_append] at hi
      rcases hi with hi | hi
      · exact ⟨hscan.1 i (List.mem_toFinset.mpr hi), hscan.2 i (List.mem_toFinset.mpr hi)⟩
      · exact hstarts i hi
  exact ⟨fun i hi => (hall i hi).1, fun i hi => (hall i hi).2⟩

theorem signalless_supersededCycleTail (events : List WorkflowEvent) (transparent : Finset Nat)
    (n : Nat) :
    ∀ i ∈ supersededCycleTail events transparent n, signalIn events i = none ∧ i < n := by
  induction n with
  | zero =>
    intro i hi
    cases hi
  | succ n ih =>
    unfold supersededCycleTail
    split_ifs with hmem hrecord
    · exact fun i hi => ⟨(ih i hi).1, Nat.lt_succ_of_lt (ih i hi).2⟩
    · intro i hi
      rcases List.mem_cons.mp hi with rfl | hi
      · exact ⟨signalIn_eq_none (fun _ _ => rfl) hrecord, Nat.lt_succ_self _⟩
      · exact ⟨(ih i hi).1, Nat.lt_succ_of_lt (ih i hi).2⟩
    · intro i hi
      cases hi

theorem signalIn_failureTail {events : List WorkflowEvent} {n start : Nat}
    (h : failureTailFrom events n = some start) (i : Nat) (hle : start ≤ i) (hlt : i < n) :
    signalIn events i = none := by
  induction n with
  | zero => omega
  | succ n ih =>
    unfold failureTailFrom at h
    split at h
    · cases h
    · next event hevent =>
      have hany (p : WorkflowEvent → Bool) (hp : p event) : (events[n]?).any p := by
        rw [hevent]
        exact hp
      split_ifs at h with hbook hfailed
      · rcases Nat.lt_succ_iff_lt_or_eq.mp hlt with hlt | rfl
        · exact ih h hlt
        · exact signalIn_eq_none (fun _ _ => rfl) (hany _ hbook)
      · obtain rfl := Option.some.inj h
        obtain rfl : i = n := by omega
        exact signalIn_eq_none (fun _ _ => rfl) (hany _ hfailed.2)

/-- No signal is transparent to a new matcher. -/
theorem signalless_transparentOf (events : List WorkflowEvent) :
    Signalless events (transparentOf events) := by
  have hbook : Signalless events (indicesWhere events isCommandFreeBookkeeping) := fun i hi =>
    signalIn_eq_none (fun _ _ => rfl) (Finset.mem_filter.mp hi).2
  have hrelease := (@signalless_foldl _ events releaseStep Prod.snd releaseStep_indices ([], [])
    rfl).1
  have hfailed (s : Finset Nat) (hs : Signalless events s) (start : Nat)
      (hstart : terminalFailureTailStart events = some start) :
      Signalless events (s ∪ Finset.Ico start events.length) := by
    refine hs.union fun i hi => ?_
    obtain ⟨hle, hlt⟩ := Finset.mem_Ico.mp hi
    exact signalIn_failureTail hstart i hle hlt
  have hredrive := signalless_redrivePass hbook
  unfold transparentOf
  generalize redrivePass events (indicesWhere events isCommandFreeBookkeeping) = pass at hredrive
  obtain ⟨transparent, lastRedrive⟩ := pass
  refine Signalless.union ?_ hrelease
  cases lastRedrive with
  | none =>
    cases hstart : terminalFailureTailStart events with
    | none => exact hredrive
    | some start => exact hfailed _ hredrive start hstart
  | some redrive =>
    obtain ⟨habandoned, hlt⟩ := signalless_abandoned (events.take redrive)
    have htail := signalless_supersededCycleTail (events.take redrive)
      (transparent ∪ (abandonedDispatchIndices (events.take redrive)).toFinset)
      (events.take redrive).length
    have hsuperseded := (hredrive.union (habandoned.of_take hlt)).union
      (Signalless.of_take (fun i hi => (htail i (List.mem_toFinset.mp hi)).1)
        fun i hi => (htail i (List.mem_toFinset.mp hi)).2)
    cases hstart : terminalFailureTailStart events with
    | none => exact hsuperseded
    | some start => exact hfailed _ hsuperseded start hstart

theorem Mail.new (history : List WorkflowEvent) : Mail ⟨HistoryMatcher.new history, []⟩ := by
  have hnone (i : Nat) (hi : (signalIn (history ++ []) i).isSome) :
      ¬ (HistoryMatcher.new history).isConsumed i := by
    rw [List.append_nil] at hi
    rw [isConsumed_iff]
    rintro (hmem | hmem | hmem)
    · cases hmem
    · cases hmem
    · rw [signalless_transparentOf history i hmem] at hi
      cases hi
  refine ⟨nofun, nofun, List.Pairwise.nil, nofun, trivial, ?_, nofun, nofun, List.nodup_nil, nofun,
    ?_⟩
  · intro i j _ _ hj hdone
    exact absurd hdone (hnone j hj)
  · intro i hi hdone
    exact absurd hdone (hnone i hi)

/-! ## Reachable states -/

theorem Reachable.mail_or_spent {history : List WorkflowEvent} {v : View}
    (h : Reachable history v) : Mail v ∨ Spent v := by
  induction h with
  | refl => exact Or.inl (Mail.new history)
  | tail _ hstep ih => exact ih.elim hstep.mail fun hspent => Or.inr (hspent.step hstep)

end Harvest.Replay
