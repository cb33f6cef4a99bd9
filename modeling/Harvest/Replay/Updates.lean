import Harvest.Lib.FirstIndex
import Harvest.Replay.Mail

/-!
# The results of updates

Model of `match_update`, its `UpdateResultIndex` and `drain_admitted_updates` in `replay.rs`. A lookup
scans the visible history until the scans have walked as many events as it holds, and uses an index
from then on. The index may reach past a cut view; a lookup then scans again.

Proved here:
* `UpdateStep.indexed`: the index is right about the prefix it holds, whatever steps came before.
* `match_update_is_a_scan`: every lookup returns what a scan of the visible history returns, and no
  drained update has a result.
-/

namespace Harvest.Replay

open Harvest.Lib

/-- `UpdateResultIndex` -/
structure UpdateResultIndex where
  /-- The length of the history prefix that the index holds. -/
  indexed : Nat := 0
  /-- Whether the index is in use. -/
  built : Bool := false
  /-- The events that lookups without the index walked. -/
  walked : Nat := 0
  first : UpdateId → Option Nat := fun _ => none

/-- `update_result_id` -/
def updateResultId : WorkflowEvent → Option UpdateId
  | .updateCompleted updateId _ => some updateId
  | .updateFailed updateId _ => some updateId
  | _ => none

/-- `update_result` -/
def updateResult : WorkflowEvent → HistoryMatch
  | .updateCompleted _ output => .matched output
  | .updateFailed _ error => .failed error 1 "Error" none false
  | _ => .noMatch

/-- The result at a position, if there is one. -/
def resultAt (events : List WorkflowEvent) (at_ : Option Nat) : HistoryMatch :=
  (at_.bind (events[·]?)).elim .noMatch updateResult

namespace HistoryMatcher

/-- The lookup without the index. -/
def scanUpdate (m : HistoryMatcher) (index : UpdateResultIndex) (updateId : UpdateId) :
    HistoryMatch × UpdateResultIndex :=
  let found := firstAt updateResultId m.events updateId
  (resultAt m.events found,
    { index with walked := index.walked + found.elim m.events.length (· + 1) })

/-- `match_update` -/
def matchUpdate (m : HistoryMatcher) (index : UpdateResultIndex) (updateId : UpdateId) :
    HistoryMatch × UpdateResultIndex :=
  -- a cut view hides a tail, and the index may hold positions that are not visible
  if index.indexed ≤ m.events.length then
    let built := index.built || decide (m.events.length ≤ index.walked)
    if built then
      let first := fill updateResultId index.indexed (m.events.drop index.indexed) index.first
      (resultAt m.events (first updateId),
        { index with indexed := m.events.length, built := true, first := first })
    else m.scanUpdate index updateId
  else m.scanUpdate index updateId

/-- `drain_admitted_updates` -/
def drainAdmittedUpdates (m : HistoryMatcher) : List (UpdateId × String × Json) :=
  let resolved := m.events.filterMap updateResultId
  m.events.filterMap fun event =>
    match event with
    | .updateAdmitted updateId name input _ =>
      if updateId ∈ resolved then none else some (updateId, name, input)
    | _ => none

end HistoryMatcher

/-! ### Runs -/

/-- The matcher under its cuts, with the index of its updates. -/
structure Updates where
  view : View
  index : UpdateResultIndex := {}

/-- The steps of a run. The events that were consumed live are appended to the full view only, and a cut
is undone before the one around it. -/
inductive UpdateStep : Updates → Updates → Prop
  | lookup (u : Updates) (updateId : UpdateId) :
      UpdateStep u ⟨u.view, (u.view.matcher.matchUpdate u.index updateId).2⟩
  | append (m : HistoryMatcher) (index : UpdateResultIndex) (events : List WorkflowEvent) :
      UpdateStep ⟨⟨m, []⟩, index⟩ ⟨⟨m.appendConsumed events, []⟩, index⟩
  | cut {u : Updates} {horizon : Nat} {cut : ViewCut} {m : HistoryMatcher}
      (h : u.view.matcher.cutView horizon = some (cut, m)) :
      UpdateStep u ⟨⟨m, cut :: u.view.cuts⟩, u.index⟩
  | restore (m : HistoryMatcher) (cut : ViewCut) (cuts : List ViewCut) (index : UpdateResultIndex) :
      UpdateStep ⟨⟨m, cut :: cuts⟩, index⟩ ⟨⟨m.restoreView cut, cuts⟩, index⟩
  /-- Any other method: it leaves the events and the index of the updates alone. -/
  | other {u : Updates} {m : HistoryMatcher} (h : m.events = u.view.matcher.events) :
      UpdateStep u ⟨⟨m, u.view.cuts⟩, u.index⟩

/-- The states that steps on a history can reach. -/
def UpdateRun (history : List WorkflowEvent) (u : Updates) : Prop :=
  Relation.ReflTransGen UpdateStep { view := ⟨HistoryMatcher.new history, []⟩ } u

/-- **The index is right about the prefix it holds**, also where that prefix is not visible. -/
structure IndexedUpdates (u : Updates) : Prop where
  within : u.index.indexed ≤ u.view.full.length
  first : ∀ updateId, u.index.first updateId =
    firstAt updateResultId (u.view.full.take u.index.indexed) updateId

variable {u v : Updates}

theorem visible_isPrefix (view : View) (n : Nat) (h : n ≤ view.matcher.events.length) :
    view.full.take n = view.matcher.events.take n := by
  rw [View.full, List.take_append_of_le_length h]

theorem visible_length_le (view : View) : view.matcher.events.length ≤ view.full.length := by
  rw [View.full, List.length_append]
  omega

/-- What a lookup with the index does. -/
theorem IndexedUpdates.fill (h : IndexedUpdates u)
    (hle : u.index.indexed ≤ u.view.matcher.events.length) (updateId : UpdateId) :
    Lib.fill updateResultId u.index.indexed (u.view.matcher.events.drop u.index.indexed)
      u.index.first updateId = firstAt updateResultId u.view.matcher.events updateId := by
  have hfront : ∀ k, u.index.first k =
      firstAt updateResultId (u.view.matcher.events.take u.index.indexed) k := by
    intro k
    rw [h.first, visible_isPrefix _ _ hle]
  have hlength : (u.view.matcher.events.take u.index.indexed).length = u.index.indexed := by
    rw [List.length_take, min_eq_left hle]
  have hfill := fill_findIdx? (u.view.matcher.events.drop u.index.indexed) hfront updateId
  rwa [hlength, List.take_append_drop] at hfill

/-- **A lookup returns what a scan returns.** -/
theorem IndexedUpdates.lookup (h : IndexedUpdates u) (updateId : UpdateId) :
    (u.view.matcher.matchUpdate u.index updateId).1 =
      resultAt u.view.matcher.events
        (firstAt updateResultId u.view.matcher.events updateId) := by
  unfold HistoryMatcher.matchUpdate
  dsimp only
  split_ifs with hle hbuilt
  · exact congrArg (resultAt u.view.matcher.events) (h.fill hle updateId)
  · rfl
  · rfl

theorem IndexedUpdates.afterLookup (h : IndexedUpdates u) (updateId : UpdateId) :
    IndexedUpdates ⟨u.view, (u.view.matcher.matchUpdate u.index updateId).2⟩ := by
  unfold HistoryMatcher.matchUpdate
  dsimp only
  split_ifs with hle hbuilt
  · refine ⟨visible_length_le u.view, fun k => ?_⟩
    dsimp only
    rw [h.fill hle k, visible_isPrefix _ _ (Nat.le_refl _), List.take_length]
  · exact ⟨h.within, h.first⟩
  · exact ⟨h.within, h.first⟩

/-- A change of the view that keeps the whole history, or adds to its end. -/
theorem IndexedUpdates.grow (h : IndexedUpdates u) {view : View} (added : List WorkflowEvent)
    (hfull : view.full = u.view.full ++ added) : IndexedUpdates ⟨view, u.index⟩ := by
  have hwithin := h.within
  refine ⟨?_, fun k => ?_⟩
  · rw [hfull, List.length_append]
    exact Nat.le_add_right_of_le hwithin
  · rw [h.first, hfull, List.take_append_of_le_length hwithin]

/-- **One step keeps the index right.** -/
theorem UpdateStep.indexed (hstep : UpdateStep u v) (h : IndexedUpdates u) : IndexedUpdates v := by
  cases hstep with
  | lookup _ updateId => exact h.afterLookup updateId
  | append m index events =>
    refine h.grow events ?_
    simp [View.full, HistoryMatcher.appendConsumed]
  | cut hcut =>
    refine h.grow [] ?_
    rw [full_cut hcut, List.append_nil]
  | restore m cut cuts index =>
    refine h.grow [] ?_
    rw [full_restore, List.append_nil]
  | other hevents =>
    refine h.grow [] ?_
    rw [View.full, View.full, hevents, List.append_nil]

theorem UpdateRun.indexed {history : List WorkflowEvent} (h : UpdateRun history u) :
    IndexedUpdates u := by
  induction h with
  | refl => exact ⟨Nat.zero_le _, fun _ => rfl⟩
  | tail _ hstep ih => exact hstep.indexed ih

/-! ### What a scan finds -/

/-- The first result event of an update in a history. -/
def firstResult (events : List WorkflowEvent) (updateId : UpdateId) : Option WorkflowEvent :=
  events.find? fun event => updateResultId event = some updateId

theorem resultAt_firstAt (events : List WorkflowEvent) (updateId : UpdateId) :
    resultAt events (firstAt updateResultId events updateId) =
      (firstResult events updateId).elim .noMatch updateResult := by
  have hfound : (firstAt updateResultId events updateId).bind (events[·]?) =
      firstResult events updateId := by
    induction events with
    | nil => rfl
    | cons event events ih =>
      rw [firstAt_cons, firstResult, List.find?_cons]
      by_cases heq : updateResultId event = some updateId
      · simp [heq]
      · rw [if_neg heq, decide_eq_false heq, ← firstResult, ← ih]
        cases firstAt updateResultId events updateId <;> rfl
  rw [resultAt, hfound]

/-- A drained update has no result. -/
theorem firstResult_of_drained {m : HistoryMatcher} {updateId : UpdateId} {name : String}
    {input : Json} (h : (updateId, name, input) ∈ m.drainAdmittedUpdates) :
    firstResult m.events updateId = none := by
  obtain ⟨event, -, hevent⟩ := List.mem_filterMap.mp h
  have hopen : updateId ∉ m.events.filterMap updateResultId := by
    cases event with
    | updateAdmitted other name' input' timestamp =>
      dsimp only at hevent
      split at hevent
      case isTrue => cases hevent
      case isFalse hnot =>
        cases hevent
        exact hnot
    | _ => cases hevent
  refine List.find?_eq_none.mpr fun event hmem => ?_
  simp only [decide_eq_true_eq]
  exact fun heq => hopen (List.mem_filterMap.mpr ⟨event, hmem, heq⟩)

/-- **The update index equals a scan.** In every state that lookups, appends to the full view and
brackets of cuts reach, `match_update` returns the result of the first result event of the update in
the visible history, or no match, and an update that `drain_admitted_updates` reports has no result
there. -/
theorem match_update_is_a_scan (history : List WorkflowEvent) (u : Updates)
    (h : UpdateRun history u) :
    (∀ updateId, (u.view.matcher.matchUpdate u.index updateId).1 =
      (firstResult u.view.matcher.events updateId).elim .noMatch updateResult) ∧
    ∀ updateId name input, (updateId, name, input) ∈ u.view.matcher.drainAdmittedUpdates →
      firstResult u.view.matcher.events updateId = none ∧
        (u.view.matcher.matchUpdate u.index updateId).1 = .noMatch := by
  have hscan : ∀ updateId, (u.view.matcher.matchUpdate u.index updateId).1 =
      (firstResult u.view.matcher.events updateId).elim .noMatch updateResult := by
    intro updateId
    rw [h.indexed.lookup, resultAt_firstAt]
  refine ⟨hscan, fun updateId name input hdrained => ?_⟩
  have hnone := firstResult_of_drained hdrained
  exact ⟨hnone, by rw [hscan, hnone]; rfl⟩

/-- Two updates, of which the first is settled twice. -/
def settledTwice : List WorkflowEvent :=
  [.updateAdmitted ⟨1⟩ "approve" .null 0, .updateCompleted ⟨1⟩ (.bool true),
    .updateAdmitted ⟨2⟩ "approve" .null 0, .updateFailed ⟨1⟩ "late"]

/-- A lookup of the update without a result walks the whole history, so the next one uses the index. -/
theorem indexed_lookup_finds_the_first :
    let m := HistoryMatcher.new settledTwice
    let index := (m.matchUpdate {} ⟨2⟩).2
    (m.matchUpdate index ⟨1⟩).2.built = true ∧ (m.matchUpdate index ⟨1⟩).1 = .matched (.bool true) ∧
      (m.matchUpdate index ⟨2⟩).1 = .noMatch := by
  have hrun : UpdateRun settledTwice ⟨⟨HistoryMatcher.new settledTwice, []⟩,
      ((HistoryMatcher.new settledTwice).matchUpdate {} ⟨2⟩).2⟩ :=
    .single (.lookup { view := ⟨HistoryMatcher.new settledTwice, []⟩ } ⟨2⟩)
  obtain ⟨hscan, hdrain⟩ := match_update_is_a_scan _ _ hrun
  exact ⟨rfl, hscan ⟨1⟩, (hdrain ⟨2⟩ "approve" .null (by decide)).2⟩

end Harvest.Replay
