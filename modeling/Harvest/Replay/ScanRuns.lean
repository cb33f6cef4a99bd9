import Harvest.Replay.Delivery

/-!
# The external scan over whole runs

The steps that a run of the matcher takes, as far as the external scan reads their effect: what a
method does (`Touch`), a cut of the view, its restoration, and what was consumed live. The rule of
the memo holds after any of them.

Proved here:
* `Operation.covered`: one step keeps the rule.
* `Reachable.operates`, `Served.run_operates`: the runs of `Mail` and all calls are such steps.
* `memoized_scan_refines_full_scan`: the scan with the memo leaves what the full scan leaves.
-/

namespace Harvest.Replay

open HistoryMatcher

inductive Operation : View → View → Prop
  | touch {v : View} {m : HistoryMatcher} (h : Touch v.matcher m) : Operation v ⟨m, v.cuts⟩
  | cut {v : View} {horizon : Nat} {cut : ViewCut} {m : HistoryMatcher}
      (h : v.matcher.cutView horizon = some (cut, m)) : Operation v ⟨m, cut :: v.cuts⟩
  | restore (m : HistoryMatcher) (cut : ViewCut) (cuts : List ViewCut) :
      Operation ⟨m, cut :: cuts⟩ ⟨m.restoreView cut, cuts⟩
  | append (m : HistoryMatcher) (events : List WorkflowEvent) :
      Operation ⟨m, []⟩ ⟨m.appendConsumed events, []⟩

/-- The states that operations on a history can reach. -/
def Operates (history : List WorkflowEvent) (v : View) : Prop :=
  Relation.ReflTransGen Operation ⟨new history, []⟩ v

/-! ## The calls are operations -/

section Runs

variable {v w : View} {history : List WorkflowEvent}

theorem operations_of_touches {m : HistoryMatcher} (cuts : List ViewCut)
    (h : Relation.ReflTransGen Touch v.matcher m) (hcuts : v.cuts = cuts) :
    Relation.ReflTransGen Operation v ⟨m, cuts⟩ := by
  subst hcuts
  induction h with
  | refl => exact .refl
  | tail _ htouch ih => exact ih.tail (@Operation.touch ⟨_, v.cuts⟩ _ htouch)

theorem Pass.operations (h : Pass v w) : Relation.ReflTransGen Operation v w := by
  have hkeep {m : HistoryMatcher} (hexternal : m.external = v.matcher.external)
      (hevents : m.events = v.matcher.events)
      (hconsumed : ∀ i, v.matcher.isConsumed i → m.isConsumed i) :
      Relation.ReflTransGen Operation v ⟨m, v.cuts⟩ :=
    .single (.touch (.keep hexternal (by rw [hevents]) hconsumed))
  cases h with
  | quiet hquiet => exact operations_of_touches _ hquiet.touches rfl
  | move cursor => exact hkeep rfl rfl fun _ => id
  | stash at' name payload =>
    refine hkeep rfl rfl fun i hdone => ?_
    exact (isConsumed_stashSignal v.matcher at' name payload i).mpr (Or.inr hdone)
  | deliver at' =>
    refine hkeep rfl rfl fun i hdone => ?_
    exact (isConsumed_deliverAt v.matcher at' i).mpr (Or.inr hdone)
  | take => exact hkeep rfl rfl fun _ => id
  | cut hcut => exact .single (.cut hcut)
  | restore m cut cuts => exact .single (.restore m cut cuts)

theorem Reachable.operates (h : Reachable history v) : Operates history v := by
  induction h with
  | refl => exact .refl
  | tail _ hstep ih =>
    cases hstep with
    | pass hpass => exact ih.trans hpass.operations
    | append m events => exact ih.tail (.append m events)

/-- **Every sequence of calls is operations.** -/
theorem Served.run_operates {returned : List (String × Json)} {showJson : Json → String}
    (h : Served history returned v) (calls : List Call) :
    Relation.ReflTransGen Operation v (Call.run showJson calls v).2 := by
  induction calls generalizing returned v with
  | nil => exact .refl
  | cons call calls ih =>
    obtain ⟨indices, hexecs⟩ := @Served.exec history returned v showJson h call
    refine .trans ?_ (ih hexecs.served)
    exact hexecs.passes.lift' id fun _ _ hpass => hpass.operations

/-! ## The rule of the memo in every state -/

/-- The rule of the memo, for the terminals of the whole history. -/
def ScanRule (v : View) : Prop := Covered (v.full.map ExternalKey.ofTerminal) v.matcher

theorem visible_of_full (v : View) : v.matcher.events.map ExternalKey.ofTerminal =
    (v.full.map ExternalKey.ofTerminal).take v.matcher.events.length := by
  rw [View.full, List.map_append, List.take_append_of_le_length (by rw [List.length_map]),
    List.take_of_length_le (by rw [List.length_map])]

/-- A change of the view leaves the rule. -/
theorem ScanRule.recut (h : ScanRule v) (hfull : w.full = v.full)
    (hexternal : w.matcher.external = v.matcher.external)
    (hconsumed : w.matcher.isConsumed = v.matcher.isConsumed) : ScanRule w := by
  have hvisible := visible_of_full w
  refine ⟨?_, hvisible, ?_, ?_⟩
  · rw [hexternal]
    exact h.wellFormed
  · rw [hfull, hconsumed, hexternal]
    exact h.index
  · rw [hfull, hconsumed, hexternal]
    exact h.covered

theorem isConsumed_appendConsumed (m : HistoryMatcher) (events : List WorkflowEvent) (i : Nat) :
    (m.appendConsumed events).isConsumed i ↔ m.isConsumed i ∨
      m.events.length ≤ i ∧ i < m.events.length + events.length := by
  rw [isConsumed_iff, isConsumed_iff, appendConsumed, Finset.mem_union, Finset.mem_Ico]
  tauto

/-- What is appended is consumed, so it cannot match. -/
theorem ScanRule.append {m : HistoryMatcher} (h : ScanRule ⟨m, []⟩) (events : List WorkflowEvent) :
    ScanRule ⟨m.appendConsumed events, []⟩ := by
  have hkeys : (⟨m.appendConsumed events, []⟩ : View).full.map ExternalKey.ofTerminal =
      (⟨m, []⟩ : View).full.map ExternalKey.ofTerminal ++ events.map ExternalKey.ofTerminal := by
    simp [View.full, appendConsumed]
  have hgrows (i : Nat) (hdone : m.isConsumed i) : (m.appendConsumed events).isConsumed i :=
    (isConsumed_appendConsumed m events i).mpr (Or.inl hdone)
  refine ⟨h.wellFormed, visible_of_full _, ?_, ?_⟩
  · rw [hkeys]
    exact TerminalsTo.mono h.index hgrows _
  · rw [hkeys]
    intro i key hfrom hto hnew hkey hold
    have hnew' : ¬ m.isConsumed i := fun hdone => hnew (hgrows i hdone)
    refine h.covered i key hfrom hto hnew' ?_ hold
    have hlength : ((⟨m, []⟩ : View).full.map ExternalKey.ofTerminal).length = m.events.length := by
      simp [View.full]
    by_cases hlt : i < m.events.length
    · rwa [List.getElem?_append_left (by omega)] at hkey
    · have hbound := (List.getElem?_eq_some_iff.mp hkey).1
      rw [List.length_append, hlength, List.length_map] at hbound
      exact absurd ((isConsumed_appendConsumed m events i).mpr (Or.inr ⟨by omega, hbound⟩)) hnew

theorem touch_keys {m m' : HistoryMatcher} (h : Touch m m') :
    m'.events.map ExternalKey.ofTerminal = m.events.map ExternalKey.ofTerminal := by
  cases h with
  | keep _ hkeys _ => exact hkeys
  | stash at' => rw [stash_events]
  | scan => rw [(Spares.scanAhead m).1.events]
  | _ => rfl

/-- **One step keeps the rule of the memo.** -/
theorem Operation.covered (hstep : Operation v w) (h : ScanRule v) : ScanRule w := by
  cases hstep with
  | @touch _ m htouch =>
    have hkeys : (⟨m, v.cuts⟩ : View).full.map ExternalKey.ofTerminal =
        v.full.map ExternalKey.ofTerminal := by
      unfold View.full
      rw [List.map_append, List.map_append, touch_keys htouch]
    unfold ScanRule
    rw [hkeys]
    exact Covered.touch h htouch
  | cut hcut =>
    have hfull := full_cut hcut
    obtain ⟨-, rfl, rfl⟩ := cutView_eq_some hcut
    exact h.recut hfull rfl rfl
  | restore m cut cuts => exact h.recut (full_restore m cut cuts) rfl rfl
  | append m events => exact h.append events

theorem ScanRule.new (history : List WorkflowEvent) : ScanRule ⟨HistoryMatcher.new history, []⟩ :=
  { wellFormed := ⟨ExternalStash.wellFormed_empty, ExternalStash.wellFormed_empty,
      ExternalStash.wellFormed_empty⟩
    visible := visible_of_full _
    index := terminalsIndexed_empty _ _
    covered := fun _ key _ _ _ _ _ => Covered.closed_of_isEmpty
      ⟨ExternalStash.wellFormed_empty, ExternalStash.wellFormed_empty,
        ExternalStash.wellFormed_empty⟩ rfl key }

/-- **All steps keep the rule of the memo.** -/
theorem Operates.scanRule (h : Operates history v) : ScanRule v := by
  induction h with
  | refl => exact ScanRule.new history
  | tail _ hstep ih => exact hstep.covered ih

end Runs

/-- **The memoized scan refines the full scan.** In every state that operations on a history can
reach, the scan leaves the stash terminals and the consumed set that resolving every unconsumed
external terminal from the cursor to the visible end in history order leaves. Only the memo and the
index of the terminals differ. -/
theorem memoized_scan_refines_full_scan (history : List WorkflowEvent) (v : View)
    (hreach : Operates history v) :
    let scanned := v.matcher.scanAheadForExternalSignalTerminals
    let full := v.matcher.resolveAll
    scanned.external.signals = full.external.signals ∧
    scanned.external.cancels = full.external.cancels ∧
    scanned.external.awaits = full.external.awaits ∧
    scanned.isConsumed = full.isConsumed ∧
    scanned = full.withScan scanned.external.memo scanned.external.index := by
  intro scanned full
  have hscanned : scanned = full.withScan scanned.external.memo scanned.external.index :=
    (Covered.scanAhead hreach.scanRule).1
  rw [hscanned]
  exact ⟨rfl, rfl, rfl, rfl, rfl⟩

/-- A signal to another workflow, whose terminal is behind a timer. -/
def scanHistory : List WorkflowEvent :=
  [.externalSignalRequested ⟨7⟩ (.workflowId "peer" "p") "go" .null none,
    .timerStarted ⟨"nap"⟩ 5, .externalSignalDelivered ⟨7⟩]

/-- The scan finds the terminal of the stashed request. -/
theorem scan_of_stashed_request :
    let m := (new scanHistory).stashTransparentExternalEvent 0
    Operates scanHistory ⟨m, []⟩ ∧ m.scanAheadForExternalSignalTerminals.isConsumed 2 ∧
      m.scanAheadForExternalSignalTerminals.external.signals.calls.map
        StashedExternalSignal.terminal = [some .delivered] := by
  intro m
  have hreach : Operates scanHistory ⟨m, []⟩ :=
    .single (@Operation.touch ⟨new scanHistory, []⟩ _ (.stash (new scanHistory) 0))
  obtain ⟨hsignals, -, -, hconsumed, -⟩ := memoized_scan_refines_full_scan scanHistory ⟨m, []⟩ hreach
  refine ⟨hreach, ?_, ?_⟩
  · rw [hconsumed]
    decide +kernel
  · rw [hsignals]
    decide +kernel

end Harvest.Replay
