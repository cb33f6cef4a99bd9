import Harvest.Verify.FlowGraph
import Mathlib.Algebra.BigOperators.Group.Finset.Sigma
import Mathlib.Algebra.BigOperators.Ring.Finset
import Mathlib.Algebra.Order.BigOperators.Group.Finset
import Mathlib.Data.Finset.Sort
import Mathlib.Data.String.Basic

/-!
# Saga compensation coverage

Model of the check of `saga.rs` over the flow graphs of a workflow. A fixpoint carries one flag per
node, set when a forward step may have completed and not been unwound. An error exit with the flag set
is a gap.

The statements are about walks of the graph. A walk is pending when it takes an edge that completes a
step, and no later edge that unwinds.

Proved here:
* `mem_reached`: the fixpoint finds the flags of all walks from the entry.
* `mem_helperCalls`: the loop over the handlers finds every body that runs as a helper.
* `saga_check_is_exact`: the gaps of an entry body are the error exits of its pending walks, and a
  covered workflow has none.
-/

namespace Harvest.Verify

open Harvest.Lib

/-- `SagaVerdict` -/
inductive SagaVerdict where
  | noSaga
  | covered
  | gap
  | unknown
  deriving DecidableEq

/-- `Gap` -/
structure Gap where
  body : String
  at_ : String
  outcome : ExitOutcome
  deriving DecidableEq

/-- `CallSite` -/
structure CallSite where
  callee : String
  resume : Bool := false
  deriving DecidableEq

/-- `HandlerSite` -/
structure HandlerSite where
  bodies : List String
  returns : List String
  deriving DecidableEq

/-- `BodyNode`, with the number of its steps. -/
structure BodyNode where
  id : String
  calls : List CallSite := []
  steps : Nat := 0
  flow : Option FlowGraph
  deriving DecidableEq

/-- `WorkflowStructure` -/
structure WorkflowStructure where
  workflow : String
  name : String
  root : String
  boundaries : List String := []
  bodies : List BodyNode
  handlers : List HandlerSite := []
  deriving DecidableEq

/-- `SagaReport` -/
structure SagaReport where
  workflow : String
  name : String
  verdict : SagaVerdict
  gaps : List Gap
  unknown : List String
  notes : List String
  deriving DecidableEq

/-! ### The fixpoint of one body -/

/-- The flag behind an edge. -/
def flagAfter (event : FlowEvent) (label : Option EdgeLabel) (flag : Bool) : Bool :=
  match event, label with
  | .sagaStep _ _ true, some .err => false
  | .sagaCompensate true, _ => false
  | .sagaStep _ _ _, _ => true
  | _, _ => flag

namespace FlowGraph

/-- What a popped state pushes. A node that the graph does not have pushes nothing. -/
def flagNext (graph : FlowGraph) (state : Nat × Bool) : List (Nat × Bool) :=
  match graph.eventAt state.1 with
  | none => []
  | some event =>
    (graph.out state.1).map fun edge => (edge.to_, flagAfter event edge.label state.2)

/-- The states that the queue starts with. -/
def flagStart (graph : FlowGraph) : List (Nat × Bool) :=
  ((List.range graph.nodes.length).filter fun id =>
    (graph.eventAt id).any FlowEvent.isEntry).reverse.map fun id => (id, false)

/-- `reached`: the flags that each node is entered with. -/
def reached (graph : FlowGraph) : Finset (Nat × Bool) :=
  search graph.flagNext (graph.flagStart.length + 2 * graph.edges.length) graph.flagStart ∅

end FlowGraph

/-- What a node that a set flag reaches is reported as. -/
inductive Finding where
  | gap (found : Gap)
  | reason (text : String)

def finding (body : BodyNode) (root : Bool) (node : FlowNode) : Option Finding :=
  match node.event with
  | .sagaNew => some (.reason s!"saga-recreated: {body.id} at {node.at_}")
  | .exit outcome =>
    if !root then
      some (.reason s!"saga-dropped-pending: {body.id} at {node.at_} returns {outcome.name}")
    else if outcome ≠ .ok then some (.gap ⟨body.id, node.at_, outcome⟩)
    else none
  | _ => none

/-- The findings of a body, in the order of its nodes. -/
def findings (body : BodyNode) (graph : FlowGraph) (root : Bool) : List Finding :=
  ((List.range graph.nodes.length).filter fun id => (id, true) ∈ graph.reached).filterMap fun id =>
    (graph.nodes[id]?).bind (finding body root)

def Finding.asGap : Finding → Option Gap
  | .gap found => some found
  | .reason _ => none

def Finding.asReason : Finding → Option String
  | .gap _ => none
  | .reason text => some text

/-- `body_gaps` -/
def bodyGaps (body : BodyNode) (graph : FlowGraph) (root : Bool) : List Gap × Finset String :=
  ((findings body graph root).filterMap Finding.asGap,
    ((findings body graph root).filterMap Finding.asReason).toFinset)

/-! ### The bodies of a workflow -/

namespace WorkflowStructure

/-- `entry_bodies` -/
def entryBodies (workflow : WorkflowStructure) : Finset String :=
  (workflow.root :: workflow.handlers.flatMap fun handler =>
    handler.bodies ++ handler.returns).toFinset

/-- The bodies that a node of a graph names. -/
def namedBy (node : FlowNode) : List String :=
  match node.event with
  | .call callees => callees
  | .sagaStep forward compensate _ => forward ++ compensate
  | _ => []

/-- The handler bodies that a node of a graph registers. -/
def registeredBy (workflow : WorkflowStructure) (node : FlowNode) : List String :=
  match node.event with
  | .handler handler => (workflow.handlers[handler]?).elim [] HandlerSite.bodies
  | _ => []

/-- The bodies that a body runs as helpers. -/
def startedBy (workflow : WorkflowStructure) (body : BodyNode) : List String :=
  let nodes := body.flow.elim [] FlowGraph.nodes
  let returned := (workflow.handlers.filter (body.id ∈ ·.bodies)).flatMap HandlerSite.returns
  let registered := nodes.flatMap workflow.registeredBy
  let calls := ((body.calls.filter fun call => !call.resume).map CallSite.callee).filter
    (· ∉ registered)
  (nodes.flatMap namedBy ++ calls).filter (· ∉ returned)

/-- The futures of handler bodies that run as helpers, as far as they are not known yet. -/
def moreHelpers (workflow : WorkflowStructure) (helpers : Finset String) : List String :=
  ((workflow.handlers.filter fun handler => handler.bodies.any (· ∈ helpers)).flatMap
    HandlerSite.returns).filter (· ∉ helpers)

def helperLoop (workflow : WorkflowStructure) : Nat → Finset String → Finset String
  | 0, helpers => helpers
  | fuel + 1, helpers =>
    let more := workflow.moreHelpers helpers
    if more.isEmpty then helpers else workflow.helperLoop fuel (helpers ∪ more.toFinset)

/-- `helper_calls` -/
def helperCalls (workflow : WorkflowStructure) : Finset String :=
  workflow.helperLoop ((workflow.handlers.flatMap HandlerSite.returns).length + 1)
    (workflow.bodies.flatMap workflow.startedBy).toFinset

/-- The bodies that a body calls, in `emits_a_step`. -/
def callees (workflow : WorkflowStructure) (id : String) : List String :=
  (workflow.bodies.find? (·.id = id)).elim [] fun body =>
    (body.calls.filter fun call => !call.resume).map CallSite.callee

/-- `emits_a_step`. The source stops at the first body that decides it. -/
def emitsAStep (workflow : WorkflowStructure) (start : String) : Bool :=
  let reached := search workflow.callees
    (1 + (workflow.bodies.flatMap BodyNode.calls).length) [start] ∅
  decide (∃ id ∈ reached, (workflow.bodies.find? (·.id = id)).all (0 < ·.steps))

end WorkflowStructure

/-! ### The check of a workflow -/

/-- What the check of the bodies has collected. -/
structure Tally where
  gaps : List Gap := []
  unknown : Finset String := ∅
  notes : Finset String := ∅
  usesSaga : Bool := false

def Tally.add (tally other : Tally) : Tally where
  gaps := tally.gaps ++ other.gaps
  unknown := tally.unknown ∪ other.unknown
  notes := tally.notes ∪ other.notes
  usesSaga := tally.usesSaga || other.usesSaga

def isSagaNew : FlowEvent → Bool
  | .sagaNew => true
  | _ => false

/-- An escape is a saga use too. -/
def isSagaOperation : FlowEvent → Bool
  | .sagaStep _ _ _ => true
  | .sagaCompensate _ => true
  | .sagaEscape _ => true
  | _ => false

/-- The reason for `unknown` that a node is. -/
def nodeReason (body : BodyNode) (node : FlowNode) : Option String :=
  match node.event with
  | .sagaEscape to_ => some s!"saga-escapes: {body.id} at {node.at_} to {to_}"
  | .sagaStep _ _ false => some s!"saga-result-untracked: {body.id} at {node.at_}"
  | _ => none

/-- The notes that a node gives. -/
def nodeNotes (workflow : WorkflowStructure) (node : FlowNode) : List String :=
  match node.event with
  | .sagaStep _ compensate true =>
    (compensate.filter fun start => !workflow.emitsAStep start).map fun start =>
      s!"noop-compensation: {start}"
  | _ => []

/-- The ways a body is checked: as an entry, as a helper. -/
def waysOf (workflow : WorkflowStructure) (body : BodyNode) : List Bool :=
  let entry := decide (body.id ∈ workflow.entryBodies)
  [(true, entry), (false, !entry || decide (body.id ∈ workflow.helperCalls))].filterMap fun way =>
    if way.2 then some way.1 else none

/-- The check of a body that owns a saga. -/
def checkOwner (workflow : WorkflowStructure) (body : BodyNode) (graph : FlowGraph) : Tally :=
  let owners := graph.count isSagaNew
  let many := if 1 < owners then {s!"multiple-sagas: {body.id} builds {owners} sagas"} else ∅
  let found := (waysOf workflow body).map (bodyGaps body graph)
  { gaps := found.flatMap Prod.fst
    unknown := many ∪ (graph.nodes.filterMap (nodeReason body)).toFinset ∪
      (found.map Prod.snd).foldr (· ∪ ·) ∅
    notes := (graph.nodes.flatMap (nodeNotes workflow)).toFinset
    usesSaga := true }

def checkBody (workflow : WorkflowStructure) (body : BodyNode) : Tally :=
  match body.flow with
  | none => { unknown := {s!"no-flow-graph: {body.id}"} }
  | some graph =>
    let owners := graph.count isSagaNew
    let operations := graph.count isSagaOperation
    if owners = 0 ∧ operations = 0 then {}
    else if owners = 0 then
      { unknown := {s!"saga-escapes: {body.id} uses a saga it does not own"}, usesSaga := true }
    else checkOwner workflow body graph

/-- An external constant runs no code, so it cannot hold a saga. -/
def boundaryReasons (workflow : WorkflowStructure) : Finset String :=
  ((workflow.boundaries.filter fun boundary => !boundary.startsWith "external-const:").map
    fun boundary => s!"boundary: {boundary}").toFinset

/-- The verdict. A boundary cannot clear a step that is pending in sight. -/
def verdictOf (tally : Tally) : SagaVerdict :=
  if !tally.gaps.isEmpty && decide (∀ reason ∈ tally.unknown, reason.startsWith "boundary: ") then
    .gap
  else if tally.unknown ≠ ∅ then .unknown
  else if !tally.usesSaga then .noSaga
  else if tally.gaps.isEmpty then .covered
  else .gap

/-- `check_workflow` -/
def checkWorkflow (workflow : WorkflowStructure) : SagaReport :=
  let bodies := (workflow.bodies.map (checkBody workflow)).foldl Tally.add {}
  let tally := { bodies with unknown := bodies.unknown ∪ boundaryReasons workflow }
  { workflow := workflow.workflow
    name := workflow.name
    verdict := verdictOf tally
    gaps := tally.gaps
    unknown := tally.unknown.sort (· ≤ ·)
    notes := tally.notes.sort (· ≤ ·) }

/-! ### Walks -/

namespace FlowGraph

/-- A walk: edges of the graph, each from where the one before it ends. -/
inductive Walk (graph : FlowGraph) : Nat → List FlowEdge → Nat → Prop
  | nil (id : Nat) : Walk graph id [] id
  | snoc {start last : Nat} {walk : List FlowEdge} {edge : FlowEdge} (before : Walk graph start walk last)
      (mem : edge ∈ graph.edges) (joins : edge.from_ = last) :
      Walk graph start (walk ++ [edge]) edge.to_

/-- The `ok` edge of a tracked step, or an edge of an untracked one. -/
def Completes (graph : FlowGraph) (edge : FlowEdge) : Prop :=
  ∃ forward compensate,
    graph.eventAt edge.from_ = some (.sagaStep forward compensate true) ∧ edge.label = some .ok ∨
    graph.eventAt edge.from_ = some (.sagaStep forward compensate false)

/-- The `err` edge of a tracked step, or an edge of a tracked compensation. -/
def Unwinds (graph : FlowGraph) (edge : FlowEdge) : Prop :=
  (∃ forward compensate, graph.eventAt edge.from_ = some (.sagaStep forward compensate true) ∧
    edge.label = some .err) ∨ graph.eventAt edge.from_ = some (.sagaCompensate true)

/-- A step was completed, and nothing was unwound later. -/
def Pending (graph : FlowGraph) (walk : List FlowEdge) : Prop :=
  ∃ before edge after, walk = before ++ edge :: after ∧ graph.Completes edge ∧
    ∀ later ∈ after, ¬ graph.Unwinds later

/-- A pending walk leads from the entry to this node. -/
def PendingAt (graph : FlowGraph) (id : Nat) : Prop :=
  ∃ entry walk, graph.eventAt entry = some .entry ∧ graph.Walk entry walk id ∧ graph.Pending walk

variable {graph : FlowGraph}

theorem not_pending_nil : ¬ graph.Pending [] := by
  rintro ⟨before, edge, after, heq, -⟩
  cases before <;> cases heq

/-- **One more edge.** It leaves a step pending when it completes one, or when one was pending and it
unwinds none. -/
theorem pending_snoc {walk : List FlowEdge} {edge : FlowEdge} :
    graph.Pending (walk ++ [edge]) ↔
      graph.Completes edge ∨ graph.Pending walk ∧ ¬ graph.Unwinds edge := by
  constructor
  · rintro ⟨before, first, after, heq, hcompletes, hlater⟩
    rcases List.eq_nil_or_concat after with rfl | ⟨after, last, rfl⟩
    · obtain ⟨-, hlast⟩ := List.append_inj' heq rfl
      cases hlast
      exact .inl hcompletes
    · rw [List.concat_eq_append, ← List.cons_append, ← List.append_assoc] at heq
      obtain ⟨rfl, hlast⟩ := List.append_inj' heq rfl
      cases hlast
      refine .inr ⟨⟨before, first, after, rfl, hcompletes, fun later hmem => ?_⟩, ?_⟩
      · exact hlater later (by simp [hmem])
      · exact hlater edge (by simp)
  · rintro (hcompletes | ⟨⟨before, first, after, rfl, hcompletes, hlater⟩, hkeeps⟩)
    · exact ⟨walk, edge, [], rfl, hcompletes, fun _ h => absurd h List.not_mem_nil⟩
    · refine ⟨before, first, after ++ [edge], by simp, hcompletes, fun later hmem => ?_⟩
      rcases List.mem_append.mp hmem with hmem | hmem
      · exact hlater later hmem
      · rw [List.mem_singleton.mp hmem]
        exact hkeeps

/-- The flag behind an edge says whether a step is pending there. -/
theorem flagAfter_iff (haccepted : graph.Accepted) {edge : FlowEdge} {event : FlowEvent}
    {flag : Bool} (hmem : edge ∈ graph.edges) (hevent : graph.eventAt edge.from_ = some event) :
    flagAfter event edge.label flag = true ↔
      graph.Completes edge ∨ flag = true ∧ ¬ graph.Unwinds edge := by
  have hlabeled := haccepted.labeled edge hmem
  unfold Completes Unwinds
  rw [hevent] at hlabeled ⊢
  cases event with
  | sagaStep forward compensate tracked =>
    cases tracked with
    | true =>
      cases hlabel : edge.label with
      | none => exact absurd hlabel (hlabeled forward compensate rfl)
      | some label => cases label <;> simp [flagAfter]
    | false => simp [flagAfter]
  | sagaCompensate tracked => cases tracked <;> simp [flagAfter]
  | _ => simp [flagAfter]

theorem mem_flagNext {id to_ : Nat} {flag flag' : Bool} :
    (to_, flag') ∈ graph.flagNext (id, flag) ↔ ∃ event edge, graph.eventAt id = some event ∧
      edge ∈ graph.edges ∧ edge.from_ = id ∧ edge.to_ = to_ ∧
        flagAfter event edge.label flag = flag' := by
  unfold flagNext
  cases hevent : graph.eventAt id with
  | none => simp
  | some event => simp [out, and_assoc]

/-- The states behind a state are those of its walks. -/
theorem leads_iff (haccepted : graph.Accepted) {entry id : Nat} {flag : Bool} :
    Leads graph.flagNext (entry, false) (id, flag) ↔
      ∃ walk, graph.Walk entry walk id ∧ (flag = true ↔ graph.Pending walk) := by
  constructor
  · intro h
    generalize hstate : (id, flag) = state at h
    induction h generalizing id flag with
    | refl =>
      obtain ⟨rfl, rfl⟩ := Prod.mk.inj hstate
      exact ⟨[], .nil id, by simp [not_pending_nil]⟩
    | @tail last state _ hedge ih =>
      subst hstate
      obtain ⟨event, edge, hevent, hmem, hjoins, rfl, rfl⟩ := mem_flagNext.mp hedge
      obtain ⟨walk, hwalk, hflag⟩ := ih rfl
      refine ⟨walk ++ [edge], .snoc hwalk hmem hjoins, ?_⟩
      rw [flagAfter_iff haccepted hmem (by rw [hjoins]; exact hevent), pending_snoc, hflag]
  · rintro ⟨walk, hwalk, hflag⟩
    induction hwalk generalizing flag with
    | nil =>
      have hclear : flag = false := by
        rw [Bool.eq_false_iff, Ne, hflag]
        exact not_pending_nil
      subst hclear
      exact .refl
    | @snoc last walk edge _ hmem hjoins ih =>
      obtain ⟨before, hbefore⟩ : ∃ before : Bool, before = true ↔ graph.Pending walk := by
        by_cases hpending : graph.Pending walk
        · exact ⟨true, by simp [hpending]⟩
        · exact ⟨false, by simp [hpending]⟩
      refine (ih hbefore).tail (mem_flagNext.mpr ?_)
      have hlt := (haccepted.in_range edge hmem).1
      have hevent : graph.eventAt edge.from_ = some graph.nodes[edge.from_].event := by
        rw [eventAt, List.getElem?_eq_getElem hlt]
        rfl
      refine ⟨_, edge, by rw [← hjoins]; exact hevent, hmem, hjoins, rfl, ?_⟩
      rw [Bool.eq_iff_iff, flagAfter_iff haccepted hmem hevent, hflag, pending_snoc, hbefore]

/-! ### The queue runs empty -/

theorem sum_out_le (graph : FlowGraph) (ids : Finset Nat) :
    ∑ id ∈ ids, (graph.out id).length ≤ graph.edges.length := by
  unfold out
  induction graph.edges with
  | nil => simp
  | cons edge edges ih =>
    have hsplit : ∀ id, ((edge :: edges).filter (·.from_ = id)).length =
        (if edge.from_ = id then 1 else 0) + (edges.filter (·.from_ = id)).length := by
      intro id
      rw [List.filter_cons]
      by_cases heq : edge.from_ = id
      · simp [heq, Nat.add_comm]
      · simp [heq]
    simp only [hsplit, Finset.sum_add_distrib, Finset.sum_ite_eq, List.length_cons]
    split_ifs <;> omega

theorem length_flagNext_le (state : Nat × Bool) :
    (graph.flagNext state).length ≤ (graph.out state.1).length := by
  unfold flagNext
  cases graph.eventAt state.1 with
  | none => exact Nat.zero_le _
  | some event => rw [List.length_map]

/-- The states of an accepted graph. -/
def states (graph : FlowGraph) : Finset (Nat × Bool) :=
  Finset.range graph.nodes.length ×ˢ Finset.univ

theorem sum_flagNext_le (graph : FlowGraph) :
    ∑ state ∈ graph.states, (graph.flagNext state).length ≤ 2 * graph.edges.length := by
  have hout := graph.sum_out_le (Finset.range graph.nodes.length)
  calc ∑ state ∈ graph.states, (graph.flagNext state).length
      ≤ ∑ state ∈ graph.states, (graph.out state.1).length :=
        Finset.sum_le_sum fun state _ => length_flagNext_le state
    _ = ∑ id ∈ Finset.range graph.nodes.length, 2 * (graph.out id).length := by
        rw [states, Finset.sum_product]
        simp
    _ = 2 * ∑ id ∈ Finset.range graph.nodes.length, (graph.out id).length := by
        rw [Finset.mul_sum]
    _ ≤ 2 * graph.edges.length := Nat.mul_le_mul_left 2 hout

theorem eventAt_lt {id : Nat} {event : FlowEvent} (h : graph.eventAt id = some event) :
    id < graph.nodes.length := by
  obtain ⟨node, hnode, -⟩ := Option.map_eq_some_iff.mp h
  exact (List.getElem?_eq_some_iff.mp hnode).1

theorem any_isEntry {event : Option FlowEvent} :
    event.any FlowEvent.isEntry = true ↔ event = some .entry := by
  cases event with
  | none => simp
  | some event => cases event <;> simp [FlowEvent.isEntry]

theorem mem_flagStart {id : Nat} {flag : Bool} :
    (id, flag) ∈ graph.flagStart ↔ graph.eventAt id = some .entry ∧ flag = false := by
  simp only [flagStart, List.mem_map, List.mem_reverse, List.mem_filter, List.mem_range,
    any_isEntry, Prod.mk.injEq]
  constructor
  · rintro ⟨entry, ⟨-, hentry⟩, rfl, rfl⟩
    exact ⟨hentry, rfl⟩
  · rintro ⟨hentry, rfl⟩
    exact ⟨id, ⟨eventAt_lt hentry, hentry⟩, rfl, rfl⟩

/-- **The fixpoint finds the flags of all walks from the entry.** -/
theorem mem_reached (haccepted : graph.Accepted) {id : Nat} {flag : Bool} :
    (id, flag) ∈ graph.reached ↔ ∃ entry walk, graph.eventAt entry = some .entry ∧
      graph.Walk entry walk id ∧ (flag = true ↔ graph.Pending walk) := by
  have hclosed : ∀ state ∈ graph.states, ∀ next ∈ graph.flagNext state, next ∈ graph.states := by
    rintro ⟨id, flag⟩ - ⟨to_, flag'⟩ hnext
    obtain ⟨event, edge, -, hmem, -, rfl, -⟩ := mem_flagNext.mp hnext
    simp [states, (haccepted.in_range edge hmem).2]
  have hstart : ∀ state ∈ graph.flagStart, state ∈ graph.states := by
    rintro ⟨id, flag⟩ hstate
    simp [states, eventAt_lt (mem_flagStart.mp hstate).1]
  rw [reached, mem_search hclosed hstart (Nat.add_le_add_left graph.sum_flagNext_le _)]
  constructor
  · rintro ⟨⟨entry, flag'⟩, hmem, hleads⟩
    obtain ⟨hentry, rfl⟩ := mem_flagStart.mp hmem
    obtain ⟨walk, hwalk, hflag⟩ := (leads_iff haccepted).mp hleads
    exact ⟨entry, walk, hentry, hwalk, hflag⟩
  · rintro ⟨entry, walk, hentry, hwalk, hflag⟩
    exact ⟨(entry, false), mem_flagStart.mpr ⟨hentry, rfl⟩,
      (leads_iff haccepted).mpr ⟨walk, hwalk, hflag⟩⟩

theorem mem_reached_true (haccepted : graph.Accepted) {id : Nat} :
    (id, true) ∈ graph.reached ↔ graph.PendingAt id := by
  rw [mem_reached haccepted]
  simp [PendingAt]

/-- A node that returns an error, or a value that can be one. -/
def ErrorExit (graph : FlowGraph) (id : Nat) : Prop :=
  ∃ outcome, graph.eventAt id = some (.exit outcome) ∧ outcome ≠ .ok

end FlowGraph

/-! ### What the fixpoint reports -/

section Findings

variable {body : BodyNode} {graph : FlowGraph}

/-- The gap is the exit at this node. -/
def Reports (body : BodyNode) (graph : FlowGraph) (id : Nat) (gap : Gap) : Prop :=
  ∃ node, graph.nodes[id]? = some node ∧ node.event = .exit gap.outcome ∧ gap.at_ = node.at_ ∧
    gap.body = body.id

/-- The gap that an exit of an entry body is. -/
def gapAt (body : BodyNode) (graph : FlowGraph) (id : Nat) : Option Gap :=
  (graph.nodes[id]?).bind fun node => (finding body true node).bind Finding.asGap

theorem asGap_finding {node : FlowNode} {gap : Gap} :
    (finding body true node).bind Finding.asGap = some gap ↔
      gap.outcome ≠ .ok ∧ node.event = .exit gap.outcome ∧ gap.at_ = node.at_ ∧
        gap.body = body.id := by
  obtain ⟨id, at_, result⟩ := gap
  unfold finding
  cases hevent : node.event with
  | exit outcome =>
    dsimp only
    rw [if_neg (by decide), FlowEvent.exit.injEq]
    by_cases hok : outcome = .ok
    · rw [if_neg (not_not.mpr hok)]
      constructor
      · intro h
        cases h
      · rintro ⟨hne, rfl, -⟩
        exact absurd hok hne
    · rw [if_pos hok]
      simp only [Option.bind_some, Finding.asGap, Option.some.injEq, Gap.mk.injEq]
      constructor
      · rintro ⟨rfl, rfl, rfl⟩
        exact ⟨hok, rfl, rfl, rfl⟩
      · rintro ⟨-, rfl, rfl, rfl⟩
        exact ⟨rfl, rfl, rfl⟩
  | _ => simp [Finding.asGap]

theorem gapAt_eq_some {id : Nat} {gap : Gap} :
    gapAt body graph id = some gap ↔ gap.outcome ≠ .ok ∧ Reports body graph id gap := by
  rw [gapAt, Option.bind_eq_some_iff, Reports]
  constructor
  · rintro ⟨node, hnode, hgap⟩
    obtain ⟨hne, hevent, hat, hbody⟩ := asGap_finding.mp hgap
    exact ⟨hne, node, hnode, hevent, hat, hbody⟩
  · rintro ⟨hne, node, hnode, hevent, hat, hbody⟩
    exact ⟨node, hnode, asGap_finding.mpr ⟨hne, hevent, hat, hbody⟩⟩

theorem isSome_gapAt {id : Nat} : (gapAt body graph id).isSome = true ↔ graph.ErrorExit id := by
  rw [Option.isSome_iff_exists]
  constructor
  · rintro ⟨gap, hgap⟩
    obtain ⟨hne, node, hnode, hevent, -⟩ := gapAt_eq_some.mp hgap
    exact ⟨gap.outcome, by rw [FlowGraph.eventAt, hnode, Option.map_some, hevent], hne⟩
  · rintro ⟨outcome, hevent, hne⟩
    obtain ⟨node, hnode, hexit⟩ := Option.map_eq_some_iff.mp hevent
    exact ⟨⟨body.id, node.at_, outcome⟩, gapAt_eq_some.mpr ⟨hne, node, hnode, hexit, rfl, rfl⟩⟩

theorem bodyGaps_root_eq :
    (bodyGaps body graph true).1 = ((List.range graph.nodes.length).filter fun id =>
      (id, true) ∈ graph.reached).filterMap (gapAt body graph) := by
  rw [bodyGaps, findings, List.filterMap_filterMap]
  refine congrArg (fun f => List.filterMap f _) (funext fun id => ?_)
  rw [gapAt, Option.bind_assoc]

/-- What a `filterMap` keeps, position by position. -/
theorem forall₂_filterMap {α β : Type} (pick : α → Option β) (items : List α) :
    List.Forall₂ (fun item found => pick item = some found)
      (items.filter fun item => (pick item).isSome) (items.filterMap pick) := by
  induction items with
  | nil => exact .nil
  | cons item items ih =>
    cases hpick : pick item with
    | none =>
      rw [List.filterMap_cons_none hpick, List.filter_cons_of_neg (by simp [hpick])]
      exact ih
    | some found =>
      rw [List.filterMap_cons_some hpick, List.filter_cons_of_pos (by simp [hpick])]
      exact .cons hpick ih

/-- **The gaps of an entry body are the error exits of its pending walks.** -/
theorem bodyGaps_root (haccepted : graph.Accepted) :
    ∃ ids : List Nat, ids.Pairwise (· < ·) ∧
      List.Forall₂ (Reports body graph) ids (bodyGaps body graph true).1 ∧
        ∀ id, id ∈ ids ↔ graph.ErrorExit id ∧ graph.PendingAt id := by
  rw [bodyGaps_root_eq]
  refine ⟨_, ?_, (forall₂_filterMap (gapAt body graph) _).imp fun id gap hgap =>
    (gapAt_eq_some.mp hgap).2, ?_⟩
  · exact (List.pairwise_lt_range.filter _).filter _
  · intro id
    rw [List.mem_filter, List.mem_filter, isSome_gapAt, decide_eq_true_eq,
      FlowGraph.mem_reached_true haccepted, List.mem_range]
    constructor
    · rintro ⟨⟨-, hpending⟩, hexit⟩
      exact ⟨hexit, hpending⟩
    · rintro ⟨⟨outcome, hevent, hne⟩, hpending⟩
      exact ⟨⟨FlowGraph.eventAt_lt hevent, hpending⟩, outcome, hevent, hne⟩

/-- Every exit that a helper leaves with a pending step is a reason. -/
theorem bodyGaps_helper (haccepted : graph.Accepted) {id : Nat} {outcome : ExitOutcome}
    (hexit : graph.eventAt id = some (.exit outcome)) (hpending : graph.PendingAt id) :
    (bodyGaps body graph false).2 ≠ ∅ := by
  obtain ⟨node, hnode, hevent⟩ := Option.map_eq_some_iff.mp hexit
  obtain ⟨text, htext⟩ : ∃ text, finding body false node = some (.reason text) := by
    rw [finding, hevent]
    exact ⟨_, rfl⟩
  have hfinding : Finding.reason text ∈ findings body graph false := by
    refine List.mem_filterMap.mpr ⟨id, ?_, by rw [hnode, Option.bind_some, htext]⟩
    rw [List.mem_filter, List.mem_range, decide_eq_true_eq, FlowGraph.mem_reached_true haccepted]
    exact ⟨FlowGraph.eventAt_lt hexit, hpending⟩
  rw [bodyGaps, Ne, List.toFinset_eq_empty_iff]
  exact List.ne_nil_of_mem (List.mem_filterMap.mpr ⟨_, hfinding, rfl⟩)

/-- Without a step nothing is ever pending. -/
theorem not_pendingAt_of_no_operation (hnone : graph.count isSagaOperation = 0) (id : Nat) :
    ¬ graph.PendingAt id := by
  rintro ⟨-, -, -, -, before, edge, after, -, ⟨forward, compensate, hcompletes⟩, -⟩
  obtain ⟨event, hevent, hoperation⟩ : ∃ event, graph.eventAt edge.from_ = some event ∧
      isSagaOperation event = true := by
    rcases hcompletes with ⟨hevent, -⟩ | hevent
    · exact ⟨_, hevent, rfl⟩
    · exact ⟨_, hevent, rfl⟩
  obtain ⟨node, hnode, rfl⟩ := Option.map_eq_some_iff.mp hevent
  have hmem : node ∈ graph.nodes.filter fun node => isSagaOperation node.event :=
    List.mem_filter.mpr ⟨List.mem_of_getElem? hnode, hoperation⟩
  rw [List.length_eq_zero_iff.mp hnone] at hmem
  cases hmem

end Findings

/-! ### Helpers -/

namespace WorkflowStructure

/-- A body runs as a helper when another body runs it, or when a handler body that runs as a helper
returns it. -/
inductive RunsAsHelper (workflow : WorkflowStructure) : String → Prop
  | started {body : BodyNode} {id : String} (mem : body ∈ workflow.bodies)
      (starts : id ∈ workflow.startedBy body) : RunsAsHelper workflow id
  | returned {handler : HandlerSite} {body id : String} (mem : handler ∈ workflow.handlers)
      (runs : body ∈ handler.bodies) (helper : RunsAsHelper workflow body)
      (returns : id ∈ handler.returns) : RunsAsHelper workflow id

variable {workflow : WorkflowStructure}

theorem mem_moreHelpers {helpers : Finset String} {id : String} :
    id ∈ workflow.moreHelpers helpers ↔ (∃ handler ∈ workflow.handlers,
      (∃ body ∈ handler.bodies, body ∈ helpers) ∧ id ∈ handler.returns) ∧ id ∉ helpers := by
  simp only [moreHelpers, List.mem_filter, List.mem_flatMap, List.any_eq_true, decide_eq_true_eq,
    and_assoc]

/-- The futures that the loop has not added yet. -/
def unknownReturns (workflow : WorkflowStructure) (helpers : Finset String) : Finset String :=
  (workflow.handlers.flatMap HandlerSite.returns).toFinset \ helpers

theorem mem_unknownReturns {helpers : Finset String} {id : String}
    (h : id ∈ workflow.moreHelpers helpers) : id ∈ workflow.unknownReturns helpers := by
  obtain ⟨⟨handler, hmem, -, hreturns⟩, hnew⟩ := mem_moreHelpers.mp h
  rw [unknownReturns, Finset.mem_sdiff, List.mem_toFinset]
  exact ⟨List.mem_flatMap.mpr ⟨handler, hmem, hreturns⟩, hnew⟩

/-- **The loop adds what handler bodies return until nothing is missing.** -/
theorem helperLoop_spec :
    ∀ (fuel : Nat) (helpers : Finset String), (workflow.unknownReturns helpers).card < fuel →
      (∀ id ∈ helpers, workflow.RunsAsHelper id) →
      helpers ⊆ workflow.helperLoop fuel helpers ∧
      (∀ id ∈ workflow.helperLoop fuel helpers, workflow.RunsAsHelper id) ∧
      workflow.moreHelpers (workflow.helperLoop fuel helpers) = [] := by
  intro fuel
  induction fuel with
  | zero => exact fun _ hfuel => absurd hfuel (Nat.not_lt_zero _)
  | succ fuel ih =>
    intro helpers hfuel hruns
    unfold helperLoop
    dsimp only
    split
    case isTrue hmore => exact ⟨fun id hid => hid, hruns, List.isEmpty_iff.mp hmore⟩
    case isFalse hmore =>
      have hruns' : ∀ id ∈ helpers ∪ (workflow.moreHelpers helpers).toFinset,
          workflow.RunsAsHelper id := by
        intro id hid
        rcases Finset.mem_union.mp hid with hid | hid
        · exact hruns id hid
        · obtain ⟨⟨handler, hmem, ⟨body, hbody, hhelper⟩, hreturns⟩, -⟩ :=
            mem_moreHelpers.mp (List.mem_toFinset.mp hid)
          exact .returned hmem hbody (hruns body hhelper) hreturns
      have hless : (workflow.unknownReturns
          (helpers ∪ (workflow.moreHelpers helpers).toFinset)).card <
            (workflow.unknownReturns helpers).card := by
        obtain ⟨id, hid⟩ := List.exists_mem_of_ne_nil _ (mt List.isEmpty_iff.mpr hmore)
        refine Finset.card_lt_card (Finset.ssubset_iff_of_subset ?_ |>.mpr
          ⟨id, mem_unknownReturns hid, fun hmem => ?_⟩)
        · exact Finset.sdiff_subset_sdiff (Finset.Subset.refl _) Finset.subset_union_left
        · exact (Finset.mem_sdiff.mp hmem).2
            (Finset.mem_union_right _ (List.mem_toFinset.mpr hid))
      obtain ⟨hkeeps, hsound, hdone⟩ := ih _ (by omega) hruns'
      exact ⟨fun id hid => hkeeps (Finset.mem_union_left _ hid), hsound, hdone⟩

/-- **`helper_calls` finds the bodies that run as helpers.** -/
theorem mem_helperCalls {id : String} : id ∈ workflow.helperCalls ↔ workflow.RunsAsHelper id := by
  have hfuel : (workflow.unknownReturns
      (workflow.bodies.flatMap workflow.startedBy).toFinset).card <
        (workflow.handlers.flatMap HandlerSite.returns).length + 1 :=
    Nat.lt_succ_of_le ((Finset.card_le_card Finset.sdiff_subset).trans
      (List.toFinset_card_le _))
  obtain ⟨hkeeps, hsound, hdone⟩ := helperLoop_spec _ _ hfuel (fun id hid => by
    obtain ⟨body, hbody, hstarts⟩ := List.mem_flatMap.mp (List.mem_toFinset.mp hid)
    exact .started hbody hstarts)
  constructor
  · exact hsound id
  · intro hruns
    induction hruns with
    | started hmem hstarts =>
      exact hkeeps (List.mem_toFinset.mpr (List.mem_flatMap.mpr ⟨_, hmem, hstarts⟩))
    | @returned handler body id hmem hbody _ hreturns ih =>
      by_contra hmissing
      have hmore : id ∈ workflow.moreHelpers workflow.helperCalls :=
        mem_moreHelpers.mpr ⟨⟨handler, hmem, ⟨body, hbody, ih⟩, hreturns⟩, hmissing⟩
      rw [helperCalls, hdone] at hmore
      cases hmore

end WorkflowStructure

/-! ### Covered workflows -/

/-- What a body contributes stays in the tally. -/
theorem subset_foldl_add (tallies : List Tally) :
    ∀ init : Tally, (init.gaps ⊆ (tallies.foldl Tally.add init).gaps ∧
      init.unknown ⊆ (tallies.foldl Tally.add init).unknown) ∧
      ∀ tally ∈ tallies, tally.gaps ⊆ (tallies.foldl Tally.add init).gaps ∧
        tally.unknown ⊆ (tallies.foldl Tally.add init).unknown := by
  induction tallies with
  | nil => exact fun init => ⟨⟨fun _ h => h, fun _ h => h⟩, fun _ h => absurd h List.not_mem_nil⟩
  | cons tally tallies ih =>
    intro init
    obtain ⟨⟨hgaps, hunknown⟩, hrest⟩ := ih (init.add tally)
    refine ⟨⟨fun gap hgap => hgaps (List.mem_append_left _ hgap),
      fun reason hreason => hunknown (Finset.mem_union_left _ hreason)⟩, fun other hother => ?_⟩
    rcases List.mem_cons.mp hother with rfl | hother
    · exact ⟨fun gap hgap => hgaps (List.mem_append_right _ hgap),
        fun reason hreason => hunknown (Finset.mem_union_right _ hreason)⟩
    · exact hrest other hother

theorem verdictOf_eq_covered {tally : Tally} (h : verdictOf tally = .covered) :
    tally.gaps = [] ∧ tally.unknown = ∅ := by
  unfold verdictOf at h
  split_ifs at h with hproven hunknown hsaga hgaps
  exact ⟨List.isEmpty_iff.mp hgaps, not_not.mp hunknown⟩

theorem mem_foldr_union {sets : List (Finset String)} {set : Finset String} (h : set ∈ sets) :
    set ⊆ sets.foldr (· ∪ ·) ∅ := by
  induction sets with
  | nil => cases h
  | cons first sets ih =>
    rcases List.mem_cons.mp h with rfl | h
    · exact Finset.subset_union_left
    · exact (ih h).trans Finset.subset_union_right

/-- In a covered workflow no body contributes a gap or a reason. -/
theorem covered_body {workflow : WorkflowStructure}
    (h : (checkWorkflow workflow).verdict = .covered) {body : BodyNode}
    (hbody : body ∈ workflow.bodies) :
    (checkBody workflow body).gaps = [] ∧ (checkBody workflow body).unknown = ∅ := by
  obtain ⟨hgaps, hunknown⟩ := verdictOf_eq_covered h
  obtain ⟨hsub, hsub'⟩ := (subset_foldl_add (workflow.bodies.map (checkBody workflow)) {}).2 _
    (List.mem_map_of_mem hbody)
  refine ⟨List.eq_nil_iff_forall_not_mem.mpr fun gap hgap => ?_,
    Finset.eq_empty_of_forall_notMem fun reason hreason => ?_⟩
  · have hmem := hsub hgap
    dsimp only at hgaps
    rw [hgaps] at hmem
    cases hmem
  · have hmem := Finset.mem_union_left (boundaryReasons workflow) (hsub' hreason)
    dsimp only at hunknown
    rw [hunknown] at hmem
    exact Finset.notMem_empty _ hmem

theorem checkOwner_quiet {workflow : WorkflowStructure} {body : BodyNode} {graph : FlowGraph}
    (hgaps : (checkOwner workflow body graph).gaps = [])
    (hunknown : (checkOwner workflow body graph).unknown = ∅) {way : Bool}
    (hway : way ∈ waysOf workflow body) :
    (bodyGaps body graph way).1 = [] ∧ (bodyGaps body graph way).2 = ∅ := by
  constructor
  · exact List.flatMap_eq_nil_iff.mp hgaps _ (List.mem_map_of_mem hway)
  · have hmem : (bodyGaps body graph way).2 ∈
        ((waysOf workflow body).map (bodyGaps body graph)).map Prod.snd :=
      List.mem_map_of_mem (List.mem_map_of_mem hway)
    have hsub : (bodyGaps body graph way).2 ⊆ (checkOwner workflow body graph).unknown :=
      (mem_foldr_union hmem).trans Finset.subset_union_right
    rw [hunknown] at hsub
    exact Finset.subset_empty.mp hsub

theorem mem_waysOf {workflow : WorkflowStructure} {body : BodyNode} :
    (true ∈ waysOf workflow body ↔ body.id ∈ workflow.entryBodies) ∧
    (false ∈ waysOf workflow body ↔
      body.id ∉ workflow.entryBodies ∨ workflow.RunsAsHelper body.id) := by
  rw [← WorkflowStructure.mem_helperCalls]
  unfold waysOf
  by_cases hentry : body.id ∈ workflow.entryBodies <;>
    by_cases hhelper : body.id ∈ workflow.helperCalls <;> simp [hentry, hhelper]

/-- The graphs of the bodies pass their check. -/
def WorkflowStructure.Validated (workflow : WorkflowStructure) : Prop :=
  ∀ body ∈ workflow.bodies, ∀ graph, body.flow = some graph → graph.validate body.steps = .ok ()

/-- **A covered workflow** leaves no entry body through an error exit, and no helper at all, with a
step pending. -/
theorem covered_spec {workflow : WorkflowStructure} (hvalid : workflow.Validated)
    (h : (checkWorkflow workflow).verdict = .covered) {body : BodyNode}
    (hbody : body ∈ workflow.bodies) :
    ∃ graph, body.flow = some graph ∧
      (body.id ∈ workflow.entryBodies → ∀ id, graph.ErrorExit id → ¬ graph.PendingAt id) ∧
      (body.id ∉ workflow.entryBodies ∨ workflow.RunsAsHelper body.id →
        ∀ id outcome, graph.eventAt id = some (.exit outcome) → ¬ graph.PendingAt id) := by
  obtain ⟨hgaps, hunknown⟩ := covered_body h hbody
  unfold checkBody at hgaps hunknown
  cases hflow : body.flow with
  | none =>
    rw [hflow] at hunknown
    exact absurd hunknown (Finset.singleton_ne_empty _)
  | some graph =>
    rw [hflow] at hgaps hunknown
    dsimp only at hgaps hunknown
    refine ⟨graph, rfl, ?_⟩
    by_cases hnone : graph.count isSagaNew = 0 ∧ graph.count isSagaOperation = 0
    · exact ⟨fun _ id _ => not_pendingAt_of_no_operation hnone.2 id,
        fun _ id _ _ => not_pendingAt_of_no_operation hnone.2 id⟩
    · rw [if_neg hnone] at hgaps hunknown
      by_cases howner : graph.count isSagaNew = 0
      · rw [if_pos howner] at hunknown
        exact absurd hunknown (Finset.singleton_ne_empty _)
      · rw [if_neg howner] at hgaps hunknown
        have haccepted := FlowGraph.validate_ok (hvalid body hbody graph hflow)
        constructor
        · intro hentry id hexit hpending
          have hquiet := (checkOwner_quiet hgaps hunknown (mem_waysOf.1.mpr hentry)).1
          obtain ⟨ids, -, hreports, hmem⟩ := bodyGaps_root haccepted
          rw [hquiet] at hreports
          cases hreports
          exact List.not_mem_nil ((hmem id).mpr ⟨hexit, hpending⟩)
        · intro hhelper id outcome hexit hpending
          exact bodyGaps_helper haccepted hexit hpending
            (checkOwner_quiet hgaps hunknown (mem_waysOf.2.mpr hhelper)).2

/-- **The saga check is exact on accepted graphs.** As an entry a body has a gap at exactly the error
exits that a pending walk from the entry reaches. If a workflow is covered, no entry body has such a
walk, and no helper body has a pending walk to any exit. -/
theorem saga_check_is_exact :
    (∀ (body : BodyNode) (graph : FlowGraph) (steps : Nat), graph.validate steps = .ok () →
      ∃ ids : List Nat, ids.Pairwise (· < ·) ∧
        List.Forall₂ (Reports body graph) ids (bodyGaps body graph true).1 ∧
          ∀ id, id ∈ ids ↔ graph.ErrorExit id ∧ graph.PendingAt id) ∧
    ∀ workflow : WorkflowStructure, workflow.Validated →
      (checkWorkflow workflow).verdict = .covered → ∀ body ∈ workflow.bodies,
        ∃ graph, body.flow = some graph ∧
          (body.id ∈ workflow.entryBodies → ∀ id, graph.ErrorExit id → ¬ graph.PendingAt id) ∧
          (body.id ∉ workflow.entryBodies ∨ workflow.RunsAsHelper body.id →
            ∀ id outcome, graph.eventAt id = some (.exit outcome) → ¬ graph.PendingAt id) :=
  ⟨fun _ _ _ hvalid => bodyGaps_root (FlowGraph.validate_ok hvalid),
    fun _ hvalid hcovered _ hbody => covered_spec hvalid hcovered hbody⟩

/-- A tracked step whose `ok` edge leads to an exit with this outcome. -/
def oneStep (outcome : ExitOutcome) : FlowGraph where
  nodes := [⟨"bb0", .entry⟩, ⟨"bb1", .sagaNew⟩, ⟨"bb2", .sagaStep [] [] true⟩,
    ⟨"bb3", .exit outcome⟩, ⟨"bb4", .exit .err⟩]
  edges := [⟨0, 1, none⟩, ⟨1, 2, none⟩, ⟨2, 3, some .ok⟩, ⟨2, 4, some .err⟩]

def oneStepBody (outcome : ExitOutcome) : BodyNode where
  id := "wf"
  flow := some (oneStep outcome)

def oneStepWorkflow (outcome : ExitOutcome) : WorkflowStructure where
  workflow := "w::wf"
  name := "wf"
  root := "wf"
  bodies := [oneStepBody outcome]

/-- An error after the step is a gap; an `Ok` after it leaves the workflow covered. -/
theorem one_step_gap_and_covered :
    (oneStep .err).PendingAt 3 ∧ ¬ (oneStep .ok).PendingAt 4 := by
  obtain ⟨hgaps, hcovered⟩ := saga_check_is_exact
  constructor
  · obtain ⟨ids, -, hreports, hmem⟩ := hgaps (oneStepBody .err) (oneStep .err) 0 (by decide +kernel)
    have hfound : (bodyGaps (oneStepBody .err) (oneStep .err) true).1 = [⟨"wf", "bb3", .err⟩] := by
      decide +kernel
    rw [hfound] at hreports
    cases hreports with
    | @cons id _ ids _ hreport hrest =>
      cases hrest
      have hpending := ((hmem id).mp List.mem_cons_self).2
      obtain ⟨node, hnode, -, hat, -⟩ := hreport
      have hlt : id < 5 := (List.getElem?_eq_some_iff.mp hnode).1
      obtain rfl | rfl | rfl | rfl | rfl : id = 0 ∨ id = 1 ∨ id = 2 ∨ id = 3 ∨ id = 4 := by omega
      all_goals first | exact hpending | (cases hnode; exact absurd hat (by decide))
  · have hvalid : (oneStepWorkflow .ok).Validated := by
      intro body hbody graph hgraph
      rw [List.mem_singleton.mp hbody] at hgraph ⊢
      cases hgraph
      decide +kernel
    obtain ⟨graph, hgraph, hentry, -⟩ := hcovered (oneStepWorkflow .ok) hvalid (by decide +kernel)
      (oneStepBody .ok) List.mem_cons_self
    cases hgraph
    exact hentry (by decide +kernel) 4 ⟨.err, rfl, by decide⟩

end Harvest.Verify
