import Harvest.Lib.Checks
import Harvest.Lib.Worklist

/-!
# Flow graphs

The flow graph of a body in a structure manifest (`structure.rs`), and what `validate` of `saga.rs`
refuses in one.

Proved here:
* `validate_ok`: what every accepted graph satisfies.
-/

namespace Harvest.Verify

open Harvest.Lib

/-- `ExitOutcome` -/
inductive ExitOutcome where
  | ok
  | err
  | unknown
  deriving DecidableEq

def ExitOutcome.name : ExitOutcome → String
  | .ok => "ok"
  | .err => "err"
  | .unknown => "unknown"

/-- `FlowEvent` -/
inductive FlowEvent where
  | entry
  | step (step : Nat)
  | call (callees : List String)
  | handler (handler : Nat)
  | sagaNew
  | sagaStep (forward compensate : List String) (tracked : Bool)
  | sagaCompensate (tracked : Bool)
  | sagaEscape (to_ : String)
  | exit (outcome : ExitOutcome)
  deriving DecidableEq

namespace FlowEvent

def isEntry : FlowEvent → Bool
  | .entry => true
  | _ => false

def isExit : FlowEvent → Bool
  | .exit _ => true
  | _ => false

def isTrackedStep : FlowEvent → Bool
  | .sagaStep _ _ tracked => tracked
  | _ => false

end FlowEvent

/-- `EdgeLabel` -/
inductive EdgeLabel where
  | ok
  | err
  deriving DecidableEq

/-- `FlowNode` -/
structure FlowNode where
  at_ : String
  event : FlowEvent
  deriving DecidableEq

/-- `FlowEdge` -/
structure FlowEdge where
  from_ : Nat
  to_ : Nat
  label : Option EdgeLabel
  deriving DecidableEq

/-- `FlowGraph`. A node id is its index in `nodes`. -/
structure FlowGraph where
  nodes : List FlowNode
  edges : List FlowEdge
  deriving DecidableEq

namespace FlowGraph

/-- The event of a node, if the graph has it. -/
def eventAt (graph : FlowGraph) (id : Nat) : Option FlowEvent :=
  (graph.nodes[id]?).map FlowNode.event

/-- The edges out of a node. -/
def out (graph : FlowGraph) (id : Nat) : List FlowEdge := graph.edges.filter (·.from_ = id)

/-- `count` -/
def count (graph : FlowGraph) (pick : FlowEvent → Bool) : Nat :=
  (graph.nodes.filter fun node => pick node.event).length

/-! ### Validation -/

def validateEntry (graph : FlowGraph) : Except String Unit :=
  let entries := graph.count FlowEvent.isEntry
  refuseIf (entries != 1) s!"the flow graph has {entries} entry nodes, not 1"

def validateEnd (graph : FlowGraph) (id : Nat) : Except String Unit :=
  let size := graph.nodes.length
  refuseIf (size ≤ id) s!"an edge names node {id}, but the graph has {size} nodes"

def validateEnds (graph : FlowGraph) : Except String Unit :=
  forM graph.edges fun edge => do
    graph.validateEnd edge.from_
    graph.validateEnd edge.to_

/-- A step node indexes the steps of the body. -/
def validateStep (steps : Nat) (node : FlowNode) : Except String Unit :=
  match node.event with
  | .step step =>
    refuseIf (steps ≤ step) s!"a node names step {step}, but the body has {steps} steps"
  | _ => .ok ()

/-- An exit returns, so nothing runs after it. -/
def validateExits (graph : FlowGraph) : Except String Unit :=
  match graph.edges.find? fun edge => (graph.eventAt edge.from_).any FlowEvent.isExit with
  | some edge => .error s!"the exit at node {edge.from_} has an out-edge"
  | none => .ok ()

/-- The nodes that the entry reaches. -/
def seen (graph : FlowGraph) : Finset Nat :=
  let entry := (graph.nodes.findIdx? (·.event.isEntry)).getD 0
  search (fun id => (graph.out id).map FlowEdge.to_) (1 + graph.edges.length) [entry] ∅

def validateReached (graph : FlowGraph) : Except String Unit :=
  match (List.range graph.nodes.length).find? (· ∉ graph.seen) with
  | some id => .error s!"node {id} cannot be reached from the entry"
  | none => .ok ()

/-- A tracked step has an `ok` and an `err` edge, and only its edges carry a label. -/
def validateLabels (graph : FlowGraph) (id : Nat) : Except String Unit := do
  let tracked := (graph.eventAt id).any FlowEvent.isTrackedStep
  let labels := (graph.out id).map FlowEdge.label
  refuseIf (!tracked && labels.any Option.isSome)
    s!"node {id} has a labeled edge, but it is not a tracked step"
  refuseIf (tracked && decide (none ∈ labels))
    s!"the tracked step at node {id} has an unlabeled edge"
  refuseIf (tracked && decide (some EdgeLabel.ok ∉ labels))
    s!"the tracked step at node {id} has no `ok` edge"
  refuseIf (tracked && decide (some EdgeLabel.err ∉ labels))
    s!"the tracked step at node {id} has no `err` edge"

/-- `validate` -/
def validate (graph : FlowGraph) (steps : Nat) : Except String Unit := do
  graph.validateEntry
  graph.validateEnds
  forM graph.nodes (validateStep steps)
  graph.validateExits
  graph.validateReached
  forM (List.range graph.nodes.length) graph.validateLabels

/-- What the checks of a graph establish about its edges. -/
structure Accepted (graph : FlowGraph) : Prop where
  one_entry : graph.count FlowEvent.isEntry = 1
  in_range : ∀ edge ∈ graph.edges, edge.from_ < graph.nodes.length ∧ edge.to_ < graph.nodes.length
  exits_last : ∀ edge ∈ graph.edges, ∀ outcome, graph.eventAt edge.from_ ≠ some (.exit outcome)
  labeled : ∀ edge ∈ graph.edges, ∀ forward compensate,
    graph.eventAt edge.from_ = some (.sagaStep forward compensate true) → edge.label ≠ none

theorem validateEnd_ok {graph : FlowGraph} {id : Nat} (h : graph.validateEnd id = .ok ()) :
    id < graph.nodes.length := by
  have hsize := refuseIf_eq_ok.mp h
  rw [decide_eq_false_iff_not] at hsize
  omega

/-- **What every accepted graph satisfies.** -/
theorem validate_ok {graph : FlowGraph} {steps : Nat} (h : graph.validate steps = .ok ()) :
    graph.Accepted := by
  unfold validate at h
  obtain ⟨hentry, h⟩ := seq_eq_ok.mp h
  obtain ⟨hends, h⟩ := seq_eq_ok.mp h
  obtain ⟨-, h⟩ := seq_eq_ok.mp h
  obtain ⟨hexits, h⟩ := seq_eq_ok.mp h
  obtain ⟨-, hlabels⟩ := seq_eq_ok.mp h
  have hrange : ∀ edge ∈ graph.edges,
      edge.from_ < graph.nodes.length ∧ edge.to_ < graph.nodes.length := by
    intro edge hedge
    obtain ⟨hfrom, hto⟩ := seq_eq_ok.mp (forM_eq_ok.mp hends edge hedge)
    exact ⟨validateEnd_ok hfrom, validateEnd_ok hto⟩
  refine ⟨?_, hrange, ?_, ?_⟩
  · have hcount := refuseIf_eq_ok.mp hentry
    simpa using hcount
  · intro edge hedge outcome hevent
    unfold validateExits at hexits
    cases hfind : graph.edges.find? fun edge => (graph.eventAt edge.from_).any FlowEvent.isExit with
    | some other =>
      rw [hfind] at hexits
      cases hexits
    | none =>
      have hnot := List.find?_eq_none.mp hfind edge hedge
      rw [hevent] at hnot
      exact hnot rfl
  · intro edge hedge forward compensate hevent hnone
    have hone := forM_eq_ok.mp hlabels edge.from_ (List.mem_range.mpr (hrange edge hedge).1)
    obtain ⟨-, hone⟩ := seq_eq_ok.mp hone
    obtain ⟨hunlabeled, -⟩ := seq_eq_ok.mp hone
    have hmem : none ∈ (graph.out edge.from_).map FlowEdge.label := by
      rw [← hnone]
      exact List.mem_map_of_mem (List.mem_filter.mpr ⟨hedge, by simp⟩)
    have htracked : (graph.eventAt edge.from_).any FlowEvent.isTrackedStep = true := by
      rw [hevent]
      rfl
    have hclash := refuseIf_eq_ok.mp hunlabeled
    rw [htracked, Bool.true_and, decide_eq_false_iff_not] at hclash
    exact hclash hmem

end FlowGraph

end Harvest.Verify
