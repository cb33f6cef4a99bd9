import Harvest.Verify.Cycles
import Harvest.Verify.FlowGraph
import Mathlib.Algebra.BigOperators.Group.Finset.Piecewise
import Mathlib.Algebra.Order.BigOperators.Group.Finset
import Mathlib.Data.Finset.Sort
import Mathlib.Algebra.GroupWithZero.Nat

/-!
# Building the flow graph of a body

Model of `build`, `track`, `reach_nodes` and `entry_block` in `flow.rs`. What a single block means
(which event its terminator is, which saga value escapes it, what its exit returns, where the `.await?`
after it goes) is read from a `Classifier`, one field for each function of the source that decides it.

Every block without cleanup gets a chain of nodes. The edges between chains are found by a search that
passes blocks without events and stops at the first event.

Proved here:
* `chainOf_placed`, `Placed.unique`: the chains cut the nodes into one run of ids for each block.
* `mem_reachNodes`: the search finds the first events, and nothing else.
* `flow_graph_keeps_the_paths`: walks of the graph are paths of the body.
-/

namespace Harvest.Verify

open Harvest.Lib

/-- A body, with what only `entry_block` reads of it. -/
structure FlowBody extends Body where
  /-- The types of the parameters. -/
  paramTypes : List String := []
  /-- The values of the switch that ends the first block. -/
  switchValues : List String := []

/-- What the blocks of one body mean. -/
structure Classifier where
  /-- `escapes`: what each saga value that escapes the block reaches. -/
  escapes : BasicBlock → List String
  /-- `exit_outcomes` -/
  exitOutcome : String → Option ExitOutcome
  /-- `block_event` -/
  blockEvent : BasicBlock → Option FlowEvent
  /-- `await_walk` for the arms of the `?` behind a step. -/
  awaitArms : BasicBlock → Option (String × String)
  /-- `await_walk` finds that the future is awaited. -/
  awaited : BasicBlock → Bool
  /-- `future_escape` -/
  futureEscape : BasicBlock → Option String
  /-- The event of a terminator is neither the entry nor an exit. -/
  inner : ∀ block event, blockEvent block = some event →
    event.isEntry = false ∧ event.isExit = false

namespace Classifier

variable (c : Classifier)

/-- `track`: the nodes of an event, and the arms of a tracked step. -/
def track (block : BasicBlock) : FlowEvent → List FlowEvent × Option (String × String)
  | .sagaStep forward compensate _ =>
    let pair := c.awaitArms block
    ([.sagaStep forward compensate pair.isSome], pair)
  | .sagaCompensate _ =>
    let tracked := c.awaited block
    let escape := if tracked then [] else (c.futureEscape block).toList.map .sagaEscape
    (escape ++ [.sagaCompensate tracked], none)
  | event => ([event], none)

/-- The last events of a block: its exit, or the event of its terminator. -/
def tail (block : BasicBlock) : List FlowEvent × Option (String × String) :=
  match c.exitOutcome block.label with
  | some outcome => ([.exit outcome], none)
  | none => (c.blockEvent block).elim ([], none) (c.track block)

/-- The events of a block, in order. -/
def events (block : BasicBlock) : List FlowEvent :=
  (c.escapes block).map .sagaEscape ++ (c.tail block).1

/-- The arms of the step that ends a block. -/
def arms (block : BasicBlock) : Option (String × String) := (c.tail block).2

def isExit (block : BasicBlock) : Bool := (c.exitOutcome block.label).isSome

end Classifier

/-! ### The nodes -/

/-- The nodes so far, the chain of each block that has one, and the arms of tracked steps. -/
structure Layout where
  nodes : List FlowNode
  chains : List (String × List Nat) := []
  arms : List (Nat × String × String) := []

namespace Layout

/-- The nodes of one more block. -/
def addBlock (c : Classifier) (layout : Layout) (block : BasicBlock) : Layout :=
  let chain := List.range' layout.nodes.length (c.events block).length
  { nodes := layout.nodes ++ (c.events block).map fun event => ⟨block.label, event⟩
    chains := if chain.isEmpty then layout.chains else layout.chains ++ [(block.label, chain)]
    arms := layout.arms ++
      ((c.arms block).toList.flatMap fun pair => chain.getLast?.toList.map fun id => (id, pair)) }

/-- `chains.get`, empty for a block without a chain. -/
def chainOf (layout : Layout) (label : String) : List Nat :=
  (layout.chains.find? (·.1 = label)).elim [] Prod.snd

end Layout

namespace FlowBody

variable (body : FlowBody)

/-- `is_coroutine` -/
def isCoroutine : Bool :=
  body.paramTypes.head?.any fun ty => ty.contains "\x7basync" || ty.contains "\x7bcoroutine"

/-- `entry_block` -/
def entryBlock : Option String :=
  body.blocks.head?.bind fun first =>
    match first.terminator, body.switchValues.findIdx? (· = "0") with
    | .switchInt _ targets, some at_ =>
      if body.isCoroutine then targets[at_]? else some first.label
    | _, _ => some first.label

def layout (c : Classifier) : Layout :=
  body.plain.blocks.foldl (Layout.addBlock c) { nodes := [⟨body.entryBlock.getD "", .entry⟩] }

/-- What the search of `reach_nodes` goes on to. It stops at a block with a chain. -/
def silentNext (c : Classifier) (label : String) : List String :=
  if ((body.layout c).chainOf label).isEmpty then
    (body.blocks.find? (·.label = label)).elim [] fun block =>
      if block.cleanup then [] else block.terminator.successors
  else []

/-- `reach_nodes` -/
def reachNodes (c : Classifier) (start : String) : Finset Nat :=
  (search (body.silentNext c)
    (1 + (body.blocks.map fun block => block.terminator.successors.length).sum) [start] ∅).biUnion
    fun label => ((body.layout c).chainOf label).head?.elim ∅ singleton

/-- Both arms reach a node, or the step is not tracked. -/
def bothArms (c : Classifier) (arm : Nat × String × String) : Bool :=
  decide (body.reachNodes c arm.2.1 ≠ ∅ ∧ body.reachNodes c arm.2.2 ≠ ∅)

/-- `arms`, after its `retain`. -/
def tracked (c : Classifier) : List (Nat × String × String) :=
  (body.layout c).arms.filter (body.bothArms c)

end FlowBody

/-- A step whose result is not tracked. -/
def FlowEvent.untrack : FlowEvent → FlowEvent
  | .sagaStep forward compensate _ => .sagaStep forward compensate false
  | event => event

namespace FlowBody

variable (body : FlowBody)

/-- The nodes, with the steps untracked that lost their arms. -/
def nodes (c : Classifier) : List FlowNode :=
  let dropped := (body.layout c).arms.filter fun arm => !body.bothArms c arm
  (body.layout c).nodes.mapIdx fun id node =>
    if dropped.any (·.1 = id) then { node with event := node.event.untrack } else node

/-! ### The edges -/

/-- The edges to what a label reaches. -/
def reach (c : Classifier) (from_ : Nat) (label : Option EdgeLabel) (start : String) :
    List FlowEdge :=
  ((body.reachNodes c start).sort (· ≤ ·)).map fun to_ => ⟨from_, to_, label⟩

/-- The edges out of the last node of a chain. -/
def lastEdges (c : Classifier) (label : String) (last : Nat) : List FlowEdge :=
  if ((body.nodes c)[last]?).any (·.event.isExit) then []
  else
    match (body.tracked c).find? (·.1 = last) with
    | some (_, ok, err) => body.reach c last (some .ok) ok ++ body.reach c last (some .err) err
    | none =>
      (body.blocks.find? (·.label = label)).elim [] fun block =>
        block.terminator.successors.flatMap (body.reach c last none)

def chainEdges (c : Classifier) (label : String) (chain : List Nat) : List FlowEdge :=
  ((chain.zip chain.tail).map fun pair => ⟨pair.1, pair.2, none⟩) ++
    chain.getLast?.elim [] (body.lastEdges c label)

def entryEdges (c : Classifier) : List FlowEdge := body.entryBlock.elim [] (body.reach c 0 none)

end FlowBody

/-- The order of the labels of an edge: no label, `ok`, `err`. -/
def EdgeLabel.rank : Option EdgeLabel → Nat
  | none => 0
  | some .ok => 1
  | some .err => 2

/-- The order of edges: by source, by target, by label. -/
def FlowEdge.le (a b : FlowEdge) : Bool :=
  a.from_ < b.from_ || (a.from_ = b.from_ && (a.to_ < b.to_ || (a.to_ = b.to_ &&
    EdgeLabel.rank a.label ≤ EdgeLabel.rank b.label)))

/-- `build` -/
def build (c : Classifier) (body : FlowBody) : FlowGraph where
  nodes := body.nodes c
  edges := (body.entryEdges c ++ (body.layout c).chains.flatMap fun chain =>
    body.chainEdges c chain.1 chain.2).dedup.mergeSort FlowEdge.le

/-! ### Where the nodes of a block are -/

section Layout

variable (c : Classifier)

/-- The number of nodes of these blocks. -/
def width (blocks : List BasicBlock) : Nat := (blocks.map fun block => (c.events block).length).sum

/-- The chains of these blocks, when the next id is `k`. -/
def chainsFrom : Nat → List BasicBlock → List (String × List Nat)
  | _, [] => []
  | k, block :: blocks =>
    (if (c.events block).isEmpty then [] else
      [(block.label, List.range' k (c.events block).length)]) ++
      chainsFrom (k + (c.events block).length) blocks

/-- The arms of these blocks, when the next id is `k`. -/
def armsFrom : Nat → List BasicBlock → List (Nat × String × String)
  | _, [] => []
  | k, block :: blocks =>
    ((c.arms block).toList.flatMap fun pair =>
      (List.range' k (c.events block).length).getLast?.toList.map fun id => (id, pair)) ++
      armsFrom (k + (c.events block).length) blocks

variable {c}

/-- The loop over the blocks, in closed form. -/
theorem foldl_addBlock (blocks : List BasicBlock) :
    ∀ layout : Layout, blocks.foldl (Layout.addBlock c) layout =
      { nodes := layout.nodes ++ blocks.flatMap fun block =>
          (c.events block).map fun event => ⟨block.label, event⟩
        chains := layout.chains ++ chainsFrom c layout.nodes.length blocks
        arms := layout.arms ++ armsFrom c layout.nodes.length blocks } := by
  induction blocks with
  | nil =>
    intro layout
    simp [chainsFrom, armsFrom]
  | cons block blocks ih =>
    intro layout
    rw [List.foldl_cons, ih]
    simp only [Layout.addBlock, List.length_append, List.length_map, List.flatMap_cons, chainsFrom,
      armsFrom, List.append_assoc, Layout.mk.injEq, true_and, and_true]
    by_cases hempty : c.events block = []
    · simp [hempty]
    · simp [hempty]

theorem width_append (front back : List BasicBlock) :
    width c (front ++ back) = width c front + width c back := by
  rw [width, List.map_append, List.sum_append]
  rfl

theorem mem_chainsFrom {blocks : List BasicBlock} {chain : String × List Nat} :
    ∀ {k : Nat}, chain ∈ chainsFrom c k blocks ↔ ∃ front block back,
      blocks = front ++ block :: back ∧ c.events block ≠ [] ∧
        chain = (block.label, List.range' (k + width c front) (c.events block).length) := by
  induction blocks with
  | nil => simp [chainsFrom]
  | cons first blocks ih =>
    intro k
    rw [chainsFrom, List.mem_append, ih]
    constructor
    · rintro (hfirst | ⟨front, block, back, rfl, hevents, rfl⟩)
      · by_cases hempty : c.events first = []
        · simp [hempty] at hfirst
        · rw [if_neg (by simpa using hempty), List.mem_singleton] at hfirst
          exact ⟨[], first, blocks, rfl, hempty, by simpa [width] using hfirst⟩
      · exact ⟨first :: front, block, back, rfl, hevents, by simp [width, Nat.add_assoc]⟩
    · rintro ⟨front, block, back, heq, hevents, rfl⟩
      cases front with
      | nil =>
        obtain ⟨rfl, rfl⟩ := List.cons.inj heq
        refine .inl ?_
        rw [if_neg (by simpa using hevents)]
        simp [width]
      | cons other front =>
        obtain ⟨rfl, rfl⟩ := List.cons.inj heq
        exact .inr ⟨front, block, back, rfl, hevents, by simp [width, Nat.add_assoc]⟩

theorem mem_armsFrom {blocks : List BasicBlock} {id : Nat} {pair : String × String} :
    ∀ {k : Nat}, (id, pair) ∈ armsFrom c k blocks ↔ ∃ front block back,
      blocks = front ++ block :: back ∧ c.arms block = some pair ∧
        (List.range' (k + width c front) (c.events block).length).getLast? = some id := by
  induction blocks with
  | nil => simp [armsFrom]
  | cons first blocks ih =>
    intro k
    rw [armsFrom, List.mem_append, ih]
    constructor
    · rintro (hfirst | ⟨front, block, back, rfl, harms, hid⟩)
      · obtain ⟨pair', hpair, hmem⟩ := List.mem_flatMap.mp hfirst
        obtain ⟨id', hid, heq⟩ := List.mem_map.mp hmem
        obtain ⟨rfl, rfl⟩ := Prod.mk.inj heq
        exact ⟨[], first, blocks, rfl, Option.mem_toList.mp hpair,
          by simpa [width] using Option.mem_toList.mp hid⟩
      · exact ⟨first :: front, block, back, rfl, harms, by simpa [width, Nat.add_assoc] using hid⟩
    · rintro ⟨front, block, back, heq, harms, hid⟩
      cases front with
      | nil =>
        obtain ⟨rfl, rfl⟩ := List.cons.inj heq
        refine .inl (List.mem_flatMap.mpr ⟨pair, Option.mem_toList.mpr harms,
          List.mem_map.mpr ⟨id, Option.mem_toList.mpr ?_, rfl⟩⟩)
        simpa [width] using hid
      | cons other front =>
        obtain ⟨rfl, rfl⟩ := List.cons.inj heq
        exact .inr ⟨front, block, back, rfl, harms, by simpa [width, Nat.add_assoc] using hid⟩

/-- The chain of a block starts at this id. -/
def Placed (c : Classifier) (body : FlowBody) (block : BasicBlock) (k : Nat) : Prop :=
  ∃ front back, body.plain.blocks = front ++ block :: back ∧ k = 1 + width c front

variable {body : FlowBody} {block other : BasicBlock} {k k' : Nat}

theorem layout_eq (c : Classifier) (body : FlowBody) : body.layout c =
    { nodes := ⟨body.entryBlock.getD "", .entry⟩ :: body.plain.blocks.flatMap fun block =>
        (c.events block).map fun event => ⟨block.label, event⟩
      chains := chainsFrom c 1 body.plain.blocks
      arms := armsFrom c 1 body.plain.blocks } := by
  rw [FlowBody.layout, foldl_addBlock]
  simp

theorem exists_placed (h : block ∈ body.plain.blocks) : ∃ k, Placed c body block k := by
  obtain ⟨front, back, heq⟩ := List.append_of_mem h
  exact ⟨_, front, back, heq, rfl⟩

theorem Placed.mem (h : Placed c body block k) : block ∈ body.plain.blocks := by
  obtain ⟨front, back, heq, -⟩ := h
  rw [heq]
  exact List.mem_append_right _ List.mem_cons_self

theorem Placed.pos (h : Placed c body block k) : 0 < k := by
  obtain ⟨front, back, -, rfl⟩ := h
  omega

theorem label_inj (h : block ∈ body.plain.blocks) (h' : other ∈ body.plain.blocks)
    (hlabel : block.label = other.label) : block = other :=
  List.inj_on_of_nodup_map body.plain.labels h h' hlabel

/-- Of two blocks in a list, one is the other or stands before it. -/
theorem split_cases {front front' back back' : List BasicBlock}
    (h : front ++ block :: back = front' ++ other :: back') :
    (front = front' ∧ block = other) ∨
      (∃ between, front' = front ++ block :: between) ∨
        ∃ between, front = front' ++ other :: between := by
  rcases List.append_eq_append_iff.mp h with ⟨between, rfl, hrest⟩ | ⟨between, rfl, hrest⟩
  · cases between with
    | nil =>
      obtain ⟨rfl, -⟩ := List.cons.inj hrest
      exact .inl ⟨by simp, rfl⟩
    | cons first between =>
      obtain ⟨rfl, -⟩ := List.cons.inj hrest
      exact .inr (.inl ⟨between, rfl⟩)
  · cases between with
    | nil =>
      obtain ⟨rfl, -⟩ := List.cons.inj hrest
      exact .inl ⟨by simp, rfl⟩
    | cons first between =>
      obtain ⟨rfl, -⟩ := List.cons.inj hrest
      exact .inr (.inr ⟨between, rfl⟩)

theorem width_before (front between : List BasicBlock) :
    width c front + (c.events block).length ≤ width c (front ++ block :: between) := by
  rw [width_append]
  simp [width]

theorem plain_nodup (body : FlowBody) : body.plain.blocks.Nodup := body.plain.labels.of_map _

/-- A block has one place. -/
theorem Placed.eq (h : Placed c body block k) (h' : Placed c body block k') : k = k' := by
  obtain ⟨front, back, heq, rfl⟩ := h
  obtain ⟨front', back', heq', rfl⟩ := h'
  have hnodup := plain_nodup body
  rcases split_cases (heq.symm.trans heq') with ⟨rfl, -⟩ | ⟨between, rfl⟩ | ⟨between, rfl⟩
  · rfl
  · rw [heq'] at hnodup
    exact (List.disjoint_of_nodup_append hnodup (by simp) List.mem_cons_self).elim
  · rw [heq] at hnodup
    exact (List.disjoint_of_nodup_append hnodup (by simp) List.mem_cons_self).elim

/-- Runs of ids of different blocks do not overlap. -/
theorem Placed.unique (h : Placed c body block k) (h' : Placed c body other k') {n : Nat}
    (hn : k ≤ n ∧ n < k + (c.events block).length)
    (hn' : k' ≤ n ∧ n < k' + (c.events other).length) : block = other := by
  obtain ⟨front, back, heq, rfl⟩ := h
  obtain ⟨front', back', heq', rfl⟩ := h'
  rcases split_cases (heq.symm.trans heq') with ⟨-, rfl⟩ | ⟨between, rfl⟩ | ⟨between, rfl⟩
  · rfl
  · have hbefore := @width_before c block front between
    omega
  · have hbefore := @width_before c other front' between
    omega

theorem mem_chains {chain : String × List Nat} : chain ∈ (body.layout c).chains ↔
    ∃ block k, Placed c body block k ∧ c.events block ≠ [] ∧
      chain = (block.label, List.range' k (c.events block).length) := by
  rw [layout_eq, mem_chainsFrom]
  constructor
  · rintro ⟨front, block, back, heq, hevents, rfl⟩
    exact ⟨block, _, ⟨front, back, heq, rfl⟩, hevents, rfl⟩
  · rintro ⟨block, k, ⟨front, back, heq, rfl⟩, hevents, rfl⟩
    exact ⟨front, block, back, heq, hevents, rfl⟩

/-- **The chain of a block is its run of ids.** -/
theorem chainOf_placed (h : Placed c body block k) :
    (body.layout c).chainOf block.label = List.range' k (c.events block).length := by
  unfold Layout.chainOf
  cases hfind : (body.layout c).chains.find? (·.1 = block.label) with
  | none =>
    by_cases hevents : c.events block = []
    · simp [hevents]
    · have hmem := mem_chains.mpr ⟨block, k, h, hevents, rfl⟩
      have hnot := List.find?_eq_none.mp hfind _ hmem
      simp at hnot
  | some chain =>
    obtain ⟨other, k', hplaced, -, rfl⟩ := mem_chains.mp (List.mem_of_find?_eq_some hfind)
    have hlabel := List.find?_some hfind
    obtain rfl := label_inj hplaced.mem h.mem (by simpa using hlabel)
    rw [hplaced.eq h]
    rfl

/-- A label without a chain, or the label of a block that has one. -/
theorem exists_of_chainOf {label : String} (h : (body.layout c).chainOf label ≠ []) :
    ∃ block ∈ body.plain.blocks, block.label = label ∧ c.events block ≠ [] := by
  unfold Layout.chainOf at h
  cases hfind : (body.layout c).chains.find? (·.1 = label) with
  | none => simp [hfind] at h
  | some chain =>
    obtain ⟨block, k, hplaced, hevents, rfl⟩ := mem_chains.mp (List.mem_of_find?_eq_some hfind)
    have hlabel := List.find?_some hfind
    exact ⟨block, hplaced.mem, by simpa using hlabel, hevents⟩

theorem chainOf_eq_nil (h : block ∈ body.plain.blocks) :
    (body.layout c).chainOf block.label = [] ↔ c.events block = [] := by
  obtain ⟨k, hplaced⟩ := exists_placed h
  rw [chainOf_placed hplaced, List.range'_eq_nil_iff, List.length_eq_zero_iff]

/-- The node of an event. -/
theorem layout_node (h : Placed c body block k) (i : Nat) (hi : i < (c.events block).length) :
    (body.layout c).nodes[k + i]? = some ⟨block.label, (c.events block)[i]⟩ := by
  obtain ⟨front, back, heq, rfl⟩ := h
  have hwidth : (front.flatMap fun block =>
      (c.events block).map fun event => (⟨block.label, event⟩ : FlowNode)).length =
        width c front := by
    rw [List.length_flatMap, width]
    simp
  rw [layout_eq, heq]
  simp only [List.flatMap_append, List.flatMap_cons]
  rw [show 1 + width c front + i = (width c front + i) + 1 by omega, List.getElem?_cons_succ,
    List.getElem?_append_right (by omega), hwidth, Nat.add_sub_cancel_left,
    List.getElem?_append_left (by simpa using hi), List.getElem?_map,
    List.getElem?_eq_getElem hi]
  rfl

end Layout

/-! ### The first events -/

section Reach

variable {c : Classifier} {body : FlowBody}

/-- The blocks with events that a label leads to, past blocks without events. -/
inductive FirstFrom (c : Classifier) (body : FlowBody) : String → BasicBlock → Prop
  | here {block : BasicBlock} (plain : block ∈ body.plain.blocks) (loud : c.events block ≠ []) :
      FirstFrom c body block.label block
  | step {silent block : BasicBlock} {label : String} (plain : silent ∈ body.plain.blocks)
      (quiet : c.events silent = []) (edge : label ∈ silent.terminator.successors)
      (rest : FirstFrom c body label block) : FirstFrom c body silent.label block

theorem FirstFrom.plain_loud {start : String} {block : BasicBlock}
    (h : FirstFrom c body start block) : block ∈ body.plain.blocks ∧ c.events block ≠ [] := by
  induction h with
  | here plain loud => exact ⟨plain, loud⟩
  | step _ _ _ _ ih => exact ih

theorem mem_plain {block : BasicBlock} :
    block ∈ body.plain.blocks ↔ block ∈ body.blocks ∧ block.cleanup = false := by
  rw [Body.plain, List.mem_filter, Bool.not_eq_true']

theorem find_label {block : BasicBlock} (h : block ∈ body.blocks) :
    body.blocks.find? (·.label = block.label) = some block := by
  cases hfind : body.blocks.find? (·.label = block.label) with
  | none =>
    have hnot := List.find?_eq_none.mp hfind block h
    simp at hnot
  | some other =>
    have hlabel := List.find?_some hfind
    rw [List.inj_on_of_nodup_map body.labels (List.mem_of_find?_eq_some hfind) h
      (by simpa using hlabel)]

theorem mem_silentNext {label next : String} : next ∈ body.silentNext c label ↔
    ∃ silent ∈ body.plain.blocks, silent.label = label ∧ c.events silent = [] ∧
      next ∈ silent.terminator.successors := by
  constructor
  · intro h
    unfold FlowBody.silentNext at h
    split at h
    case isFalse => cases h
    case isTrue hempty =>
      cases hfind : body.blocks.find? (·.label = label) with
      | none => simp [hfind] at h
      | some silent =>
        rw [hfind, Option.elim_some] at h
        split at h
        case isTrue => cases h
        case isFalse hcleanup =>
          have hplain := mem_plain.mpr ⟨List.mem_of_find?_eq_some hfind,
            Bool.eq_false_iff.mpr hcleanup⟩
          have hlabel : silent.label = label := by simpa using List.find?_some hfind
          refine ⟨silent, hplain, hlabel, (chainOf_eq_nil hplain).mp ?_, h⟩
          rw [hlabel]
          exact List.isEmpty_iff.mp hempty
  · rintro ⟨silent, hplain, rfl, hquiet, hedge⟩
    obtain ⟨hmem, hcleanup⟩ := mem_plain.mp hplain
    rw [FlowBody.silentNext, (chainOf_eq_nil hplain).mpr hquiet, if_pos List.isEmpty_nil,
      find_label hmem, Option.elim_some, hcleanup]
    exact hedge

theorem leads_iff_firstFrom {start : String} {n : Nat} :
    (∃ label, Leads (body.silentNext c) start label ∧
      ((body.layout c).chainOf label).head? = some n) ↔
    ∃ block, FirstFrom c body start block ∧
      ((body.layout c).chainOf block.label).head? = some n := by
  constructor
  · rintro ⟨label, hleads, hhead⟩
    induction hleads using Relation.ReflTransGen.head_induction_on with
    | refl =>
      have hchain : (body.layout c).chainOf label ≠ [] := by
        intro hnil
        rw [hnil] at hhead
        cases hhead
      obtain ⟨block, hplain, rfl, hloud⟩ := exists_of_chainOf hchain
      exact ⟨block, .here hplain hloud, hhead⟩
    | head hedge _ ih =>
      obtain ⟨silent, hplain, rfl, hquiet, hsuccessor⟩ := mem_silentNext.mp hedge
      obtain ⟨block, hfirst, hblock⟩ := ih
      exact ⟨block, .step hplain hquiet hsuccessor hfirst, hblock⟩
  · rintro ⟨block, hfirst, hhead⟩
    refine ⟨block.label, ?_, hhead⟩
    clear hhead
    induction hfirst with
    | here => exact .refl
    | step hplain hquiet hedge _ ih =>
      exact .head (mem_silentNext.mpr ⟨_, hplain, rfl, hquiet, hedge⟩) ih

/-! #### The queue runs empty -/

/-- Blocks that are looked up by label have at most the edges of all blocks. -/
theorem sum_find_le (labels : Finset String) (blocks : List BasicBlock) :
    ∑ label ∈ labels, (blocks.find? (·.label = label)).elim 0
      (fun block => block.terminator.successors.length) ≤
        (blocks.map fun block => block.terminator.successors.length).sum := by
  induction blocks with
  | nil => simp
  | cons block blocks ih =>
    have hsplit : ∀ label, ((block :: blocks).find? (·.label = label)).elim 0
        (fun block => block.terminator.successors.length) ≤
          (if block.label = label then block.terminator.successors.length else 0) +
            (blocks.find? (·.label = label)).elim 0
              (fun block => block.terminator.successors.length) := by
      intro label
      by_cases heq : block.label = label
      · simp [heq]
      · simp [heq]
    refine (Finset.sum_le_sum fun label _ => hsplit label).trans ?_
    rw [Finset.sum_add_distrib, Finset.sum_ite_eq, List.map_cons, List.sum_cons]
    split_ifs <;> omega

theorem length_silentNext_le (label : String) : (body.silentNext c label).length ≤
    (body.blocks.find? (·.label = label)).elim 0
      (fun block => block.terminator.successors.length) := by
  unfold FlowBody.silentNext
  split
  · cases body.blocks.find? (·.label = label) with
    | none => exact Nat.le_refl _
    | some block =>
      dsimp only [Option.elim_some]
      split
      · exact Nat.zero_le _
      · exact Nat.le_refl _
  · exact Nat.zero_le _

/-- **`reach_nodes` finds the first nodes of the first events, and nothing else.** -/
theorem mem_reachNodes {start : String} {n : Nat} : n ∈ body.reachNodes c start ↔
    ∃ block, FirstFrom c body start block ∧
      ((body.layout c).chainOf block.label).head? = some n := by
  let field : Finset String := insert start
    (body.blocks.flatMap fun block => block.terminator.successors).toFinset
  have hclosed : ∀ label ∈ field, ∀ next ∈ body.silentNext c label, next ∈ field := by
    intro label _ next hnext
    obtain ⟨silent, hplain, -, -, hedge⟩ := mem_silentNext.mp hnext
    exact Finset.mem_insert_of_mem (List.mem_toFinset.mpr
      (List.mem_flatMap.mpr ⟨silent, (mem_plain.mp hplain).1, hedge⟩))
  have hstart : ∀ label ∈ [start], label ∈ field := fun label hlabel => by
    rw [List.mem_singleton.mp hlabel]
    exact Finset.mem_insert_self _ _
  have hfuel : [start].length + ∑ label ∈ field, (body.silentNext c label).length ≤
      1 + (body.blocks.map fun block => block.terminator.successors.length).sum :=
    Nat.add_le_add_left ((Finset.sum_le_sum fun label _ => length_silentNext_le label).trans
      (sum_find_le field body.blocks)) 1
  rw [← leads_iff_firstFrom, FlowBody.reachNodes, Finset.mem_biUnion]
  refine exists_congr fun label => ?_
  rw [mem_search hclosed hstart hfuel]
  refine and_congr (by simp) ?_
  cases ((body.layout c).chainOf label).head? with
  | none => simp
  | some first => simp [eq_comm]

end Reach

/-! ### The events of a block -/

section Events

variable {c : Classifier} {block : BasicBlock}

theorem track_inner {event : FlowEvent} (hevent : event.isExit = false) :
    ∀ e ∈ (c.track block event).1, e.isExit = false := by
  intro e he
  cases event with
  | sagaStep forward compensate tracked =>
    rw [List.mem_singleton.mp he]
    rfl
  | sagaCompensate tracked =>
    rcases List.mem_append.mp he with he | he
    · split at he
      · cases he
      · obtain ⟨to_, -, rfl⟩ := List.mem_map.mp he
        rfl
    · rw [List.mem_singleton.mp he]
      rfl
  | _ =>
    rw [List.mem_singleton.mp he]
    exact hevent

/-- Without an exit outcome no event of the block is an exit. -/
theorem events_inner (h : c.isExit block = false) : ∀ e ∈ c.events block, e.isExit = false := by
  have hnone : c.exitOutcome block.label = none := by
    simpa [Classifier.isExit] using h
  intro e he
  rcases List.mem_append.mp he with he | he
  · obtain ⟨to_, -, rfl⟩ := List.mem_map.mp he
    rfl
  · rw [Classifier.tail, hnone] at he
    cases hblock : c.blockEvent block with
    | none =>
      rw [hblock] at he
      cases he
    | some event =>
      rw [hblock] at he
      exact track_inner (c.inner block event hblock).2 e he

/-- The events of an exit block: its escapes, and its exit. -/
theorem events_exit (h : c.isExit block = true) :
    ∃ outcome, c.events block = (c.escapes block).map .sagaEscape ++ [.exit outcome] := by
  obtain ⟨outcome, houtcome⟩ := Option.isSome_iff_exists.mp h
  exact ⟨outcome, by rw [Classifier.events, Classifier.tail, houtcome]⟩

/-- **An exit is the last event of its block**, and only an exit block has one. -/
theorem isExit_event {i : Nat} (hi : i < (c.events block).length) :
    (c.events block)[i].isExit = true ↔
      c.isExit block = true ∧ i + 1 = (c.events block).length := by
  cases hexit : c.isExit block with
  | false => simp [events_inner hexit _ (List.getElem_mem hi)]
  | true =>
    obtain ⟨outcome, hevents⟩ := events_exit hexit
    simp only [hevents, List.length_append, List.length_map, List.length_singleton, true_and] at hi ⊢
    by_cases hlast : i < (c.escapes block).length
    · rw [List.getElem_append_left (by simpa using hlast)]
      simp only [List.getElem_map, FlowEvent.isExit, Bool.false_eq_true, false_iff]
      omega
    · rw [List.getElem_append_right (by simpa using hlast)]
      simp only [List.getElem_singleton, FlowEvent.isExit, true_iff]
      omega

theorem loud_of_exit (h : c.isExit block = true) : c.events block ≠ [] := by
  obtain ⟨outcome, hevents⟩ := events_exit h
  simp [hevents]

/-- A block with arms ends with the step they belong to. -/
theorem events_of_arms {pair : String × String} (h : c.arms block = some pair) :
    c.isExit block = false ∧ c.awaitArms block = some pair ∧ ∃ forward compensate,
      c.events block = (c.escapes block).map .sagaEscape ++ [.sagaStep forward compensate true] := by
  unfold Classifier.arms Classifier.tail at h
  unfold Classifier.isExit Classifier.events Classifier.tail
  cases hexit : c.exitOutcome block.label with
  | some outcome =>
    rw [hexit] at h
    cases h
  | none =>
    cases hblock : c.blockEvent block with
    | none =>
      rw [hexit, hblock] at h
      cases h
    | some event =>
      rw [hexit, hblock] at h
      cases event with
      | sagaStep forward compensate tracked =>
        have hpair : c.awaitArms block = some pair := h
        exact ⟨rfl, hpair, forward, compensate, by simp [Classifier.track, hpair]⟩
      | _ => cases h

theorem tracked_track {event e : FlowEvent} (he : e ∈ (c.track block event).1)
    (h : e.isTrackedStep = true) :
    (c.track block event).1.length = 1 ∧ ∃ pair, (c.track block event).2 = some pair := by
  cases event with
  | sagaStep forward compensate tracked =>
    rw [List.mem_singleton.mp he] at h
    exact ⟨rfl, Option.isSome_iff_exists.mp h⟩
  | sagaCompensate tracked =>
    rcases List.mem_append.mp he with he | he
    · split at he
      · cases he
      · obtain ⟨to_, -, rfl⟩ := List.mem_map.mp he
        cases h
    · rw [List.mem_singleton.mp he] at h
      cases h
  | _ =>
    rw [List.mem_singleton.mp he] at h
    cases h

/-- Only a step with arms is tracked, and it is the last event of its block. -/
theorem tracked_event {i : Nat} (hi : i < (c.events block).length)
    (h : (c.events block)[i].isTrackedStep = true) :
    i + 1 = (c.events block).length ∧ ∃ pair, c.arms block = some pair := by
  by_cases hescape : i < ((c.escapes block).map FlowEvent.sagaEscape).length
  · have heq : (c.events block)[i] = ((c.escapes block).map FlowEvent.sagaEscape)[i] :=
      List.getElem_append_left hescape
    rw [heq, List.getElem_map] at h
    cases h
  · have hlength : (c.events block).length =
        ((c.escapes block).map FlowEvent.sagaEscape).length + (c.tail block).1.length :=
      List.length_append
    have hmem : (c.events block)[i] ∈ (c.tail block).1 := by
      have heq : (c.events block)[i] = (c.tail block).1[i -
          ((c.escapes block).map FlowEvent.sagaEscape).length] :=
        List.getElem_append_right (by omega)
      rw [heq]
      exact List.getElem_mem _
    suffices hone : (c.tail block).1.length = 1 ∧ ∃ pair, (c.tail block).2 = some pair from
      ⟨by omega, hone.2⟩
    unfold Classifier.tail at hmem ⊢
    cases hexit : c.exitOutcome block.label with
    | some outcome =>
      rw [hexit] at hmem
      rw [List.mem_singleton.mp hmem] at h
      cases h
    | none =>
      rw [hexit] at hmem
      cases hblock : c.blockEvent block with
      | none =>
        rw [hblock] at hmem
        cases hmem
      | some event =>
        rw [hblock] at hmem
        exact tracked_track hmem h

end Events

/-! ### The nodes of the graph -/

section Nodes

variable {c : Classifier} {body : FlowBody} {block : BasicBlock} {k : Nat}

theorem mem_arms {id : Nat} {pair : String × String} : (id, pair) ∈ (body.layout c).arms ↔
    ∃ block k, Placed c body block k ∧ c.arms block = some pair ∧
      (List.range' k (c.events block).length).getLast? = some id := by
  rw [layout_eq, mem_armsFrom]
  constructor
  · rintro ⟨front, block, back, heq, harms, hid⟩
    exact ⟨block, _, ⟨front, back, heq, rfl⟩, harms, hid⟩
  · rintro ⟨block, k, ⟨front, back, heq, rfl⟩, harms, hid⟩
    exact ⟨front, block, back, heq, harms, hid⟩

theorem getLast?_range' {k n id : Nat} :
    (List.range' k n).getLast? = some id ↔ 0 < n ∧ id = k + n - 1 := by
  rw [List.getLast?_range']
  split_ifs with hn
  · simp [hn]
  · simp only [Option.some.injEq]
    omega

/-- A node has the arms of one step. -/
theorem arms_unique {id : Nat} {pair pair' : String × String}
    (h : (id, pair) ∈ (body.layout c).arms) (h' : (id, pair') ∈ (body.layout c).arms) :
    pair = pair' := by
  obtain ⟨block, k, hplaced, harms, hid⟩ := mem_arms.mp h
  obtain ⟨other, k', hplaced', harms', hid'⟩ := mem_arms.mp h'
  rw [getLast?_range'] at hid hid'
  obtain rfl := hplaced.unique hplaced' (n := id) (by omega) (by omega)
  rw [harms] at harms'
  exact Option.some.inj harms'

/-- The node of an event in the graph: a step may have lost its arms. -/
theorem build_node (h : Placed c body block k) {i : Nat} (hi : i < (c.events block).length) :
    ((build c body).eventAt (k + i) = some (c.events block)[i] ∧
      ∀ pair, (k + i, pair) ∈ (body.layout c).arms → (k + i, pair) ∈ body.tracked c) ∨
    ((build c body).eventAt (k + i) = some (c.events block)[i].untrack ∧
      ∃ pair, (k + i, pair) ∈ (body.layout c).arms ∧ (k + i, pair) ∉ body.tracked c) := by
  have hnode := layout_node h i hi
  simp only [FlowGraph.eventAt, build, FlowBody.nodes, List.getElem?_mapIdx, hnode, Option.map_some]
  split_ifs with hdropped
  · right
    obtain ⟨⟨id, pair⟩, hmem, hid⟩ := List.any_eq_true.mp hdropped
    obtain rfl : id = k + i := by simpa using hid
    obtain ⟨harms, hboth⟩ := List.mem_filter.mp hmem
    refine ⟨rfl, pair, harms, fun htracked => ?_⟩
    have hkept := (List.mem_filter.mp htracked).2
    simp [hkept] at hboth
  · left
    refine ⟨rfl, fun pair harms => ?_⟩
    by_contra hlost
    refine hdropped (List.any_eq_true.mpr ⟨(k + i, pair), List.mem_filter.mpr ⟨harms, ?_⟩, by simp⟩)
    cases hboth : body.bothArms c (k + i, pair) with
    | true => exact absurd (List.mem_filter.mpr ⟨harms, hboth⟩) hlost
    | false => rfl

@[simp] theorem isExit_untrack (event : FlowEvent) : event.untrack.isExit = event.isExit := by
  cases event <;> rfl

@[simp] theorem isTrackedStep_untrack (event : FlowEvent) :
    event.untrack.isTrackedStep = false := by
  cases event <;> rfl

/-- The exit nodes of the graph. -/
theorem exit_node (h : Placed c body block k) {i : Nat} (hi : i < (c.events block).length) :
    ((build c body).eventAt (k + i)).any FlowEvent.isExit = true ↔
      c.isExit block = true ∧ i + 1 = (c.events block).length := by
  rcases build_node h hi with ⟨hevent, -⟩ | ⟨hevent, -⟩
  · rw [hevent, Option.any_some, isExit_event hi]
  · rw [hevent, Option.any_some, isExit_untrack, isExit_event hi]

/-- The step that arms belong to. -/
theorem arms_at (h : Placed c body block k) {i : Nat} {pair : String × String}
    (hi : i < (c.events block).length) (harms : (k + i, pair) ∈ (body.layout c).arms) :
    c.arms block = some pair ∧ i + 1 = (c.events block).length := by
  obtain ⟨other, k', hplaced, hother, hid⟩ := mem_arms.mp harms
  rw [getLast?_range'] at hid
  obtain rfl := h.unique hplaced (n := k + i) (by omega) (by omega)
  have hk := h.eq hplaced
  exact ⟨hother, by omega⟩

/-- **A step is tracked when its arms were kept.** -/
theorem tracked_node (h : Placed c body block k) {i : Nat} (hi : i < (c.events block).length) :
    ((build c body).eventAt (k + i)).any FlowEvent.isTrackedStep = true ↔
      ∃ pair, (k + i, pair) ∈ body.tracked c := by
  constructor
  · intro htracked
    rcases build_node h hi with ⟨hevent, hkept⟩ | ⟨hevent, -⟩
    · rw [hevent, Option.any_some] at htracked
      obtain ⟨hlast, pair, hpair⟩ := tracked_event hi htracked
      exact ⟨pair, hkept pair (mem_arms.mpr ⟨block, k, h, hpair, getLast?_range'.mpr (by omega)⟩)⟩
    · rw [hevent, Option.any_some, isTrackedStep_untrack] at htracked
      cases htracked
  · rintro ⟨pair, hpair⟩
    have harms := (List.mem_filter.mp hpair).1
    obtain ⟨hblock, hlast⟩ := arms_at h hi harms
    obtain ⟨-, -, forward, compensate, hevents⟩ := events_of_arms hblock
    rcases build_node h hi with ⟨hevent, -⟩ | ⟨-, other, hother, hlost⟩
    · rw [hevent, Option.any_some]
      have hend : (c.events block)[i] = .sagaStep forward compensate true := by
        simp only [hevents] at hlast ⊢
        rw [List.getElem_append_right (by simp at hlast ⊢; omega)]
        simp
      rw [hend]
      rfl
    · rw [arms_unique hother harms] at hlost
      exact absurd hpair hlost

theorem exists_of_lt_width {blocks : List BasicBlock} :
    ∀ {n : Nat}, n < width c blocks → ∃ front block back i, blocks = front ++ block :: back ∧
      i < (c.events block).length ∧ n = width c front + i := by
  induction blocks with
  | nil => exact fun hn => absurd hn (Nat.not_lt_zero _)
  | cons first blocks ih =>
    intro n hn
    by_cases hfirst : n < (c.events first).length
    · exact ⟨[], first, blocks, n, rfl, hfirst, by simp [width]⟩
    · have hrest : n - (c.events first).length < width c blocks := by
        simp only [width, List.map_cons, List.sum_cons] at hn ⊢
        omega
      obtain ⟨front, block, back, i, rfl, hi, heq⟩ := ih hrest
      refine ⟨first :: front, block, back, i, rfl, hi, ?_⟩
      simp only [width, List.map_cons, List.sum_cons] at heq ⊢
      omega

/-- Every node but the entry belongs to a block. -/
theorem exists_block {id : Nat} {event : FlowEvent} (h : (build c body).eventAt id = some event)
    (hpos : 0 < id) :
    ∃ block k i, Placed c body block k ∧ i < (c.events block).length ∧ id = k + i := by
  have hlt : id < 1 + width c body.plain.blocks := by
    obtain ⟨node, hnode, -⟩ := Option.map_eq_some_iff.mp h
    have hlength := (List.getElem?_eq_some_iff.mp hnode).1
    rw [build, FlowBody.nodes, List.length_mapIdx, layout_eq, List.length_cons,
      List.length_flatMap] at hlength
    simp only [List.length_map] at hlength
    rw [width]
    omega
  have hrest : id - 1 < width c body.plain.blocks := by omega
  obtain ⟨front, block, back, i, heq, hi, hid⟩ := exists_of_lt_width hrest
  exact ⟨block, 1 + width c front, i, ⟨front, back, heq, rfl⟩, hi, by omega⟩

end Nodes

/-! ### The edges of the graph -/

section Edges

variable {c : Classifier} {body : FlowBody} {block : BasicBlock} {k : Nat}

theorem mem_build_edges {edge : FlowEdge} : edge ∈ (build c body).edges ↔
    edge ∈ body.entryEdges c ∨ ∃ chain ∈ (body.layout c).chains,
      edge ∈ body.chainEdges c chain.1 chain.2 := by
  rw [build, List.mem_mergeSort, List.mem_dedup, List.mem_append, List.mem_flatMap]

theorem mem_reach {from_ : Nat} {label : Option EdgeLabel} {start : String} {edge : FlowEdge} :
    edge ∈ body.reach c from_ label start ↔
      edge.from_ = from_ ∧ edge.label = label ∧ edge.to_ ∈ body.reachNodes c start := by
  obtain ⟨source, target, tag⟩ := edge
  simp only [FlowBody.reach, List.mem_map, Finset.mem_sort, FlowEdge.mk.injEq]
  constructor
  · rintro ⟨to_, hto, rfl, rfl, rfl⟩
    exact ⟨rfl, rfl, hto⟩
  · rintro ⟨rfl, rfl, hto⟩
    exact ⟨target, hto, rfl, rfl, rfl⟩

theorem from_lastEdges {label : String} {last : Nat} {edge : FlowEdge}
    (h : edge ∈ body.lastEdges c label last) : edge.from_ = last := by
  unfold FlowBody.lastEdges at h
  split at h
  · cases h
  · split at h
    · rcases List.mem_append.mp h with h | h
      · exact (mem_reach.mp h).1
      · exact (mem_reach.mp h).1
    · cases hfind : body.blocks.find? (·.label = label) with
      | none => simp [hfind] at h
      | some found =>
        rw [hfind, Option.elim_some] at h
        obtain ⟨next, -, hnext⟩ := List.mem_flatMap.mp h
        exact (mem_reach.mp hnext).1

/-- Neighbours in a run of ids. -/
theorem mem_windows {n a b : Nat} :
    (a, b) ∈ (List.range' k n).zip (List.range' k n).tail ↔
      ∃ i, i + 1 < n ∧ a = k + i ∧ b = k + i + 1 := by
  rw [List.mem_iff_getElem]
  constructor
  · rintro ⟨i, hi, heq⟩
    simp only [List.length_zip, List.length_range', List.length_tail] at hi
    rw [List.getElem_zip] at heq
    obtain ⟨rfl, rfl⟩ := Prod.mk.inj heq
    refine ⟨i, by omega, by simp, ?_⟩
    rw [List.getElem_tail, List.getElem_range']
    omega
  · rintro ⟨i, hi, rfl, rfl⟩
    refine ⟨i, by simp; omega, ?_⟩
    rw [List.getElem_zip, List.getElem_tail]
    simp [Nat.add_assoc]

/-- The edges of the chain of a block. -/
theorem mem_chainEdges {label : String} {n : Nat} {edge : FlowEdge} (hn : 0 < n) :
    edge ∈ body.chainEdges c label (List.range' k n) ↔
      (∃ i, i + 1 < n ∧ edge = ⟨k + i, k + i + 1, none⟩) ∨
        edge ∈ body.lastEdges c label (k + n - 1) := by
  have hlast : (List.range' k n).getLast? = some (k + n - 1) := getLast?_range'.mpr ⟨hn, rfl⟩
  rw [FlowBody.chainEdges, hlast, Option.elim_some, List.mem_append, List.mem_map]
  refine or_congr ?_ Iff.rfl
  constructor
  · rintro ⟨⟨a, b⟩, hmem, rfl⟩
    obtain ⟨i, hi, rfl, rfl⟩ := mem_windows.mp hmem
    exact ⟨i, hi, rfl⟩
  · rintro ⟨i, hi, rfl⟩
    exact ⟨(k + i, k + i + 1), mem_windows.mpr ⟨i, hi, rfl, rfl⟩, rfl⟩

/-- **The edges out of a node of a block**: to the next event of the block, or out of its last one. -/
theorem edge_from_block (h : Placed c body block k) {i : Nat} (hi : i < (c.events block).length)
    {to_ : Nat} {label : Option EdgeLabel} :
    ⟨k + i, to_, label⟩ ∈ (build c body).edges ↔
      (i + 1 < (c.events block).length ∧ to_ = k + i + 1 ∧ label = none) ∨
      (i + 1 = (c.events block).length ∧
        ⟨k + i, to_, label⟩ ∈ body.lastEdges c block.label (k + i)) := by
  have hloud : c.events block ≠ [] := List.ne_nil_of_length_pos (by omega)
  have hpos := h.pos
  rw [mem_build_edges]
  constructor
  · rintro (hentry | ⟨chain, hchain, hedge⟩)
    · unfold FlowBody.entryEdges at hentry
      cases hstart : body.entryBlock with
      | none =>
        rw [hstart] at hentry
        cases hentry
      | some start =>
        rw [hstart] at hentry
        have hzero : k + i = 0 := (mem_reach.mp hentry).1
        omega
    · obtain ⟨other, k', hplaced, hother, rfl⟩ := mem_chains.mp hchain
      have hlength := List.length_pos_iff.mpr hother
      -- the source of the edge is an id of that block, so the block is this one
      rcases (mem_chainEdges hlength).mp hedge with ⟨j, hj, heq⟩ | hlast
      · obtain ⟨hfrom, hto, hlabel⟩ := FlowEdge.mk.inj heq
        obtain rfl := h.unique hplaced (n := k + i) (by omega) (by omega)
        have hk := h.eq hplaced
        exact .inl ⟨by omega, by omega, hlabel⟩
      · have hfrom : k + i = k' + (c.events other).length - 1 := from_lastEdges hlast
        obtain rfl := h.unique hplaced (n := k + i) (by omega) (by omega)
        have hk := h.eq hplaced
        refine .inr ⟨by omega, ?_⟩
        rw [← hfrom] at hlast
        exact hlast
  · intro hcases
    refine .inr ⟨_, mem_chains.mpr ⟨block, k, h, hloud, rfl⟩, (mem_chainEdges (by omega)).mpr ?_⟩
    rcases hcases with ⟨hinner, rfl, rfl⟩ | ⟨hlast, hedge⟩
    · exact .inl ⟨i, hinner, rfl⟩
    · refine .inr ?_
      rw [show k + (c.events block).length - 1 = k + i by omega]
      exact hedge

/-- The edges out of the entry. -/
theorem edge_from_entry {to_ : Nat} {label : Option EdgeLabel} :
    ⟨0, to_, label⟩ ∈ (build c body).edges ↔ label = none ∧
      ∃ start, body.entryBlock = some start ∧ to_ ∈ body.reachNodes c start := by
  rw [mem_build_edges]
  constructor
  · rintro (hentry | ⟨chain, hchain, hedge⟩)
    · unfold FlowBody.entryEdges at hentry
      cases hstart : body.entryBlock with
      | none =>
        rw [hstart] at hentry
        cases hentry
      | some start =>
        rw [hstart] at hentry
        obtain ⟨-, hlabel, hto⟩ := mem_reach.mp hentry
        exact ⟨hlabel, start, rfl, hto⟩
    · obtain ⟨other, k', hplaced, hother, rfl⟩ := mem_chains.mp hchain
      have hpos := hplaced.pos
      rcases (mem_chainEdges (List.length_pos_iff.mpr hother)).mp hedge with ⟨j, -, heq⟩ | hlast
      · have hfrom : 0 = k' + j := (FlowEdge.mk.inj heq).1
        omega
      · have hfrom : 0 = k' + (c.events other).length - 1 := from_lastEdges hlast
        have hlength := List.length_pos_iff.mpr hother
        omega
  · rintro ⟨rfl, start, hstart, hto⟩
    refine .inl ?_
    rw [FlowBody.entryEdges, hstart]
    exact mem_reach.mpr ⟨rfl, rfl, hto⟩

theorem any_isExit_nodes (id : Nat) : ((body.nodes c)[id]?).any (·.event.isExit) =
    ((build c body).eventAt id).any FlowEvent.isExit := by
  rw [FlowGraph.eventAt, Option.any_map]
  rfl

/-- Nothing follows an exit. -/
theorem not_mem_lastEdges_of_exit (h : Placed c body block k) {i : Nat}
    (hlast : i + 1 = (c.events block).length) (hexit : c.isExit block = true) {edge : FlowEdge} :
    edge ∉ body.lastEdges c block.label (k + i) := by
  unfold FlowBody.lastEdges
  rw [any_isExit_nodes, if_pos ((exit_node h (by omega)).mpr ⟨hexit, hlast⟩)]
  exact List.not_mem_nil

/-- What follows a block that is no exit and has no tracked step. -/
theorem mem_lastEdges_plain (h : Placed c body block k) {i : Nat}
    (hlast : i + 1 = (c.events block).length) (hexit : c.isExit block = false)
    (huntracked : ∀ pair, (k + i, pair) ∉ body.tracked c) {to_ : Nat} {label : Option EdgeLabel} :
    ⟨k + i, to_, label⟩ ∈ body.lastEdges c block.label (k + i) ↔ label = none ∧
      ∃ next ∈ block.terminator.successors, to_ ∈ body.reachNodes c next := by
  have hnot : ¬ ((build c body).eventAt (k + i)).any FlowEvent.isExit = true := by
    rw [exit_node h (by omega), hexit]
    simp
  have hfind : (body.tracked c).find? (·.1 = k + i) = none := by
    rw [List.find?_eq_none]
    rintro ⟨id, pair⟩ hmem heq
    obtain rfl : id = k + i := by simpa using heq
    exact huntracked pair hmem
  unfold FlowBody.lastEdges
  rw [any_isExit_nodes, if_neg hnot, hfind]
  dsimp only
  rw [find_label (mem_plain.mp h.mem).1, Option.elim_some, List.mem_flatMap]
  constructor
  · rintro ⟨next, hnext, hedge⟩
    obtain ⟨-, hlabel, hto⟩ := mem_reach.mp hedge
    exact ⟨hlabel, next, hnext, hto⟩
  · rintro ⟨rfl, next, hnext, hto⟩
    exact ⟨next, hnext, mem_reach.mpr ⟨rfl, rfl, hto⟩⟩

/-- What follows a tracked step. -/
theorem mem_lastEdges_tracked (h : Placed c body block k) {i : Nat} {ok err : String}
    (hlast : i + 1 = (c.events block).length) (htracked : (k + i, ok, err) ∈ body.tracked c)
    {to_ : Nat} {label : Option EdgeLabel} :
    ⟨k + i, to_, label⟩ ∈ body.lastEdges c block.label (k + i) ↔
      (label = some .ok ∧ to_ ∈ body.reachNodes c ok) ∨
        (label = some .err ∧ to_ ∈ body.reachNodes c err) := by
  have harms := (List.mem_filter.mp htracked).1
  obtain ⟨hblock, -⟩ := arms_at h (by omega) harms
  have hnot : ¬ ((build c body).eventAt (k + i)).any FlowEvent.isExit = true := by
    rw [exit_node h (by omega), (events_of_arms hblock).1]
    simp
  have hfind : (body.tracked c).find? (·.1 = k + i) = some (k + i, ok, err) := by
    cases hfound : (body.tracked c).find? (·.1 = k + i) with
    | none =>
      have hmissing := List.find?_eq_none.mp hfound _ htracked
      simp at hmissing
    | some arm =>
      obtain ⟨id, pair⟩ := arm
      obtain rfl : id = k + i := by simpa using List.find?_some hfound
      have hmem := (List.mem_filter.mp (List.mem_of_find?_eq_some hfound)).1
      rw [arms_unique hmem harms]
  unfold FlowBody.lastEdges
  rw [any_isExit_nodes, if_neg hnot, hfind]
  dsimp only
  rw [List.mem_append, mem_reach, mem_reach]
  simp

end Edges

/-! ### Paths and walks -/

section Paths

variable {c : Classifier} {body : FlowBody}

/-- A path of blocks without cleanup that leaves the body at its last block, and only there. -/
inductive Leaves (c : Classifier) (body : FlowBody) : List BasicBlock → Prop
  | exit {block : BasicBlock} (plain : block ∈ body.plain.blocks) (exits : c.isExit block = true) :
      Leaves c body [block]
  | step {block next : BasicBlock} {path : List BasicBlock} (plain : block ∈ body.plain.blocks)
      (stays : c.isExit block = false) (edge : next.label ∈ block.terminator.successors)
      (rest : Leaves c body (next :: path)) : Leaves c body (block :: next :: path)

/-- The path starts where the body does. -/
def StartsAtEntry (body : FlowBody) (path : List BasicBlock) : Prop :=
  ∃ first rest, path = first :: rest ∧ body.entryBlock = some first.label

/-- The nodes of the blocks of a path. -/
def nodesOn (c : Classifier) (body : FlowBody) (path : List BasicBlock) : List Nat :=
  path.flatMap fun block => (body.layout c).chainOf block.label

/-- Two nodes in a row on a walk. -/
def FlowGraph.Joined (graph : FlowGraph) (a b : Nat) : Prop := ∃ label, ⟨a, b, label⟩ ∈ graph.edges

/-- A walk from this node to an exit, as the sequence of its nodes. -/
inductive FlowGraph.ExitWalk (graph : FlowGraph) : List Nat → Prop
  | exit {id : Nat} {outcome : ExitOutcome} (last : graph.eventAt id = some (.exit outcome)) :
      ExitWalk graph [id]
  | step {id next : Nat} {ids : List Nat} (joined : graph.Joined id next)
      (rest : ExitWalk graph (next :: ids)) : ExitWalk graph (id :: next :: ids)

variable {block : BasicBlock} {k : Nat}

/-- From the first node of a block to a later one. -/
theorem walk_chain (h : Placed c body block k) {rest : List Nat} :
    ∀ {n : Nat}, n < (c.events block).length → (build c body).ExitWalk ((k + n) :: rest) →
      (build c body).ExitWalk (List.range' k n ++ (k + n) :: rest) := by
  intro n
  induction n generalizing rest with
  | zero => exact fun _ hwalk => hwalk
  | succ n ih =>
    intro hn hwalk
    have hjoined : (build c body).Joined (k + n) (k + (n + 1)) :=
      ⟨none, (edge_from_block h (by omega)).mpr (.inl ⟨hn, rfl, rfl⟩)⟩
    rw [List.range'_concat, List.append_assoc]
    simpa using ih (by omega) (.step hjoined hwalk)

/-- The whole chain of a block, and then the rest. -/
theorem walk_block (h : Placed c body block k) (hloud : c.events block ≠ []) {rest : List Nat}
    (hwalk : (build c body).ExitWalk ((k + (c.events block).length - 1) :: rest)) :
    (build c body).ExitWalk (List.range' k (c.events block).length ++ rest) := by
  obtain ⟨n, hn⟩ := Nat.exists_eq_succ_of_ne_zero (mt List.length_eq_zero_iff.mp hloud)
  rw [hn] at hwalk ⊢
  rw [Nat.succ_eq_add_one, List.range'_concat, List.append_assoc]
  simpa using walk_chain h (by omega) hwalk

theorem head_mem_reachNodes (h : Placed c body block k) (hloud : c.events block ≠ []) :
    k ∈ body.reachNodes c block.label := by
  refine mem_reachNodes.mpr ⟨block, .here h.mem hloud, ?_⟩
  obtain ⟨n, hn⟩ := Nat.exists_eq_succ_of_ne_zero (mt List.length_eq_zero_iff.mp hloud)
  rw [chainOf_placed h, hn]
  rfl

/-- **A path is a walk.** The induction is on the path; a block without events adds no node. -/
theorem Leaves.walk (huntracked : ∀ id pair, (id, pair) ∉ body.tracked c) {path : List BasicBlock}
    (h : Leaves c body path) : ∃ head ids, nodesOn c body path = head :: ids ∧
      (build c body).ExitWalk (head :: ids) ∧
        ∀ first rest, path = first :: rest → head ∈ body.reachNodes c first.label := by
  induction h with
  | @exit block plain exits =>
    obtain ⟨k, hplaced⟩ := exists_placed plain
    have hloud := loud_of_exit exits
    have hlength := List.length_pos_iff.mpr hloud
    have hexit : ((build c body).eventAt (k + ((c.events block).length - 1))).any
        FlowEvent.isExit = true := (exit_node hplaced (by omega)).mpr ⟨exits, by omega⟩
    obtain ⟨outcome, hlast⟩ : ∃ outcome,
        (build c body).eventAt (k + (c.events block).length - 1) = some (.exit outcome) := by
      rw [Nat.add_sub_assoc hlength]
      cases hevent : (build c body).eventAt (k + ((c.events block).length - 1)) with
      | none => simp [hevent] at hexit
      | some event =>
        rw [hevent] at hexit
        cases event with
        | exit outcome => exact ⟨outcome, rfl⟩
        | _ => cases hexit
    have hwalk := walk_block hplaced hloud (.exit hlast)
    obtain ⟨n, hn⟩ := Nat.exists_eq_succ_of_ne_zero (mt List.length_eq_zero_iff.mp hloud)
    refine ⟨k, List.range' (k + 1) n, ?_, ?_, ?_⟩
    · rw [nodesOn, List.flatMap_singleton, chainOf_placed hplaced, hn]
      rfl
    · rw [hn, List.append_nil] at hwalk
      exact hwalk
    · rintro first rest heq
      obtain ⟨rfl, -⟩ := List.cons.inj heq
      exact head_mem_reachNodes hplaced hloud
  | @step block next path plain stays edge _ ih =>
    obtain ⟨head, ids, hnodes, hwalk, hhead⟩ := ih
    have hreach := hhead next path rfl
    obtain ⟨k, hplaced⟩ := exists_placed plain
    have hsplit : nodesOn c body (block :: next :: path) =
        List.range' k (c.events block).length ++ head :: ids := by
      rw [nodesOn, List.flatMap_cons, chainOf_placed hplaced]
      exact congrArg _ hnodes
    by_cases hquiet : c.events block = []
    · refine ⟨head, ids, by simpa [hquiet] using hsplit, hwalk, ?_⟩
      rintro first rest heq
      obtain ⟨rfl, -⟩ := List.cons.inj heq
      obtain ⟨target, hfirst, htarget⟩ := mem_reachNodes.mp hreach
      exact mem_reachNodes.mpr ⟨target, .step plain hquiet edge hfirst, htarget⟩
    · have hlength := List.length_pos_iff.mpr hquiet
      have hjoined : (build c body).Joined (k + (c.events block).length - 1) head := by
        rw [Nat.add_sub_assoc hlength]
        refine ⟨none, (edge_from_block hplaced (by omega)).mpr (.inr ⟨by omega, ?_⟩)⟩
        exact (mem_lastEdges_plain hplaced (by omega) stays (huntracked _)).mpr
          ⟨rfl, next.label, edge, hreach⟩
      have hwhole := walk_block hplaced hquiet (.step hjoined hwalk)
      obtain ⟨n, hn⟩ := Nat.exists_eq_succ_of_ne_zero (mt List.length_eq_zero_iff.mp hquiet)
      refine ⟨k, List.range' (k + 1) n ++ head :: ids, ?_, ?_, ?_⟩
      · rw [hsplit, hn]
        rfl
      · rw [hn] at hwhole
        exact hwhole
      · rintro first rest heq
        obtain ⟨rfl, -⟩ := List.cons.inj heq
        exact head_mem_reachNodes hplaced hquiet

/-- The blocks without events before a first event. -/
theorem FirstFrom.leaves {start : String} {target : BasicBlock} {path : List BasicBlock}
    (h : FirstFrom c body start target) (hpath : Leaves c body (target :: path)) :
    ∃ first more, Leaves c body (first :: more) ∧ first.label = start ∧
      nodesOn c body (first :: more) = nodesOn c body (target :: path) := by
  induction h with
  | here => exact ⟨_, path, hpath, rfl, rfl⟩
  | @step silent target label plain quiet edge _ ih =>
    obtain ⟨first, more, hleaves, rfl, hnodes⟩ := ih hpath
    have hstays : c.isExit silent = false := by
      cases hexit : c.isExit silent with
      | false => rfl
      | true => exact absurd quiet (loud_of_exit hexit)
    refine ⟨silent, first :: more, .step plain hstays edge hleaves, rfl, ?_⟩
    rw [← hnodes, nodesOn, List.flatMap_cons, (chainOf_eq_nil plain).mpr quiet]
    rfl

/-- A first node is the start of the chain of its block. -/
theorem placed_of_reachNodes {start : String} {id : Nat} (h : id ∈ body.reachNodes c start) :
    ∃ target, FirstFrom c body start target ∧ Placed c body target id ∧
      0 < (c.events target).length := by
  obtain ⟨target, hfirst, hhead⟩ := mem_reachNodes.mp h
  obtain ⟨hplain, hloud⟩ := hfirst.plain_loud
  obtain ⟨k, hplaced⟩ := exists_placed hplain
  obtain ⟨n, hn⟩ := Nat.exists_eq_succ_of_ne_zero (mt List.length_eq_zero_iff.mp hloud)
  rw [chainOf_placed hplaced, hn] at hhead
  obtain rfl : k = id := Option.some.inj hhead
  exact ⟨target, hfirst, hplaced, by omega⟩

/-- **A walk is a path.** The induction is on the walk; its first node is the event at `i` of a block,
and the path goes on from that block. -/
theorem walk_leaves (huntracked : ∀ id pair, (id, pair) ∉ body.tracked c) {ids : List Nat}
    (h : (build c body).ExitWalk ids) : ∀ {block : BasicBlock} {k i : Nat} {rest : List Nat},
      ids = (k + i) :: rest → Placed c body block k → i < (c.events block).length →
      ∃ path, Leaves c body (block :: path) ∧
        ids = List.range' (k + i) ((c.events block).length - i) ++ nodesOn c body path := by
  induction h with
  | @exit id outcome last =>
    intro block k i rest heq hplaced hi
    obtain ⟨rfl, -⟩ := List.cons.inj heq
    have hexit : ((build c body).eventAt (k + i)).any FlowEvent.isExit = true := by
      rw [last]
      rfl
    obtain ⟨hblock, hlast⟩ := (exit_node hplaced hi).mp hexit
    refine ⟨[], .exit hplaced.mem hblock, ?_⟩
    rw [← hlast, Nat.add_sub_cancel_left]
    rfl
  | @step id next ids joined _ ih =>
    intro block k i rest heq hplaced hi
    obtain ⟨rfl, -⟩ := List.cons.inj heq
    obtain ⟨label, hedge⟩ := joined
    rcases (edge_from_block hplaced hi).mp hedge with ⟨hinner, rfl, -⟩ | ⟨hlast, hout⟩
    · obtain ⟨path, hleaves, hids⟩ := ih (k := k) (i := i + 1) rfl hplaced hinner
      refine ⟨path, hleaves, ?_⟩
      rw [hids, show (c.events block).length - i = (c.events block).length - (i + 1) + 1 by omega,
        List.range'_succ, List.cons_append]
      rfl
    · have hstays : c.isExit block = false := by
        cases hexit : c.isExit block with
        | false => rfl
        | true => exact absurd hout (not_mem_lastEdges_of_exit hplaced hlast hexit)
      obtain ⟨-, successor, hsuccessor, hreach⟩ :=
        (mem_lastEdges_plain hplaced hlast hstays (huntracked _)).mp hout
      obtain ⟨target, hfirst, htarget, hpos⟩ := placed_of_reachNodes hreach
      obtain ⟨path, hleaves, hids⟩ := ih (k := next) (i := 0) rfl htarget hpos
      obtain ⟨first, more, hmore, rfl, hnodes⟩ := hfirst.leaves hleaves
      refine ⟨first :: more, .step hplaced.mem hstays hsuccessor hmore, ?_⟩
      have hwhole : nodesOn c body (target :: path) = next :: ids := by
        rw [hids, nodesOn, List.flatMap_cons, chainOf_placed htarget]
        rfl
      rw [hnodes, hwhole, ← hlast, Nat.add_sub_cancel_left]
      rfl

theorem eventAt_zero : (build c body).eventAt 0 = some .entry := by
  simp only [FlowGraph.eventAt, build, FlowBody.nodes, List.getElem?_mapIdx, layout_eq,
    List.getElem?_cons_zero, Option.map_some]
  split <;> rfl

/-- The walks from the entry are the paths from the entry. -/
theorem walk_iff_leaves (huntracked : ∀ id pair, (id, pair) ∉ body.tracked c) {ids : List Nat} :
    (build c body).ExitWalk (0 :: ids) ↔
      ∃ path, Leaves c body path ∧ StartsAtEntry body path ∧ ids = nodesOn c body path := by
  constructor
  · intro h
    cases h with
    | exit last =>
      rw [eventAt_zero] at last
      cases last
    | @step _ next ids joined rest =>
      obtain ⟨label, hedge⟩ := joined
      obtain ⟨-, start, hstart, hreach⟩ := edge_from_entry.mp hedge
      obtain ⟨target, hfirst, htarget, hpos⟩ := placed_of_reachNodes hreach
      obtain ⟨path, hleaves, hids⟩ := walk_leaves huntracked rest (k := next) (i := 0) rfl htarget hpos
      obtain ⟨first, more, hmore, rfl, hnodes⟩ := hfirst.leaves hleaves
      refine ⟨first :: more, hmore, ⟨first, more, rfl, hstart⟩, ?_⟩
      rw [hnodes, hids, nodesOn, nodesOn, List.flatMap_cons, chainOf_placed htarget]
      rfl
  · rintro ⟨path, hleaves, ⟨first, rest, rfl, hstart⟩, rfl⟩
    obtain ⟨head, ids, hnodes, hwalk, hhead⟩ := hleaves.walk huntracked
    rw [hnodes]
    exact .step ⟨none, edge_from_entry.mpr ⟨rfl, first.label, hstart, hhead first rest rfl⟩⟩ hwalk

theorem untrack_of_untracked {event : FlowEvent} (h : event.isTrackedStep = false) :
    event.untrack = event := by
  cases event with
  | sagaStep forward compensate tracked =>
    cases tracked with
    | true => cases h
    | false => rfl
  | _ => rfl

/-- The nodes of a block carry its events. -/
theorem events_of_chain (huntracked : ∀ id pair, (id, pair) ∉ body.tracked c)
    (h : Placed c body block k) :
    (List.range' k (c.events block).length).map (build c body).eventAt =
      (c.events block).map fun event => some event.untrack := by
  refine List.ext_getElem (by simp) fun i h₁ h₂ => ?_
  simp only [List.length_map, List.length_range'] at h₁
  simp only [List.getElem_map, List.getElem_range', Nat.one_mul]
  rcases build_node h h₁ with ⟨hevent, hkept⟩ | ⟨hevent, -⟩
  · rw [hevent]
    have hplain : (c.events block)[i].isTrackedStep = false := by
      by_contra htracked
      obtain ⟨hlast, pair, hpair⟩ := tracked_event h₁ (Bool.not_eq_false _ ▸ htracked)
      exact huntracked _ pair (hkept pair (mem_arms.mpr
        ⟨block, k, h, hpair, getLast?_range'.mpr (by omega)⟩))
    rw [untrack_of_untracked hplain]
  · rw [hevent]

theorem Leaves.plain {path : List BasicBlock} (h : Leaves c body path) :
    ∀ block ∈ path, block ∈ body.plain.blocks := by
  induction h with
  | exit plain =>
    intro block hblock
    rw [List.mem_singleton.mp hblock]
    exact plain
  | step plain _ _ _ ih =>
    intro other hother
    rcases List.mem_cons.mp hother with rfl | hother
    · exact plain
    · exact ih other hother

/-- The nodes of a path carry the events of its blocks. -/
theorem events_of_path (huntracked : ∀ id pair, (id, pair) ∉ body.tracked c) :
    ∀ {path : List BasicBlock}, (∀ block ∈ path, block ∈ body.plain.blocks) →
      (nodesOn c body path).map (build c body).eventAt =
        (path.flatMap c.events).map fun event => some event.untrack := by
  intro path
  induction path with
  | nil => exact fun _ => rfl
  | cons block path ih =>
    intro hplain
    obtain ⟨k, hplaced⟩ := exists_placed (hplain block List.mem_cons_self)
    have hrest := ih fun other hother => hplain other (List.mem_cons_of_mem _ hother)
    rw [nodesOn, List.flatMap_cons, List.flatMap_cons, List.map_append, List.map_append,
      chainOf_placed hplaced, events_of_chain huntracked hplaced]
    exact congrArg _ hrest

/-- The graph has no tracked step. -/
def Untracked (c : Classifier) (body : FlowBody) : Prop :=
  ∀ node ∈ (build c body).nodes, node.event.isTrackedStep = false

theorem Untracked.no_arms (h : Untracked c body) (id : Nat) (pair : String × String) :
    (id, pair) ∉ body.tracked c := by
  intro hmem
  obtain ⟨block, k, hplaced, -, hid⟩ := mem_arms.mp (List.mem_filter.mp hmem).1
  obtain ⟨hpos, rfl⟩ := getLast?_range'.mp hid
  rw [Nat.add_sub_assoc hpos] at hmem
  have htracked := (tracked_node hplaced (by omega)).mpr ⟨pair, hmem⟩
  obtain ⟨event, hevent, hstep⟩ := (Option.any_eq_true _ _).mp htracked
  obtain ⟨node, hnode, rfl⟩ := Option.map_eq_some_iff.mp hevent
  rw [h node (List.mem_of_getElem? hnode)] at hstep
  cases hstep

/-- A node is the first event that a label leads to. -/
def FirstEvent (c : Classifier) (body : FlowBody) (start : String) (id : Nat) : Prop :=
  ∃ target, FirstFrom c body start target ∧
    ((body.layout c).chainOf target.label).head? = some id

/-- **The flow graph keeps the paths of its body.** Without tracked steps, the walks from the entry to an
exit pass the nodes of the paths from the entry block that leave the body at their last block, and
these nodes carry the events of the blocks. The `ok` and `err` edges of a tracked step lead to the
first events behind the arms of its `?`, and it has no other edges. -/
theorem flow_graph_keeps_the_paths (c : Classifier) (body : FlowBody) :
    (Untracked c body →
      (∀ ids, (build c body).ExitWalk (0 :: ids) ↔
        ∃ path, Leaves c body path ∧ StartsAtEntry body path ∧ ids = nodesOn c body path) ∧
      ∀ path, Leaves c body path →
        (0 :: nodesOn c body path).map (build c body).eventAt =
          (.entry :: path.flatMap c.events).map fun event => some event.untrack) ∧
    ∀ id, ((build c body).eventAt id).any FlowEvent.isTrackedStep = true →
      ∃ block ∈ body.plain.blocks, ((body.layout c).chainOf block.label).getLast? = some id ∧
        ∃ ok err, c.awaitArms block = some (ok, err) ∧ ∀ to_ label,
          ⟨id, to_, label⟩ ∈ (build c body).edges ↔
            (label = some .ok ∧ FirstEvent c body ok to_) ∨
              (label = some .err ∧ FirstEvent c body err to_) := by
  refine ⟨fun huntracked => ⟨fun ids => walk_iff_leaves huntracked.no_arms, fun path hpath => ?_⟩,
    fun id htracked => ?_⟩
  · rw [List.map_cons, List.map_cons, eventAt_zero, events_of_path huntracked.no_arms hpath.plain]
    rfl
  · obtain ⟨event, hevent, hstep⟩ := (Option.any_eq_true _ _).mp htracked
    have hpos : 0 < id := by
      rcases Nat.eq_zero_or_pos id with rfl | hpos
      · rw [eventAt_zero] at hevent
        cases hevent
        cases hstep
      · exact hpos
    obtain ⟨block, k, i, hplaced, hi, rfl⟩ := exists_block hevent hpos
    obtain ⟨⟨ok, err⟩, hpair⟩ := (tracked_node hplaced hi).mp htracked
    obtain ⟨harms, hlast⟩ := arms_at hplaced hi (List.mem_filter.mp hpair).1
    refine ⟨block, hplaced.mem, ?_, ok, err, (events_of_arms harms).2.1, fun to_ label => ?_⟩
    · rw [chainOf_placed hplaced, getLast?_range']
      omega
    · rw [edge_from_block hplaced hi, mem_lastEdges_tracked hplaced hlast hpair, mem_reachNodes,
        mem_reachNodes]
      simp [hlast, FirstEvent]

/-- A path from the entry block to an exit block, which may pass another exit block. -/
structure PathToExit (c : Classifier) (body : FlowBody) (path : List BasicBlock) : Prop where
  plain : ∀ block ∈ path, block ∈ body.plain.blocks
  steps : path.IsChain fun block next => next.label ∈ block.terminator.successors
  start : StartsAtEntry body path
  exits : ∃ last, path.getLast? = some last ∧ c.isExit last = true

/-- A write of the returned value. -/
def returns (text : String) : Statement :=
  .assign ⟨0, []⟩
    { text := text, reads := [.const "const 1_u8"], discriminantOf := none, refOf := none,
      staticAlloc := none }

def returnsOk : BasicBlock where
  label := "bb0"
  statements := [returns "Result::<u8, u8>::Ok(const 1_u8)"]
  terminator := .goto "bb1"

/-- The returned value is written twice. -/
def overwriting : FlowBody where
  path := "overwriting"
  params := []
  blocks := [
    returnsOk,
    { label := "bb1", statements := [returns "Result::<u8, u8>::Err(const 1_u8)"],
      terminator := .ret }]
  labels := by decide

def overwritingEvents : Classifier where
  escapes _ := []
  exitOutcome label :=
    if label = "bb0" then some .ok else if label = "bb1" then some .err else none
  blockEvent _ := none
  awaitArms _ := none
  awaited _ := false
  futureEscape _ := none
  inner _ _ h := by cases h

/-- The graph ends at the first exit, so a path that passes one is no walk. -/
theorem passed_exit_ends_the_walk :
    ¬ ∀ (c : Classifier) (body : FlowBody), Untracked c body → ∀ ids,
      ((build c body).ExitWalk (0 :: ids) ↔
        ∃ path, PathToExit c body path ∧ ids = nodesOn c body path) := by
  intro hall
  have huntracked : Untracked overwritingEvents overwriting := by
    unfold Untracked
    decide +kernel
  have hpath : PathToExit overwritingEvents overwriting overwriting.blocks := by
    refine ⟨fun block hblock => hblock, ?_, ⟨_, _, rfl, rfl⟩, _, rfl, by decide⟩
    exact .cons_cons (by decide) (.singleton _)
  have hnodes : nodesOn overwritingEvents overwriting overwriting.blocks = [1, 2] := by
    decide +kernel
  have hwalk := (hall overwritingEvents overwriting huntracked [1, 2]).mpr ⟨_, hpath, hnodes.symm⟩
  cases hwalk with
  | step _ rest =>
    cases rest with
    | step joined _ =>
      obtain ⟨label, hedge⟩ := joined
      have hplaced : Placed overwritingEvents overwriting returnsOk 1 :=
        ⟨[], _, rfl, rfl⟩
      rcases (edge_from_block hplaced (i := 0) (by decide)).mp hedge with ⟨hinner, -⟩ | ⟨_, hout⟩
      · exact absurd hinner (by decide)
      · exact not_mem_lastEdges_of_exit hplaced (by decide) (by decide) hout

/-- A step between two blocks without events. -/
def straight : FlowBody where
  path := "straight"
  params := []
  blocks := [
    { label := "bb0", statements := [], terminator := .goto "bb1" },
    { label := "bb1", statements := [],
      terminator := .call { dest := ⟨1, []⟩, callee := some "execute_activity", args := [] } "bb2" },
    { label := "bb2", statements := [returns "Result::<u8, u8>::Ok(const 1_u8)"],
      terminator := .ret }]
  labels := by decide

def straightEvents : Classifier where
  escapes _ := []
  exitOutcome label := if label = "bb2" then some .ok else none
  blockEvent block := if block.label = "bb1" then some (.step 0) else none
  awaitArms _ := none
  awaited _ := false
  futureEscape _ := none
  inner block event h := by
    split at h
    · cases h
      exact ⟨rfl, rfl⟩
    · cases h

/-- The block without events is skipped. -/
theorem straight_walk : (build straightEvents straight).ExitWalk [0, 1, 2] := by
  have huntracked : Untracked straightEvents straight := by
    unfold Untracked
    decide +kernel
  refine (((flow_graph_keeps_the_paths straightEvents straight).1 huntracked).1 [1, 2]).mpr
    ⟨straight.blocks, ?_, ⟨_, _, rfl, rfl⟩, by decide +kernel⟩
  refine .step (by decide) (by decide) (by decide) ?_
  exact .step (by decide) (by decide) (by decide) (.exit (by decide) (by decide))

end Paths

end Harvest.Verify
