import Harvest.Lib.Dominance

/-!
# MIR bodies and their control graph

The part of MIR that the taint analysis reads, and the control graph of a body: successors
without unwind edges and cleanup blocks, liveness, dominance and post-dominance.

Proved here:
* `strictly_dominated_visited`: a block that strictly dominates the last block of a path from
  the entry was visited before it.
-/

namespace Harvest.Verify

open Harvest.Lib

/-- `Projection` -/
inductive Projection where
  | deref
  | field (index : Nat)
  | downcast (variant : String)
  | index
  | other (text : String)
  deriving DecidableEq

/-- `Place`: a root local and its projections. -/
structure Place where
  root : Nat
  projections : List Projection
  deriving DecidableEq

/-- `Operand` -/
inductive Operand where
  | copy (place : Place)
  | move (place : Place)
  | const (text : String)
  deriving DecidableEq

/-- `operand_place` -/
def Operand.place : Operand → Option Place
  | .copy place => some place
  | .move place => some place
  | .const _ => none

/-- `operand_text` -/
def Operand.text : Operand → String
  | .copy place => s!"copy _{place.root}"
  | .move place => s!"move _{place.root}"
  | .const text => text

/-- `Rvalue` -/
structure Rvalue where
  text : String
  reads : List Operand
  discriminantOf : Option Place
  refOf : Option Place
  staticAlloc : Option String
  deriving DecidableEq

/-- `Statement` -/
inductive Statement where
  | assign (dest : Place) (rvalue : Rvalue)
  | other (text : String)
  deriving DecidableEq

/-- The parts of a `Call` terminator that the transfer functions read. -/
structure Call where
  dest : Place
  callee : Option String
  args : List Operand
  deriving DecidableEq

/-- `Terminator`, without unwind edges. -/
inductive Terminator where
  | call (call : Call) (target : Option String)
  | switchInt (operand : Operand) (targets : List String)
  | goto (target : String)
  | ret
  | unreachable
  | drop (place : Place) (target : String)
  | assert (operand : Operand) (target : String)
  | inlineAsm (targets : List String)
  | other (text : String) (targets : List String)
  deriving DecidableEq

/-- `successors` -/
def Terminator.successors : Terminator → List String
  | .call _ target => target.toList
  | .switchInt _ targets => targets
  | .inlineAsm targets => targets
  | .other _ targets => targets
  | .goto target => [target]
  | .drop _ target => [target]
  | .assert _ target => [target]
  | .ret => []
  | .unreachable => []

/-- `BasicBlock` -/
structure BasicBlock where
  label : String
  cleanup : Bool := false
  statements : List Statement
  terminator : Terminator
  deriving DecidableEq

/-- `Body`. The labels of its blocks are distinct. -/
structure Body where
  path : String
  params : List Nat
  blocks : List BasicBlock
  labels : (blocks.map BasicBlock.label).Nodup

namespace Body

/-- `index_of`: the position of a label. -/
def indexOf (body : Body) (label : String) : Option Nat :=
  body.blocks.findIdx? fun block => block.label = label

def isCleanup (body : Body) (at_ : Nat) : Bool := (body.blocks[at_]?).any BasicBlock.cleanup

/-- `successors` of the control graph: known labels of blocks that are no cleanup, each once.
Their order decides nothing. -/
def next (body : Body) (at_ : Nat) : List Nat :=
  match body.blocks[at_]? with
  | none => []
  | some block =>
    ((block.terminator.successors.filterMap body.indexOf).filter fun b => !body.isCleanup b).dedup

/-- `is_live` -/
def isLive (body : Body) (at_ : Nat) : Bool :=
  decide (at_ ∈ reachable body.next body.blocks.length) && !body.isCleanup at_

/-- `dominates` -/
def dominates (body : Body) (a b : Nat) : Bool :=
  Lib.dominates body.next body.isLive body.blocks.length a b

/-! ### Post-dominance -/

/-- One backward pass of `can_exit`. -/
def exitPass (body : Body) (canExit : List Bool) : List Bool :=
  (List.range body.blocks.length).foldl (fun canExit at_ =>
    if canExit.getD at_ false then canExit
    else if (body.next at_).any fun t => canExit.getD t false then canExit.set at_ true
    else canExit) canExit

def exitLoop (body : Body) : Nat → List Bool → List Bool
  | 0, canExit => canExit
  | rounds + 1, canExit =>
    let canExit' := body.exitPass canExit
    if canExit' = canExit then canExit' else body.exitLoop rounds canExit'

/-- The blocks that reach a block without successors. -/
def canExit (body : Body) : List Bool :=
  body.exitLoop (body.blocks.length + 1)
    ((List.range body.blocks.length).map fun at_ => (body.next at_).isEmpty)

def postStart (body : Body) : List (List Bool) :=
  (List.range body.blocks.length).map fun at_ =>
    if (body.next at_).isEmpty then (List.range body.blocks.length).map (· == at_)
    else List.replicate body.blocks.length true

/-- One round of `post_dominance`: `at_` itself, and what all its successors share. -/
def postRound (body : Body) (pdom : List (List Bool)) : List (List Bool) :=
  (List.range body.blocks.length).foldl (fun pdom at_ =>
    if (body.next at_).isEmpty then pdom
    else pdom.set at_ ((List.range body.blocks.length).map fun slot =>
      slot == at_ || (body.next at_).all fun t => bit pdom t slot)) pdom

def postLoop (body : Body) : Nat → List (List Bool) → List (List Bool)
  | 0, pdom => pdom
  | rounds + 1, pdom =>
    let pdom' := body.postRound pdom
    if pdom' = pdom then pdom' else body.postLoop rounds pdom'

/-- `post_dominates`: a block that never exits post-dominates only itself. -/
def postDominates (body : Body) (a b : Nat) : Bool :=
  bit (body.postLoop (body.blocks.length + 2) body.postStart) b a &&
    (a == b || body.canExit.getD a false) && body.isLive a

/-- `is_control_dependent` -/
def isControlDependent (body : Body) (block branch : Nat) : Bool :=
  if (body.next branch).length < 2 || !body.isLive block || !body.isLive branch then false
  else if body.postDominates block branch then false
  else (body.next branch).any fun target => body.postDominates block target

/-! ### Paths -/

/-- A path through the body from its entry to `b`. The entry is no cleanup block. -/
structure PathTo (body : Body) (path : List Nat) (b : Nat) : Prop where
  steps : IsPath body.next (path ++ [b])
  entry : (path ++ [b]).head? = some 0
  entry_lt : 0 < body.blocks.length
  entry_live : body.isCleanup 0 = false

theorem indexOf_lt {body : Body} {label : String} {b : Nat} (h : body.indexOf label = some b) :
    b < body.blocks.length := (List.findIdx?_eq_some_iff_getElem.mp h).1

theorem mem_next {body : Body} {a b : Nat} (h : b ∈ body.next a) :
    b < body.blocks.length ∧ body.isCleanup b = false := by
  unfold next at h
  split at h
  · exact absurd h List.not_mem_nil
  · rw [List.mem_dedup, List.mem_filter, List.mem_filterMap] at h
    obtain ⟨⟨label, _, hlabel⟩, hcleanup⟩ := h
    exact ⟨indexOf_lt hlabel, by simpa using hcleanup⟩

theorem nodup_next (body : Body) (a : Nat) : (body.next a).Nodup := by
  unfold next
  split
  · exact List.nodup_nil
  · exact List.nodup_dedup _

/-- Every block of a path from the entry is live. -/
theorem PathTo.live {body : Body} {path : List Nat} {b : Nat} (h : body.PathTo path b) :
    ∀ v ∈ path ++ [b], body.isLive v = true ∧ v < body.blocks.length := by
  obtain ⟨rest, hrest⟩ := List.head?_eq_some_iff.mp h.entry
  have hsteps := h.steps
  rw [hrest] at hsteps ⊢
  have hreach := mem_reach (nodup_next body) (fun v w hw => (mem_next hw).1) h.entry_lt hsteps
  have hinner : ∀ {a : Nat} {rest : List Nat}, body.isCleanup a = false → a < body.blocks.length →
      IsPath body.next (a :: rest) →
      ∀ v ∈ a :: rest, body.isCleanup v = false ∧ v < body.blocks.length := by
    intro a rest
    induction rest generalizing a with
    | nil =>
      intro hclean hlt _ v hv
      rw [List.mem_singleton.mp hv]
      exact ⟨hclean, hlt⟩
    | cons c rest ih =>
      intro hclean hlt hpath v hv
      rcases List.mem_cons.mp hv with rfl | hv
      · exact ⟨hclean, hlt⟩
      · obtain ⟨hc, hcclean⟩ := mem_next hpath.1
        exact ih hcclean hc hpath.2 v hv
  intro v hv
  obtain ⟨hclean, hlt⟩ := hinner h.entry_live h.entry_lt hsteps v hv
  exact ⟨by simp [isLive, hreach v hv, hclean], hlt⟩

/-- **A strict dominator was visited before.** -/
theorem strictly_dominated_visited {body : Body} {path : List Nat} {a b : Nat}
    (h : body.PathTo path b) (hdom : body.dominates a b = true) (hne : a ≠ b) : a ∈ path := by
  have hmem := mem_of_dominates hdom h.steps h.entry (fun v hv => (h.live v hv).1)
    (fun v hv => (h.live v hv).2)
  rcases List.mem_append.mp hmem with hmem | hmem
  · exact hmem
  · exact absurd (List.mem_singleton.mp hmem) hne

/-- A prefix of a path is a path. -/
theorem PathTo.left {body : Body} {front rest : List Nat} {v b : Nat}
    (h : body.PathTo (front ++ v :: rest) b) : body.PathTo front v := by
  have hsteps := h.steps
  have hentry := h.entry
  rw [List.append_assoc, List.cons_append, List.append_cons] at hsteps hentry
  refine ⟨hsteps.left, ?_, h.entry_lt, h.entry_live⟩
  cases front with
  | nil => exact hentry
  | cons a front => exact hentry

/-- The position of a block's own label. -/
theorem indexOf_label {body : Body} {b : Nat} {block : BasicBlock}
    (h : body.blocks[b]? = some block) : body.indexOf block.label = some b := by
  obtain ⟨hlt, heq⟩ := List.getElem?_eq_some_iff.mp h
  refine List.findIdx?_eq_some_iff_getElem.mpr ⟨hlt, by simp [heq], fun j hj => ?_⟩
  have hj' : j < body.blocks.length := by omega
  have hdistinct := List.nodup_iff_injective_get.mp body.labels
  simp only [decide_eq_true_eq]
  intro hsame
  have hfin : (⟨j, by simpa using hj'⟩ : Fin (body.blocks.map BasicBlock.label).length) =
      ⟨b, by simpa using hlt⟩ := hdistinct (by simp [hsame, heq])
  have := Fin.mk.inj hfin
  omega

end Body

end Harvest.Verify
