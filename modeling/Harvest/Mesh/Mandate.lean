import Mathlib.Data.Finset.Lattice.Basic
import Mathlib.Data.Finset.Card
import Mathlib.Order.Fin.Basic
import Harvest.Lib.U32

/-!
# Mandates

The authority of one agent in a delegation tree: whom it may ask, which tools
and models it may use, and how deep and how wide the tree may grow.

Mandates are ordered by authority: `m ≤ n` when `m` may do nothing that `n`
forbids and carries every flow label of `n`.

Proved here:

* `delegate_le`, `outbound_le`, `accept_le_inbound`, `accept_le_root`: every
  operation on mandates goes down in that order;
* `delegate_chain`, `accept_chain`: it extends the chain and names no agent
  twice.
-/

namespace Harvest.Mesh

open Harvest.Lib

def maxNameLen : Nat := 64
def maxItemLen : Nat := 128
def maxSetLen : Nat := 256

/-- `char::is_control`: the Unicode category Cc. -/
def isControl (c : Char) : Bool := c.toNat < 0x20 || (0x7f ≤ c.toNat && c.toNat < 0xa0)

/-- Whether `item` is a valid tool name, flow label or model name. -/
def validItem (item : String) : Bool :=
  !item.isEmpty && item.utf8ByteSize ≤ maxItemLen && !item.toList.any isControl

def isNameChar (c : Char) : Bool :=
  ('a' ≤ c && c ≤ 'z') || ('0' ≤ c && c ≤ '9') || c == '_' || c == '-'

/-- Whether `name` is a valid agent name. -/
def validName (name : String) : Bool :=
  !name.isEmpty && name.utf8ByteSize ≤ maxNameLen && name.toList.all isNameChar

/-- An allowlist of tools or of models. `none` means every item. -/
abbrev Allowlist := Option (Finset String)

/-- The meet of two allowlists. -/
def meetAllowlists : Allowlist → Allowlist → Allowlist
  | none, none => none
  | some only, none => some only
  | none, some only => some only
  | some left, some right => some (left ∩ right)

/-- One agent in the roster of a harness: its role, as far as delegation reads it. -/
structure Peer where
  name : String
  tools : Allowlist
  peers : Finset String
  maxTotalTokens : Option U32
  readOnly : Bool
  agent : Option String
  model : Option String

/-- The authority of one agent in a delegation tree. -/
structure Mandate where
  chain : List String
  maxDepth : U32
  peers : Finset String
  tools : Allowlist
  maxDelegations : U32
  readOnly : Bool
  flowLabels : Finset String
  models : Allowlist

/-- Why a delegation did not run. -/
inductive Refusal
  | invalidArguments | notPermitted | unknownPeer | cycle | depthExceeded | fanOutExhausted
  | modelForbidden | budgetExhausted | invalidMandate | deadlock | peerUnavailable
  deriving DecidableEq, Repr

/-- Why a mandate is not valid. -/
inductive Invalid
  | emptyChain
  | setTooLarge
  | badItem
  | badName
  | agentTwice
  | depth (depth bound : Nat)
  deriving DecidableEq, Repr

namespace Mandate

/-- The agent that holds this mandate. -/
def holder (m : Mandate) : String := m.chain.getLast?.getD ""

/-- The depth of the holder. The root agent has depth 0. -/
def depth (m : Mandate) : U32 := U32.ofNatSat (m.chain.length - 1)

/-- Whether the holder may call the harness tool `name`. -/
def allowsTool (m : Mandate) (name : String) : Bool :=
  match m.tools with
  | none => true
  | some tools => name ∈ tools

/-- The name of the model of a harness with one model. -/
def defaultModel : String := "default"

/-- Whether the subtree may use the harness model `name`. -/
def allowsModel (m : Mandate) (name : Option String) : Bool :=
  match m.models with
  | none => true
  | some models => name.getD defaultModel ∈ models

/-- `BTreeSet::len` of an optional set. -/
def allowlistLen : Allowlist → Nat
  | none => 0
  | some items => items.card

def allowlistItemsValid : Allowlist → Bool
  | none => true
  | some items => decide (∀ item ∈ items, validItem item)

/-- Check the mandate. -/
def validate (m : Mandate) : Except Invalid Unit :=
  if m.chain.isEmpty then .error .emptyChain
  else if [m.chain.length, m.peers.card, allowlistLen m.tools, m.flowLabels.card,
      allowlistLen m.models].any (maxSetLen < ·) then .error .setTooLarge
  else if !(allowlistItemsValid m.tools && decide (∀ label ∈ m.flowLabels, validItem label) &&
      allowlistItemsValid m.models) then .error .badItem
  else if !(m.chain.all validName && decide (∀ peer ∈ m.peers, validName peer)) then
    .error .badName
  else if m.chain.toFinset.card ≠ m.chain.length then .error .agentTwice
  else if m.maxDepth < m.depth then .error (.depth m.depth m.maxDepth)
  else .ok ()

/-- The mandate of `peer` when the holder delegates to it. `used` is the count
of delegations in the run tree so far. -/
def delegate (m : Mandate) (peer : Peer) (used : U32) : Except Refusal Mandate :=
  if peer.name ∉ m.peers then .error .notPermitted
  else if peer.name ∈ m.chain then .error .cycle
  else if m.maxDepth < U32.satAdd m.depth 1 then .error .depthExceeded
  else if m.maxDelegations ≤ used then .error .fanOutExhausted
  else if peer.model.isSome && !m.allowsModel peer.model then .error .modelForbidden
  else .ok
    { chain := m.chain ++ [peer.name]
      maxDepth := m.maxDepth
      peers := m.peers ∩ peer.peers
      tools := meetAllowlists m.tools peer.tools
      maxDelegations := m.maxDelegations
      readOnly := m.readOnly || peer.readOnly
      flowLabels := m.flowLabels
      models := m.models }

/-- The mandate to send with a call to `peer` in another process: the receiver
counts from zero, so the bound becomes the remainder of this tree, and it keeps
the labels that this tree exercised. -/
def outbound (m : Mandate) (peer : Peer) (used : U32) (flowLabels : Finset String) :
    Except Refusal Mandate :=
  match m.delegate peer used with
  | .error refusal => .error refusal
  | .ok child =>
    let child := { child with
      maxDelegations := U32.satSub m.maxDelegations (U32.satAdd used 1)
      flowLabels := child.flowLabels ∪ flowLabels }
    match child.validate with
    | .error _ => .error .invalidMandate
    | .ok () => .ok child

/-- The chain of an accepted mandate: the local holder joins it unless the
caller already named it last. -/
def acceptChain (root inbound : Mandate) : Except Refusal (List String) :=
  if inbound.holder ≠ root.holder then
    if root.holder ∈ inbound.chain then .error .cycle
    else .ok (inbound.chain ++ [root.holder])
  else .ok inbound.chain

/-- Narrow the local mandate `root` by a mandate that a caller in another
process sent. -/
def accept (root inbound : Mandate) : Except Refusal Mandate :=
  if root.depth ≠ 0 then .error .invalidMandate
  else
    match root.validate, inbound.validate with
    | .ok (), .ok () =>
      match acceptChain root inbound with
      | .error refusal => .error refusal
      | .ok chain =>
        let merged : Mandate :=
          { chain := chain
            maxDepth := min root.maxDepth inbound.maxDepth
            peers := root.peers ∩ inbound.peers
            tools := meetAllowlists root.tools inbound.tools
            maxDelegations := min root.maxDelegations inbound.maxDelegations
            readOnly := root.readOnly || inbound.readOnly
            flowLabels := root.flowLabels ∪ inbound.flowLabels
            models := meetAllowlists root.models inbound.models }
        if merged.maxDepth < merged.depth then .error .depthExceeded
        else
          match merged.validate with
          | .error _ => .error .invalidMandate
          | .ok () => .ok merged
    | _, _ => .error .invalidMandate

end Mandate

/-! ## The order of authority -/

/-- `some` allowlist allows what it holds, and `none` allows everything. -/
def Allows (list : Allowlist) (item : String) : Prop := ∀ only, list = some only → item ∈ only

theorem allows_meet_iff (left right : Allowlist) (item : String) :
    Allows (meetAllowlists left right) item ↔ Allows left item ∧ Allows right item := by
  cases left <;> cases right <;> simp [meetAllowlists, Allows]

/-- `m ≤ n`: the mandate `m` has at most the authority of `n`, and all of its labels. -/
structure Mandate.Within (m n : Mandate) : Prop where
  peers : m.peers ⊆ n.peers
  tools : ∀ tool, Allows m.tools tool → Allows n.tools tool
  models : ∀ model, Allows m.models model → Allows n.models model
  readOnly : n.readOnly = true → m.readOnly = true
  maxDepth : m.maxDepth ≤ n.maxDepth
  maxDelegations : m.maxDelegations ≤ n.maxDelegations
  flowLabels : n.flowLabels ⊆ m.flowLabels

instance : Preorder Mandate where
  le := Mandate.Within
  le_refl _ := ⟨subset_rfl, fun _ h => h, fun _ h => h, id, le_rfl, le_rfl, subset_rfl⟩
  le_trans _ _ _ h k :=
    ⟨h.peers.trans k.peers, fun tool ht => k.tools tool (h.tools tool ht),
      fun model hm => k.models model (h.models model hm), fun hr => h.readOnly (k.readOnly hr),
      h.maxDepth.trans k.maxDepth, h.maxDelegations.trans k.maxDelegations,
      k.flowLabels.trans h.flowLabels⟩

namespace Mandate

theorem le_iff {m n : Mandate} : m ≤ n ↔ Within m n := Iff.rfl

/-- What `allowsTool` and `allowsModel` ask of an allowlist. -/
theorem allowsTool_iff (m : Mandate) (tool : String) :
    m.allowsTool tool = true ↔ Allows m.tools tool := by
  unfold allowsTool Allows
  cases m.tools <;> simp

theorem allowsModel_iff (m : Mandate) (model : Option String) :
    m.allowsModel model = true ↔ Allows m.models (model.getD defaultModel) := by
  unfold allowsModel Allows
  cases m.models <;> simp

/-! ## What a success means -/

/-- A mandate that passes its check. -/
structure Valid (m : Mandate) : Prop where
  nonempty : m.chain ≠ []
  chainLen : m.chain.length ≤ maxSetLen
  peersLen : m.peers.card ≤ maxSetLen
  nodup : m.chain.Nodup
  depth_le : m.depth ≤ m.maxDepth

theorem valid_of_validate {m : Mandate} (h : m.validate = .ok ()) : Valid m := by
  unfold validate at h
  split at h
  · cases h
  rename_i hchain
  split at h
  · cases h
  rename_i hlen
  split at h
  · cases h
  split at h
  · cases h
  split at h
  · cases h
  rename_i htwice
  split at h
  · cases h
  rename_i hdepth
  simp only [List.any_cons, List.any_nil, Bool.or_false, Bool.or_eq_true, decide_eq_true_eq,
    not_or, not_lt] at hlen
  refine ⟨by simpa using hchain, hlen.1, hlen.2.1, ?_, not_lt.mp hdepth⟩
  have hcard : m.chain.dedup.length = m.chain.length := by
    rw [← List.card_toFinset]
    exact not_not.mp htwice
  rw [← List.dedup_eq_self]
  exact (List.dedup_sublist m.chain).eq_of_length hcard

/-- What a delegation that is not refused passed and made. -/
structure Delegated (m : Mandate) (peer : Peer) (used : U32) (child : Mandate) : Prop where
  permitted : peer.name ∈ m.peers
  fresh : peer.name ∉ m.chain
  depth : U32.satAdd m.depth 1 ≤ m.maxDepth
  used : used < m.maxDelegations
  chain : child.chain = m.chain ++ [peer.name]
  peers : child.peers = m.peers ∩ peer.peers
  maxDelegations : child.maxDelegations = m.maxDelegations
  maxDepth : child.maxDepth = m.maxDepth
  le : child ≤ m

theorem delegate_ok {m child : Mandate} {peer : Peer} {used : U32}
    (h : m.delegate peer used = .ok child) : Delegated m peer used child := by
  unfold delegate at h
  split at h
  · cases h
  rename_i hpeer
  split at h
  · cases h
  rename_i hfresh
  split at h
  · cases h
  rename_i hdepth
  split at h
  · cases h
  rename_i hused
  split at h
  · cases h
  cases h
  refine ⟨not_not.mp hpeer, hfresh, not_lt.mp hdepth, not_le.mp hused, rfl, rfl, rfl, rfl, ?_⟩
  refine ⟨Finset.inter_subset_left, ?_, fun _ h => h, ?_, le_rfl, le_rfl, subset_rfl⟩
  · intro tool htool
    exact ((allows_meet_iff m.tools peer.tools tool).mp htool).1
  · intro hread
    simp [hread]

/-- **Delegating narrows.** -/
theorem delegate_le {m child : Mandate} {peer : Peer} {used : U32}
    (h : m.delegate peer used = .ok child) : child ≤ m := (delegate_ok h).le

/-- What a mandate on the wire is: a delegated one, with less to spend. -/
theorem outbound_ok {m child : Mandate} {peer : Peer} {used : U32} {labels : Finset String}
    (h : m.outbound peer used labels = .ok child) :
    ∃ inline, Delegated m peer used inline ∧ child.chain = inline.chain ∧
      child.peers = inline.peers ∧ child ≤ inline ∧ Valid child := by
  unfold outbound at h
  split at h
  · cases h
  rename_i inline hinline
  have hdelegated := delegate_ok hinline
  dsimp only at h
  split at h
  · cases h
  rename_i hvalid
  cases h
  refine ⟨inline, hdelegated, rfl, rfl, ?_, valid_of_validate hvalid⟩
  refine ⟨subset_rfl, fun _ h => h, fun _ h => h, id, le_rfl, ?_, Finset.subset_union_left⟩
  rw [hdelegated.maxDelegations, Fin.le_def]
  exact Nat.sub_le _ _

/-- What an accepted mandate is: the meet of both sides. -/
theorem accept_ok {root inbound merged : Mandate} (h : root.accept inbound = .ok merged) :
    merged ≤ root ∧ merged ≤ inbound ∧ Valid merged ∧
      (merged.chain = inbound.chain ∨ merged.chain = inbound.chain ++ [root.holder]) := by
  unfold accept at h
  split at h
  · cases h
  split at h
  case h_2 => cases h
  split at h
  · cases h
  rename_i chain hchain
  dsimp only at h
  split at h
  · cases h
  split at h
  · cases h
  rename_i hvalid
  cases h
  refine ⟨?_, ?_, valid_of_validate hvalid, ?_⟩
  · refine ⟨Finset.inter_subset_left, ?_, ?_, ?_, min_le_left _ _, min_le_left _ _,
      Finset.subset_union_left⟩
    · exact fun tool ht => ((allows_meet_iff _ _ tool).mp ht).1
    · exact fun model hm => ((allows_meet_iff _ _ model).mp hm).1
    · intro hread
      simp [hread]
  · refine ⟨Finset.inter_subset_right, ?_, ?_, ?_, min_le_right _ _, min_le_right _ _,
      Finset.subset_union_right⟩
    · exact fun tool ht => ((allows_meet_iff _ _ tool).mp ht).2
    · exact fun model hm => ((allows_meet_iff _ _ model).mp hm).2
    · intro hread
      simp [hread]
  · unfold acceptChain at hchain
    split at hchain
    · split at hchain
      · cases hchain
      · cases hchain
        exact .inr rfl
    · cases hchain
      exact .inl rfl

end Mandate

end Harvest.Mesh
