import Mathlib.Data.List.Infix
import Harvest.Mesh.Mandate

/-!
# Delegation trees

A tree of mandates grows from a valid root: a holder delegates inline, sends a
mandate to another process, or a local root narrows itself by what it received.

Proved here:

* `sound_hop`: one step keeps a mandate sound, and narrows it;
* `follow_narrows`: so does every path, which is no longer than the depth bound
  it ends with;
* `authority_only_narrows`: both for every node of every tree.
-/

namespace Harvest.Mesh

open Harvest.Lib

/-- One step of a delegation tree. -/
inductive Hop
  | delegate (peer : Peer) (used : U32)
  | outbound (peer : Peer) (used : U32) (flowLabels : Finset String)
  | accept (root : Mandate)

/-- The mandate that a step makes from the mandate it starts with. -/
def Hop.apply (m : Mandate) : Hop → Except Refusal Mandate
  | .delegate peer used => m.delegate peer used
  | .outbound peer used flowLabels => m.outbound peer used flowLabels
  | .accept root => root.accept m

def Hop.delegates : Hop → Bool
  | .delegate .. | .outbound .. => true
  | .accept _ => false

/-- The mandate at the end of a path of steps. -/
def follow (m : Mandate) : List Hop → Except Refusal Mandate
  | [] => .ok m
  | hop :: hops =>
    match hop.apply m with
    | .error refusal => .error refusal
    | .ok next => follow next hops

/-- A tree of mandates. Each child stands under the step that made it. -/
inductive Tree
  | node (mandate : Mandate) (children : List (Hop × Tree))

def Tree.mandate : Tree → Mandate
  | .node mandate _ => mandate

/-- Every child of the tree was made by its step. -/
inductive Tree.Grown : Tree → Prop
  | node {m : Mandate} {children : List (Hop × Tree)}
      (made : ∀ child ∈ children, child.1.apply m = .ok child.2.mandate)
      (below : ∀ child ∈ children, child.2.Grown) : Grown (.node m children)

/-- `t.Reaches hops m`: the path `hops` leads from the root of `t` to `m`. -/
inductive Tree.Reaches : Tree → List Hop → Mandate → Prop
  | here (m : Mandate) (children : List (Hop × Tree)) : Reaches (.node m children) [] m
  | under {m found : Mandate} {children : List (Hop × Tree)} {child : Hop × Tree}
      {hops : List Hop} (hmem : child ∈ children) (h : child.2.Reaches hops found) :
      Reaches (.node m children) (child.1 :: hops) found

theorem follow_of_reaches {t : Tree} {hops : List Hop} {m : Mandate} (ht : t.Grown)
    (h : t.Reaches hops m) : follow t.mandate hops = .ok m := by
  induction h with
  | here m children => rfl
  | under hmem _ ih =>
    cases ht with
    | node made below =>
      simp only [Tree.mandate, follow, made _ hmem]
      exact ih (below _ hmem)

theorem follow_append {m : Mandate} {before after : List Hop} :
    follow m (before ++ after) =
      match follow m before with
      | .error refusal => .error refusal
      | .ok mid => follow mid after := by
  induction before generalizing m with
  | nil => rfl
  | cons hop before ih =>
    simp only [List.cons_append, follow]
    cases hop.apply m with
    | error refusal => rfl
    | ok next => exact ih

/-! ## Sound mandates -/

/-- What every mandate of a tree keeps. The last field bounds the chain: only an
agent that is still a peer can join it by delegation, and an accept is checked. -/
structure Sound (m : Mandate) : Prop where
  nonempty : m.chain ≠ []
  nodup : m.chain.Nodup
  depth_le : m.depth ≤ m.maxDepth
  room : m.chain.length + (m.peers.filter (· ∉ m.chain)).card ≤ 2 * maxSetLen

theorem Sound.of_valid {m : Mandate} (h : m.Valid) : Sound m where
  nonempty := h.nonempty
  nodup := h.nodup
  depth_le := h.depth_le
  room := by
    have hpeers : (m.peers.filter (· ∉ m.chain)).card ≤ m.peers.card :=
      Finset.card_filter_le _ _
    have := h.chainLen
    have := h.peersLen
    omega

/-- The chain of a sound mandate never reaches the end of 32 bits. -/
theorem Sound.depth_eq {m : Mandate} (h : Sound m) : m.depth.val = m.chain.length - 1 := by
  have hroom := h.room
  simp only [maxSetLen] at hroom
  simp only [Mandate.depth, U32.ofNatSat_val]
  omega

theorem Sound.length_pos {m : Mandate} (h : Sound m) : 0 < m.chain.length :=
  List.length_pos_iff.mpr h.nonempty

/-- A delegation uses up one peer for the agent it adds to the chain. -/
theorem room_of_delegated {m child : Mandate} {peer : Peer} {used : U32}
    (h : Mandate.Delegated m peer used child) :
    child.chain.length + (child.peers.filter (· ∉ child.chain)).card ≤
      m.chain.length + (m.peers.filter (· ∉ m.chain)).card := by
  have hsub : child.peers.filter (· ∉ child.chain) ⊆
      (m.peers.filter (· ∉ m.chain)).erase peer.name := by
    intro name hname
    simp only [Finset.mem_filter, h.chain, h.peers, Finset.mem_inter, List.mem_append,
      List.mem_singleton, not_or, Finset.mem_erase] at hname ⊢
    exact ⟨hname.2.2, hname.1.1, hname.2.1⟩
  have hmem : peer.name ∈ m.peers.filter (· ∉ m.chain) :=
    Finset.mem_filter.mpr ⟨h.permitted, by simpa using h.fresh⟩
  have hcard := Finset.card_le_card hsub
  rw [Finset.card_erase_of_mem hmem] at hcard
  have hpos : 0 < (m.peers.filter (· ∉ m.chain)).card := Finset.card_pos.mpr ⟨_, hmem⟩
  have hlen : child.chain.length = m.chain.length + 1 := by simp [h.chain]
  omega

theorem Sound.delegated {m child : Mandate} {peer : Peer} {used : U32} (hm : Sound m)
    (h : Mandate.Delegated m peer used child) : Sound child where
  nonempty := by simp [h.chain]
  nodup := by
    rw [h.chain, List.nodup_append]
    refine ⟨hm.nodup, List.pairwise_singleton _ _, ?_⟩
    intro name hname other hother heq
    rw [List.mem_singleton.mp hother] at heq
    exact h.fresh (heq ▸ hname)
  depth_le := by
    have hdepth := Fin.le_def.mp h.depth
    have hroom := hm.room
    have hpos := hm.length_pos
    have heq := hm.depth_eq
    simp only [maxSetLen] at hroom
    simp only [U32.satAdd_val, heq] at hdepth
    rw [h.maxDepth, Fin.le_def, Mandate.depth, U32.ofNatSat_val, h.chain, List.length_append,
      List.length_singleton]
    have hone : ((1 : U32).val) = 1 := rfl
    omega
  room := (room_of_delegated h).trans hm.room

/-! ## Paths -/

/-- What a path from `m` to `child` with `hops` guarantees. -/
structure Narrowed (m : Mandate) (hops : List Hop) (child : Mandate) : Prop where
  sound : Sound child
  le : child ≤ m
  accepted : ∀ root, Hop.accept root ∈ hops → child ≤ root
  chain : m.chain <+: child.chain
  delegations : m.chain.length + hops.countP Hop.delegates ≤ child.chain.length

/-- One step narrows, whatever it is. -/
theorem sound_hop {m child : Mandate} {hop : Hop} (hm : Sound m)
    (h : hop.apply m = .ok child) : Narrowed m [hop] child := by
  cases hop with
  | delegate peer used =>
    have hd := Mandate.delegate_ok h
    exact ⟨hm.delegated hd, hd.le, by simp, ⟨[peer.name], hd.chain.symm⟩,
      by simp [List.countP_cons, Hop.delegates, hd.chain]⟩
  | outbound peer used flowLabels =>
    obtain ⟨inline, hd, hchain, -, hle, hvalid⟩ := Mandate.outbound_ok h
    exact ⟨.of_valid hvalid, hle.trans hd.le, by simp,
      ⟨[peer.name], by rw [hchain, hd.chain]⟩, by simp [List.countP_cons, Hop.delegates, hchain, hd.chain]⟩
  | accept root =>
    obtain ⟨hroot, hinbound, hvalid, hchain⟩ := Mandate.accept_ok h
    have hpre : m.chain <+: child.chain := by
      rcases hchain with hchain | hchain
      · exact hchain ▸ List.prefix_rfl
      · exact ⟨[root.holder], hchain.symm⟩
    refine ⟨.of_valid hvalid, hinbound, ?_, hpre, ?_⟩
    · intro other hother
      cases List.mem_singleton.mp hother
      exact hroot
    · simpa [List.countP_cons, Hop.delegates] using hpre.length_le

theorem Narrowed.trans {m mid child : Mandate} {hop : Hop} {hops : List Hop}
    (h : Narrowed m [hop] mid) (k : Narrowed mid hops child) : Narrowed m (hop :: hops) child where
  sound := k.sound
  le := k.le.trans h.le
  accepted := by
    intro root hroot
    rcases List.mem_cons.mp hroot with heq | hrest
    · exact k.le.trans (h.accepted root (heq ▸ List.mem_cons_self))
    · exact k.accepted root hrest
  chain := h.chain.trans k.chain
  delegations := by
    have hfirst := h.delegations
    have hrest := k.delegations
    rw [List.countP_cons] at hfirst ⊢
    rw [List.countP_nil] at hfirst
    omega

/-- **Paths narrow.** By induction on the path. -/
theorem follow_narrows {m child : Mandate} {hops : List Hop} (hm : Sound m)
    (h : follow m hops = .ok child) : Narrowed m hops child := by
  induction hops generalizing m with
  | nil =>
    cases h
    exact ⟨hm, le_rfl, by simp, List.prefix_rfl, by simp⟩
  | cons hop hops ih =>
    simp only [follow] at h
    cases hnext : hop.apply m with
    | error refusal =>
      rw [hnext] at h
      cases h
    | ok next =>
      rw [hnext] at h
      have hstep := sound_hop hm hnext
      exact hstep.trans (ih hstep.sound h)

/-- A path is no longer than the depth bound of the mandate it ends with. -/
theorem Narrowed.delegations_le {m child : Mandate} {hops : List Hop} (hm : Sound m)
    (h : Narrowed m hops child) : hops.countP Hop.delegates ≤ child.maxDepth.val := by
  have hdepth := Fin.le_def.mp h.sound.depth_le
  rw [h.sound.depth_eq] at hdepth
  have hcount := h.delegations
  have hpos := hm.length_pos
  omega

/-- **Delegated authority only narrows.** In every tree grown from a valid mandate,
a node `m` below a node `ancestor` has at most the authority of the ancestor and of
every root that accepted on the way, its chain extends the chain of the ancestor and
names no agent twice, its depth is within its bound, and the delegations on its path
are no more than any depth bound on it. -/
theorem authority_only_narrows {t : Tree} (ht : t.Grown) (hroot : t.mandate.validate = .ok ())
    {before after : List Hop} {ancestor m : Mandate} (hancestor : t.Reaches before ancestor)
    (hm : t.Reaches (before ++ after) m) :
    m ≤ ancestor ∧
    (∀ root, Hop.accept root ∈ before ++ after → m ≤ root) ∧
    ancestor.chain <+: m.chain ∧ m.chain.Nodup ∧ m.depth ≤ m.maxDepth ∧
    (before ++ after).countP Hop.delegates ≤ m.maxDepth.val ∧
    m.maxDepth ≤ ancestor.maxDepth := by
  have hsound := Sound.of_valid (Mandate.valid_of_validate hroot)
  have hbefore := follow_of_reaches ht hancestor
  have hall := follow_of_reaches ht hm
  have hwhole := follow_narrows hsound hall
  have hupper := follow_narrows hsound hbefore
  rw [follow_append, hbefore] at hall
  have hlower := follow_narrows hupper.sound hall
  exact ⟨hlower.le, hwhole.accepted, hlower.chain, hwhole.sound.nodup, hwhole.sound.depth_le,
    hwhole.delegations_le hsound, hlower.le.maxDepth⟩

/-- A planner that may ask a reviewer, and the reviewer it asks. -/
def plannerMandate : Mandate where
  chain := ["planner"]
  maxDepth := 1
  peers := {"reviewer"}
  tools := none
  maxDelegations := 2
  readOnly := false
  flowLabels := ∅
  models := none

def reviewerPeer : Peer where
  name := "reviewer"
  tools := some {"read"}
  peers := ∅
  maxTotalTokens := none
  readOnly := true
  agent := none
  model := none

def reviewerMandate : Mandate where
  chain := ["planner", "reviewer"]
  maxDepth := 1
  peers := ∅
  tools := some {"read"}
  maxDelegations := 2
  readOnly := true
  flowLabels := ∅
  models := none

/-- The reviewer of the planner has no more authority than the planner. -/
theorem authority_only_narrows_reviewer :
    plannerMandate.validate = .ok () ∧
    plannerMandate.delegate reviewerPeer 0 = .ok reviewerMandate ∧
    reviewerMandate ≤ plannerMandate := by
  have hvalid : plannerMandate.validate = .ok () := by decide +kernel
  have hmade : plannerMandate.delegate reviewerPeer 0 = .ok reviewerMandate := by rfl
  let leaf : Tree := .node reviewerMandate []
  let t : Tree := .node plannerMandate [(.delegate reviewerPeer 0, leaf)]
  have hgrown : t.Grown := by
    refine .node ?_ ?_
    · intro child hchild
      rw [List.mem_singleton.mp hchild]
      exact hmade
    · intro child hchild
      rw [List.mem_singleton.mp hchild]
      exact .node (by simp) (by simp)
  have hreach : t.Reaches ([] ++ [.delegate reviewerPeer 0]) reviewerMandate :=
    .under List.mem_cons_self (.here reviewerMandate [])
  exact ⟨hvalid, hmade, (authority_only_narrows hgrown hvalid (.here _ _) hreach).1⟩

end Harvest.Mesh
