import Harvest.Lib.Components
import Harvest.Verify.Mir

/-!
# Blocks in a cycle

Model of `cyclic_blocks` in `structure.rs`: the labels of the blocks of a body that sit in a cycle of
its control flow. Unwind edges and cleanup blocks do not count. The search itself is
`Lib.cyclicVertices`.

Proved here:
* `reaches_iff`: paths of the numbered graph are paths of blocks.
* `cyclic_blocks_are_the_blocks_on_a_cycle`: the labels returned are those of the blocks on a cycle.
-/

namespace Harvest.Verify

open Harvest.Lib

namespace Body

/-- The blocks that are no cleanup blocks. -/
def plain (body : Body) : Body where
  path := body.path
  params := body.params
  blocks := body.blocks.filter fun block => ! block.cleanup
  labels := body.labels.sublist (List.filter_sublist.map _)

/-- `succ`: the numbers of the known successors. -/
def plainNext (body : Body) (v : Nat) : List Nat :=
  (body.plain.blocks[v]?).elim [] fun block =>
    block.terminator.successors.filterMap body.plain.indexOf

def cyclicBlocks (body : Body) : Finset String :=
  (cyclicVertices body.plainNext body.plain.blocks.length).biUnion fun v =>
    (body.plain.blocks[v]?).elim ∅ fun block => {block.label}

/-- A step between blocks that are no cleanup blocks. -/
structure PlainStep (body : Body) (a b : BasicBlock) : Prop where
  source : a ∈ body.plain.blocks
  target : b ∈ body.plain.blocks
  successor : b.label ∈ a.terminator.successors

variable {body : Body} {a b : BasicBlock} {v w : Nat}

theorem plain_position_unique (hv : body.plain.blocks[v]? = some a)
    (hw : body.plain.blocks[w]? = some a) : v = w :=
  Option.some.inj ((indexOf_label hv).symm.trans (indexOf_label hw))

theorem getElem?_of_indexOf {label : String} (h : body.indexOf label = some v) :
    ∃ block, body.blocks[v]? = some block ∧ block.label = label := by
  obtain ⟨hlt, hlabel, -⟩ := List.findIdx?_eq_some_iff_getElem.mp h
  exact ⟨_, List.getElem?_eq_getElem hlt, of_decide_eq_true hlabel⟩

/-- The numbered edges are the steps. -/
theorem mem_plainNext (hv : body.plain.blocks[v]? = some a) :
    w ∈ body.plainNext v ↔ ∃ b, body.plain.blocks[w]? = some b ∧ body.PlainStep a b := by
  rw [plainNext, hv, Option.elim_some, List.mem_filterMap]
  constructor
  · rintro ⟨label, hlabel, hindex⟩
    obtain ⟨b, hb, rfl⟩ := getElem?_of_indexOf hindex
    exact ⟨b, hb, List.mem_of_getElem? hv, List.mem_of_getElem? hb, hlabel⟩
  · rintro ⟨b, hb, hstep⟩
    exact ⟨b.label, hstep.successor, indexOf_label hb⟩

theorem plainNext_lt (v : Nat) (w : Nat) (h : w ∈ body.plainNext v) :
    w < body.plain.blocks.length := by
  cases hv : body.plain.blocks[v]? with
  | none =>
    rw [plainNext, hv] at h
    cases h
  | some a =>
    obtain ⟨b, hb, -⟩ := (mem_plainNext hv).mp h
    exact (List.getElem?_eq_some_iff.mp hb).1

/-- **Numbered paths are paths of blocks.** -/
theorem reaches_iff (hv : body.plain.blocks[v]? = some a) (hw : body.plain.blocks[w]? = some b) :
    Reaches body.plainNext v w ↔ Relation.ReflTransGen body.PlainStep a b := by
  constructor
  · intro h
    induction h generalizing b with
    | refl =>
      rw [hv] at hw
      rw [Option.some.inj hw]
    | @tail u w _ hedge ih =>
      obtain ⟨c, hc⟩ : ∃ c, body.plain.blocks[u]? = some c := by
        cases hu : body.plain.blocks[u]? with
        | none =>
          rw [plainNext, hu] at hedge
          cases hedge
        | some c => exact ⟨c, rfl⟩
      obtain ⟨b', hb', hstep⟩ := (mem_plainNext hc).mp hedge
      rw [hw] at hb'
      rw [Option.some.inj hb']
      exact (ih hc).tail hstep
  · intro h
    induction h generalizing w with
    | refl =>
      rw [plain_position_unique hw hv]
      exact .refl
    | @tail c b _ hstep ih =>
      obtain ⟨u, hu, hat⟩ := List.mem_iff_getElem.mp hstep.source
      have hc : body.plain.blocks[u]? = some c := by rw [List.getElem?_eq_getElem hu, hat]
      exact (ih hc).tail ((mem_plainNext hc).mpr ⟨b, hw, hstep⟩)

theorem onCycle_iff (hv : body.plain.blocks[v]? = some a) :
    OnCycle body.plainNext v ↔ Relation.TransGen body.PlainStep a a := by
  rw [Relation.TransGen.head'_iff]
  constructor
  · rintro ⟨w, hw, hreach⟩
    obtain ⟨b, hb, hstep⟩ := (mem_plainNext hv).mp hw
    exact ⟨b, hstep, (reaches_iff hb hv).mp hreach⟩
  · rintro ⟨b, hstep, hpath⟩
    obtain ⟨w, hw, hat⟩ := List.mem_iff_getElem.mp hstep.target
    have hb : body.plain.blocks[w]? = some b := by rw [List.getElem?_eq_getElem hw, hat]
    exact ⟨w, (mem_plainNext hv).mpr ⟨b, hb, hstep⟩, (reaches_iff hb hv).mpr hpath⟩

theorem mem_cyclicBlocks {label : String} :
    label ∈ body.cyclicBlocks ↔ ∃ block ∈ body.plain.blocks, block.label = label ∧
      Relation.TransGen body.PlainStep block block := by
  rw [cyclicBlocks, Finset.mem_biUnion]
  constructor
  · rintro ⟨v, hcyclic, hlabel⟩
    cases hv : body.plain.blocks[v]? with
    | none =>
      rw [hv] at hlabel
      exact absurd hlabel (Finset.notMem_empty _)
    | some block =>
      rw [hv] at hlabel
      have hlt := (List.getElem?_eq_some_iff.mp hv).1
      exact ⟨block, List.mem_of_getElem? hv, (Finset.mem_singleton.mp hlabel).symm,
        (onCycle_iff hv).mp ((mem_cyclicVertices plainNext_lt hlt).mp hcyclic)⟩
  · rintro ⟨block, hblock, rfl, hcycle⟩
    obtain ⟨v, hlt, hat⟩ := List.mem_iff_getElem.mp hblock
    have hv : body.plain.blocks[v]? = some block := by rw [List.getElem?_eq_getElem hlt, hat]
    refine ⟨v, (mem_cyclicVertices plainNext_lt hlt).mpr ((onCycle_iff hv).mpr hcycle), ?_⟩
    rw [hv]
    exact Finset.mem_singleton_self _

/-- **`cyclic_blocks` returns exactly the blocks on a cycle**: a block that is no cleanup block is
in the result when a path of such blocks with at least one step leads from it back to itself, and
nothing else is. -/
theorem cyclic_blocks_are_the_blocks_on_a_cycle (body : Body) :
    (∀ block ∈ body.blocks, block.cleanup = false →
      (block.label ∈ body.cyclicBlocks ↔ Relation.TransGen body.PlainStep block block)) ∧
    ∀ label ∈ body.cyclicBlocks, ∃ block ∈ body.blocks, block.cleanup = false ∧
      block.label = label := by
  refine ⟨fun block hblock hcleanup => ?_, fun label hlabel => ?_⟩
  · have hplain : block ∈ body.plain.blocks :=
      List.mem_filter.mpr ⟨hblock, by rw [hcleanup]; rfl⟩
    rw [mem_cyclicBlocks]
    constructor
    · rintro ⟨other, hother, hlabel, hcycle⟩
      rwa [List.inj_on_of_nodup_map body.plain.labels hother hplain hlabel] at hcycle
    · intro hcycle
      exact ⟨block, hplain, rfl, hcycle⟩
  · obtain ⟨block, hblock, rfl, -⟩ := mem_cyclicBlocks.mp hlabel
    obtain ⟨hmem, hcleanup⟩ := List.mem_filter.mp hblock
    exact ⟨block, hmem, by simpa using hcleanup, rfl⟩

/-- A block that jumps to itself. -/
def spin : BasicBlock where
  label := "bb1"
  statements := []
  terminator := .goto "bb1"

def spinning : Body where
  path := "spinning"
  params := []
  blocks := [{ label := "bb0", statements := [], terminator := .goto "bb1" }, spin]
  labels := by decide

theorem a_self_loop_is_cyclic : "bb1" ∈ spinning.cyclicBlocks ∧ "bb0" ∉ spinning.cyclicBlocks := by
  have hspin : spin ∈ spinning.blocks := by decide
  refine ⟨((cyclic_blocks_are_the_blocks_on_a_cycle spinning).1 spin hspin rfl).mpr (.single ?_),
    by decide +kernel⟩
  exact ⟨by decide, by decide, by decide⟩

end Body

end Harvest.Verify
