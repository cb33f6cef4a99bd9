import Harvest.Lib.Dominance

/-!
# A property that spreads backwards from the exits

A loop goes over the blocks of a graph in rounds. A block has the property when it is an exit, or
when it may have it and one of its successors has it. Each round carries the property at least one
block further, so a round bound of the number of blocks is enough.

Proved here:
* `Spreads.rounds`: what the rounds find, along every path to an exit.
* `Spreads.iff_exists_path`: after enough rounds a block has the property when a path of allowed
  blocks leads from it to an exit, and only then.
* `eq_iterate_of_stop`: a loop that stops at the first round without a change loses nothing.
-/

namespace Harvest.Lib

/-- A path from a block to an exit. -/
inductive ExitPath (next : Nat → List Nat) : Nat → List Nat → Prop
  | exit {v : Nat} (last : next v = []) : ExitPath next v [v]
  | step {v w : Nat} {path : List Nat} (edge : w ∈ next v) (rest : ExitPath next w path) :
      ExitPath next v (v :: path)

namespace ExitPath

variable {next : Nat → List Nat} {v w count : Nat} {path : List Nat}

theorem mem_self (h : ExitPath next v path) : v ∈ path := by
  cases h with
  | exit => exact List.mem_cons_self
  | step => exact List.mem_cons_self

theorem length_pos (h : ExitPath next v path) : 0 < path.length :=
  List.length_pos_of_mem h.mem_self

/-- The rest of a path, from a block on it. -/
theorem suffix_from (h : ExitPath next v path) (hw : w ∈ path) :
    ∃ rest, ExitPath next w rest ∧ rest <:+ path := by
  induction h with
  | @exit v last =>
    rw [List.mem_singleton.mp hw]
    exact ⟨[v], .exit last, List.suffix_refl _⟩
  | @step v u path edge rest ih =>
    rcases List.mem_cons.mp hw with rfl | hmem
    · exact ⟨w :: path, .step edge rest, List.suffix_refl _⟩
    · obtain ⟨tail, htail, hsuffix⟩ := ih hmem
      exact ⟨tail, htail, hsuffix.trans (List.suffix_cons v path)⟩

/-- A path can be shortened until no block occurs twice on it. -/
theorem exists_nodup (h : ExitPath next v path) :
    ∃ short, ExitPath next v short ∧ short.Nodup ∧ short ⊆ path := by
  induction h with
  | @exit v last => exact ⟨[v], .exit last, List.nodup_singleton v, List.Subset.refl _⟩
  | @step v u path edge rest ih =>
    obtain ⟨short, hshort, hnodup, hsub⟩ := ih
    by_cases hv : v ∈ short
    · obtain ⟨tail, htail, hsuffix⟩ := hshort.suffix_from hv
      exact ⟨tail, htail, hnodup.sublist hsuffix.sublist,
        fun u hu => List.mem_cons_of_mem v (hsub (hsuffix.subset hu))⟩
    · exact ⟨v :: short, .step edge hshort, List.nodup_cons.mpr ⟨hv, hnodup⟩,
        List.cons_subset_cons v hsub⟩

/-- What holds of the first block and every successor inherits holds along the path. -/
theorem forall_mem {Holds : Nat → Prop} (hnext : ∀ v, Holds v → ∀ w ∈ next v, Holds w)
    (h : ExitPath next v path) (hv : Holds v) : ∀ u ∈ path, Holds u := by
  induction h with
  | exit =>
    intro u hu
    rw [List.mem_singleton.mp hu]
    exact hv
  | @step v w path edge rest ih =>
    intro u hu
    rcases List.mem_cons.mp hu with rfl | hu
    · exact hv
    · exact ih (hnext v hv w edge) u hu

/-- **The round bound**: a path to an exit can be had in at most `count` of its blocks. -/
theorem exists_short (hbelow : ∀ v, ∀ w ∈ next v, w < count) (h : ExitPath next v path)
    (hv : v < count) : ∃ short, ExitPath next v short ∧ short ⊆ path ∧ short.length ≤ count := by
  obtain ⟨short, hshort, hnodup, hsub⟩ := h.exists_nodup
  exact ⟨short, hshort, hsub,
    length_le_of_below hnodup (hshort.forall_mem (fun u _ => hbelow u) hv)⟩

end ExitPath

/-- A loop that stops at the first round without a change. -/
theorem eq_iterate_of_stop {State : Type*} [DecidableEq State] {round : State → State}
    {loop : Nat → State → State} (hzero : ∀ state, loop 0 state = state)
    (hsucc : ∀ rounds state, loop (rounds + 1) state =
      if round state = state then round state else loop rounds (round state)) :
    ∀ (rounds : Nat) (state : State), loop rounds state = round^[rounds] state := by
  intro rounds
  induction rounds with
  | zero => exact hzero
  | succ rounds ih =>
    intro state
    rw [hsucc, Function.iterate_succ_apply]
    split
    case isTrue hsame =>
      rw [hsame, Function.iterate_fixed hsame]
    case isFalse => exact ih _

/-- The step at a block decides whether the block has the property, and touches no other block. -/
structure Spreads {State : Type*} (next : Nat → List Nat) (count : Nat)
    (step : State → Nat → State) (Inv : State → Prop) (Allowed : Nat → Prop)
    (Has : State → Nat → Prop) : Prop where
  inv : ∀ state at_, Inv state → Inv (step state at_)
  frame : ∀ state at_ v, v ≠ at_ → (Has (step state at_) v ↔ Has state v)
  exit : ∀ state v, next v = [] → (Has (step state v) v ↔ Has state v)
  edge : ∀ state v w, Inv state → v < count → Allowed v → w ∈ next v → Has state w →
    Has (step state v) v
  back : ∀ state v, Inv state → v < count → Has (step state v) v →
    Has state v ∨ Allowed v ∧ ∃ w ∈ next v, Has state w

namespace Spreads

variable {State : Type*} {next : Nat → List Nat} {count : Nat} {step : State → Nat → State}
  {Inv : State → Prop} {Allowed : Nat → Prop} {Has : State → Nat → Prop}

/-- One round over all blocks. -/
def round (step : State → Nat → State) (count : Nat) (state : State) : State :=
  (List.range count).foldl step state

theorem foldl_inv (hstep : ∀ state at_, Inv state → Inv (step state at_)) (order : List Nat) :
    ∀ {state : State}, Inv state → Inv (order.foldl step state) := by
  induction order with
  | nil => exact fun hinv => hinv
  | cons at_ order ih => exact fun hinv => ih (hstep _ at_ hinv)

theorem iterate_inv (hstep : ∀ state at_, Inv state → Inv (step state at_)) (rounds : Nat) :
    ∀ {state : State}, Inv state → Inv ((round step count)^[rounds] state) := by
  induction rounds with
  | zero => exact fun hinv => hinv
  | succ rounds ih => exact fun hinv => ih (foldl_inv hstep _ hinv)

/-! ### What the rounds find -/

/-- The blocks with an allowed path of at most so many blocks to an exit have the property. -/
def Found (next : Nat → List Nat) (count : Nat) (Allowed : Nat → Prop) (Has : State → Nat → Prop)
    (length : Nat) (state : State) (v : Nat) : Prop :=
  ∀ path, v < count → ExitPath next v path → (∀ u ∈ path, Allowed u) → path.length ≤ length →
    Has state v

/-- The step at a block finds its paths that are one block longer. -/
theorem found_self (h : Spreads next count step Inv Allowed Has)
    (hbelow : ∀ v, ∀ w ∈ next v, w < count) {length : Nat} {state : State} (hinv : Inv state)
    (hfound : ∀ v, Found next count Allowed Has (length + 1) state v) (v : Nat) :
    Found next count Allowed Has (length + 2) (step state v) v := by
  intro path hv hpath hallowed hlength
  cases hpath with
  | exit last =>
    have hhas : Has state v := hfound v [v] hv (.exit last) hallowed (by simp)
    exact (h.exit state v last).mpr hhas
  | @step _ w path edge rest =>
    have hhas : Has state w := hfound w path (hbelow v w edge) rest
      (fun u hu => hallowed u (List.mem_cons_of_mem v hu)) (by
        rw [List.length_cons] at hlength
        omega)
    exact h.edge state v w hinv hv (hallowed v List.mem_cons_self) edge hhas

/-- A step loses nothing that was found. -/
theorem found_step (h : Spreads next count step Inv Allowed Has)
    (hbelow : ∀ v, ∀ w ∈ next v, w < count) {length : Nat} {state : State} (hinv : Inv state)
    (hfound : ∀ v, Found next count Allowed Has (length + 1) state v) (at_ v : Nat) :
    Found next count Allowed Has (length + 1) (step state at_) v := by
  intro path hv hpath hallowed hlength
  by_cases hat : v = at_
  · subst hat
    exact h.found_self hbelow hinv hfound v path hv hpath hallowed (by omega)
  · exact (h.frame state at_ v hat).mpr (hfound v path hv hpath hallowed hlength)

/-- A round goes one block further. The induction is on the blocks that are still to come; those
that were visited keep what their own step found. -/
theorem found_round (h : Spreads next count step Inv Allowed Has)
    (hbelow : ∀ v, ∀ w ∈ next v, w < count) {length : Nat} :
    ∀ (order : List Nat) {state : State}, Inv state → order.Nodup →
      (∀ v, Found next count Allowed Has (length + 1) state v) →
      (∀ v, v < count → v ∉ order → Found next count Allowed Has (length + 2) state v) →
      ∀ v, Found next count Allowed Has (length + 2) (order.foldl step state) v := by
  intro order
  induction order with
  | nil =>
    intro state _ _ _ hdone v path hv
    exact hdone v hv List.not_mem_nil path hv
  | cons at_ order ih =>
    intro state hinv hnodup hfound hdone
    obtain ⟨hout, hnodup'⟩ := List.nodup_cons.mp hnodup
    refine ih (h.inv state at_ hinv) hnodup' (h.found_step hbelow hinv hfound at_) ?_
    intro v hv hnot
    by_cases hat : v = at_
    · subst hat
      exact h.found_self hbelow hinv hfound v
    · intro path _ hpath hallowed hlength
      have hhas : Has state v := hdone v hv (by simp [hat, hnot]) path hv hpath hallowed hlength
      exact (h.frame state at_ v hat).mpr hhas

/-- **What so many rounds find.** -/
theorem rounds (h : Spreads next count step Inv Allowed Has)
    (hbelow : ∀ v, ∀ w ∈ next v, w < count) (rounds : Nat) :
    ∀ {length : Nat} {state : State}, Inv state →
      (∀ v, Found next count Allowed Has (length + 1) state v) →
      ∀ v, Found next count Allowed Has (length + 1 + rounds)
        ((round step count)^[rounds] state) v := by
  induction rounds with
  | zero => exact fun _ hfound => hfound
  | succ rounds ih =>
    intro length state hinv hfound
    have hround := h.found_round hbelow (List.range count) hinv List.nodup_range hfound
      (fun v hv hnot => absurd (List.mem_range.mpr hv) hnot)
    have hrest := ih (foldl_inv h.inv _ hinv) hround
    intro v path hv hpath hallowed hlength
    exact hrest v path hv hpath hallowed (by omega)

/-! ### What has the property has a path -/

def Grounded (next : Nat → List Nat) (count : Nat) (Allowed : Nat → Prop)
    (Has : State → Nat → Prop) (state : State) : Prop :=
  ∀ v, v < count → Has state v → ∃ path, ExitPath next v path ∧ ∀ u ∈ path, Allowed u

theorem grounded_step (h : Spreads next count step Inv Allowed Has)
    (hbelow : ∀ v, ∀ w ∈ next v, w < count) {state : State} (hinv : Inv state)
    (hgrounded : Grounded next count Allowed Has state) (at_ : Nat) :
    Grounded next count Allowed Has (step state at_) := by
  intro v hv hhas
  by_cases hat : v = at_
  · subst hat
    rcases h.back state v hinv hv hhas with hold | ⟨hallowed, w, hedge, hw⟩
    · exact hgrounded v hv hold
    · obtain ⟨path, hpath, hall⟩ := hgrounded w (hbelow v w hedge) hw
      refine ⟨v :: path, .step hedge hpath, fun u hu => ?_⟩
      rcases List.mem_cons.mp hu with rfl | hu
      · exact hallowed
      · exact hall u hu
  · exact hgrounded v hv ((h.frame state at_ v hat).mp hhas)

theorem grounded_iterate (h : Spreads next count step Inv Allowed Has)
    (hbelow : ∀ v, ∀ w ∈ next v, w < count) (rounds : Nat) {state : State} (hinv : Inv state)
    (hgrounded : Grounded next count Allowed Has state) :
    Grounded next count Allowed Has ((round step count)^[rounds] state) := by
  have hfold : ∀ (order : List Nat) {state : State}, Inv state →
      Grounded next count Allowed Has state →
      Grounded next count Allowed Has (order.foldl step state) := by
    intro order
    induction order with
    | nil => exact fun _ hgrounded => hgrounded
    | cons at_ order ih =>
      intro state hinv hgrounded
      exact ih (h.inv state at_ hinv) (h.grounded_step hbelow hinv hgrounded at_)
  induction rounds generalizing state with
  | zero => exact hgrounded
  | succ rounds ih => exact ih (foldl_inv h.inv _ hinv) (hfold _ hinv hgrounded)

/-- **Enough rounds are exact**: a block has the property when a path of allowed blocks leads from it
to an exit, and only then. -/
theorem iff_exists_path (h : Spreads next count step Inv Allowed Has)
    (hbelow : ∀ v, ∀ w ∈ next v, w < count) {start : State} (hinv : Inv start)
    (hstart : ∀ v, v < count → (Has start v ↔ next v = [] ∧ Allowed v)) {rounds : Nat}
    (hrounds : count ≤ rounds) {v : Nat} (hv : v < count) :
    Has ((round step count)^[rounds] start) v ↔
      ∃ path, ExitPath next v path ∧ ∀ u ∈ path, Allowed u := by
  constructor
  · intro hhas
    refine h.grounded_iterate hbelow rounds hinv (fun u hu hhas => ?_) v hv hhas
    obtain ⟨hexit, hallowed⟩ := (hstart u hu).mp hhas
    refine ⟨[u], .exit hexit, fun w hw => ?_⟩
    rw [List.mem_singleton.mp hw]
    exact hallowed
  · rintro ⟨path, hpath, hallowed⟩
    obtain ⟨short, hshort, hsub, hlength⟩ := hpath.exists_short hbelow hv
    have hfound : ∀ u, Found next count Allowed Has (0 + 1) start u := by
      intro u path hu hpath hallowed hlength
      cases hpath with
      | exit last => exact (hstart u hu).mpr ⟨last, hallowed u List.mem_cons_self⟩
      | step _ rest =>
        have := rest.length_pos
        rw [List.length_cons] at hlength
        omega
    exact h.rounds hbelow rounds hinv hfound v short hv hshort
      (fun u hu => hallowed u (hsub hu)) (by omega)

end Spreads

end Harvest.Lib
