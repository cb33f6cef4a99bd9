import Mathlib.Data.List.Induction
import Mathlib.Data.List.Nodup
import Mathlib.Data.Finset.Card
import Mathlib.Logic.Function.Iterate

/-!
# Reachability and dominance in a finite graph

The blocks are the numbers below `count`, the entry is `0`, and a block's successors are a
list. Both tables are computed by a bounded loop, and both bounds are large enough.

Proved here:
* `mem_reach`: the search finds every block that a path from the entry ends in.
* `mem_of_dominates`: a block that the table lets dominate another is on every path to it.
* `bit_table_iff`: the table is exact.
* `dominanceRound_table`: a further round would change nothing.
-/

namespace Harvest.Lib

/-- A path: each block is a successor of the one before it. -/
def IsPath (next : Nat → List Nat) : List Nat → Prop
  | [] => True
  | [_] => True
  | a :: b :: rest => b ∈ next a ∧ IsPath next (b :: rest)

section Path

variable {next : Nat → List Nat}

theorem IsPath.of_cons {a : Nat} {path : List Nat} (h : IsPath next (a :: path)) :
    IsPath next path := by
  cases path with
  | nil => trivial
  | cons b path => exact h.2

theorem isPath_concat {path : List Nat} {b c : Nat} (h : IsPath next (path ++ [b]))
    (hc : c ∈ next b) : IsPath next (path ++ [b] ++ [c]) := by
  induction path with
  | nil => exact ⟨hc, trivial⟩
  | cons a path ih =>
    cases path with
    | nil => exact ⟨h.1, hc, trivial⟩
    | cons a' path => exact ⟨h.1, ih h.2⟩

theorem IsPath.left {xs ys : List Nat} (h : IsPath next (xs ++ ys)) : IsPath next xs := by
  induction xs with
  | nil => trivial
  | cons a xs ih =>
    cases xs with
    | nil => trivial
    | cons b xs => exact ⟨h.1, ih h.2⟩

theorem IsPath.edge {xs ys : List Nat} {a b : Nat} (h : IsPath next (xs ++ a :: b :: ys)) :
    b ∈ next a := by
  induction xs with
  | nil => exact h.1
  | cons c xs ih => exact ih h.of_cons

/-- A path can be shortened until no block occurs twice on it. -/
theorem IsPath.exists_nodup {start : Nat} (path : List Nat) :
    ∀ {b : Nat}, IsPath next (path ++ [b]) → (path ++ [b]).head? = some start →
      ∃ short, IsPath next (short ++ [b]) ∧ (short ++ [b]).head? = some start ∧
        (short ++ [b]).Nodup ∧ ∀ v ∈ short ++ [b], v ∈ path ++ [b] := by
  induction path using List.reverseRecOn with
  | nil =>
    intro b _ hstart
    exact ⟨[], trivial, hstart, List.nodup_singleton b, fun v hv => hv⟩
  | append_singleton path a ih =>
    intro b hpath hstart
    have hfront : (path ++ [a]).head? = some start := by
      cases path with
      | nil => exact hstart
      | cons c path => exact hstart
    obtain ⟨short, hshort, hhead, hnodup, hsub⟩ := ih hpath.left hfront
    have hedge : b ∈ next a := by
      rw [List.append_assoc] at hpath
      exact hpath.edge
    by_cases hb : b ∈ short ++ [a]
    · -- `b` was there already: stop at its first visit
      obtain ⟨front, rest, hsplit⟩ := List.append_of_mem hb
      have hsplit' : short ++ [a] = (front ++ [b]) ++ rest := by rw [hsplit]; simp
      refine ⟨front, ?_, ?_, ?_, ?_⟩
      · rw [hsplit'] at hshort
        exact hshort.left
      · rw [hsplit'] at hhead
        cases front with
        | nil => exact hhead
        | cons c front => exact hhead
      · rw [hsplit'] at hnodup
        exact (List.nodup_append.mp hnodup).1
      · intro v hv
        refine List.mem_append_left _ (hsub v ?_)
        rw [hsplit']
        exact List.mem_append_left _ hv
    · refine ⟨short ++ [a], isPath_concat hshort hedge, ?_, ?_, ?_⟩
      · cases short with
        | nil => exact hhead
        | cons c short => exact hhead
      · exact List.nodup_append.mpr ⟨hnodup, List.nodup_singleton b, fun x hx y hy => by
          rw [List.mem_singleton.mp hy]
          exact fun heq => hb (heq ▸ hx)⟩
      · intro v hv
        rcases List.mem_append.mp hv with hv | hv
        · exact List.mem_append_left _ (hsub v hv)
        · exact List.mem_append_right _ hv

end Path

/-- A list without repetitions of numbers below `count` has at most `count` of them. -/
theorem length_le_of_below {count : Nat} {path : List Nat} (hnodup : path.Nodup)
    (hbelow : ∀ v ∈ path, v < count) : path.length ≤ count := by
  have hrange : path.toFinset ⊆ Finset.range count := fun v hv =>
    Finset.mem_range.mpr (hbelow v (List.mem_toFinset.mp hv))
  have hcard := Finset.card_le_card hrange
  rwa [List.toFinset_card_of_nodup hnodup, Finset.card_range] at hcard

/-! ## Reachability -/

section Reach

variable (next : Nat → List Nat)

/-- A depth-first search: pop a block, mark and push those of its successors that are new. -/
def reach : Nat → List Nat → List Nat → List Nat
  | 0, seen, _ => seen
  | _, seen, [] => seen
  | fuel + 1, seen, at_ :: stack =>
    let new := (next at_).filter (· ∉ seen)
    reach fuel (new ++ seen) (new.reverse ++ stack)

/-- The blocks that the search from the entry finds. -/
def reachable (count : Nat) : List Nat := if count = 0 then [] else reach next count [0] [0]

variable {next} {count : Nat}

/-- What the search keeps: only a block on the stack may have a successor that is not marked. -/
structure Searching (next : Nat → List Nat) (count : Nat) (seen stack : List Nat) : Prop where
  nodup : seen.Nodup
  below : ∀ v ∈ seen, v < count
  closed : ∀ v ∈ seen, v ∉ stack → ∀ w ∈ next v, w ∈ seen

theorem Searching.push {seen stack : List Nat} {at_ : Nat}
    (h : Searching next count seen (at_ :: stack)) (hnodup : (next at_).Nodup)
    (hbelow : ∀ w ∈ next at_, w < count) :
    let new := (next at_).filter (· ∉ seen)
    Searching next count (new ++ seen) (new.reverse ++ stack) := by
  intro new
  have hnew : ∀ w ∈ new, w ∈ next at_ ∧ w ∉ seen := fun w hw => by simpa [new] using hw
  refine ⟨?_, ?_, ?_⟩
  · refine List.nodup_append.mpr ⟨hnodup.filter _, h.nodup, fun x hx y hy heq => ?_⟩
    exact (hnew x hx).2 (heq ▸ hy)
  · intro v hv
    rcases List.mem_append.mp hv with hv | hv
    · exact hbelow v (hnew v hv).1
    · exact h.below v hv
  · intro v hv hout w hw
    rw [List.mem_append, List.mem_reverse, not_or] at hout
    rcases List.mem_append.mp hv with hv | hv
    · exact absurd hv hout.1
    · by_cases hat : v = at_
      · subst hat
        by_cases hseen : w ∈ seen
        · exact List.mem_append_right _ hseen
        · exact List.mem_append_left _ (by simp [new, hw, hseen])
      · have hstack : v ∉ at_ :: stack := by simp [hat, hout.2]
        exact List.mem_append_right _ (h.closed v hv hstack w hw)

/-- With enough fuel the marked blocks are closed under successors. -/
theorem reach_closed (hnodup : ∀ v, (next v).Nodup) (hbelow : ∀ v, ∀ w ∈ next v, w < count) :
    ∀ (fuel : Nat) {seen stack : List Nat}, Searching next count seen stack →
      stack.length + (count - seen.length) ≤ fuel →
      (∀ v ∈ seen, v ∈ reach next fuel seen stack) ∧
        ∀ v ∈ reach next fuel seen stack, ∀ w ∈ next v, w ∈ reach next fuel seen stack := by
  intro fuel
  induction fuel with
  | zero =>
    intro seen stack h hfuel
    obtain rfl : stack = [] := List.length_eq_zero_iff.mp (by omega)
    exact ⟨fun v hv => hv, fun v hv w hw => h.closed v hv List.not_mem_nil w hw⟩
  | succ fuel ih =>
    intro seen stack h hfuel
    cases stack with
    | nil => exact ⟨fun v hv => hv, fun v hv w hw => h.closed v hv List.not_mem_nil w hw⟩
    | cons at_ stack =>
      have hpush := h.push (hnodup at_) (hbelow at_)
      have hsize := length_le_of_below hpush.nodup hpush.below
      have hless : (((next at_).filter (· ∉ seen)).reverse ++ stack).length +
          (count - (((next at_).filter (· ∉ seen)) ++ seen).length) ≤ fuel := by
        simp only [List.length_append, List.length_reverse, List.length_cons] at hfuel hsize ⊢
        omega
      obtain ⟨hkeeps, hclosed⟩ := ih hpush hless
      exact ⟨fun v hv => hkeeps v (List.mem_append_right _ hv), hclosed⟩

theorem searching_entry (hcount : 0 < count) : Searching next count [0] [0] := by
  refine ⟨List.nodup_singleton 0, ?_, fun v hv hout => absurd hv hout⟩
  intro v hv
  rw [List.mem_singleton.mp hv]
  exact hcount

/-- A successor of a block that the search found was found too. -/
theorem reachable_next (hnodup : ∀ v, (next v).Nodup) (hbelow : ∀ v, ∀ w ∈ next v, w < count)
    {v w : Nat} (hv : v ∈ reachable next count) (hw : w ∈ next v) : w ∈ reachable next count := by
  unfold reachable at hv ⊢
  split at hv
  case isTrue => cases hv
  case isFalse hcount =>
    rw [if_neg hcount]
    exact (reach_closed hnodup hbelow count (searching_entry (by omega)) (by simp; omega)).2
      v hv w hw

/-- **The search finds every block that a path from the entry ends in.** -/
theorem mem_reach (hnodup : ∀ v, (next v).Nodup) (hbelow : ∀ v, ∀ w ∈ next v, w < count)
    (hcount : 0 < count) {path : List Nat} (hpath : IsPath next (0 :: path)) :
    ∀ v ∈ 0 :: path, v ∈ reachable next count := by
  have hall : ∀ {a : Nat} {path : List Nat}, a ∈ reachable next count →
      IsPath next (a :: path) → ∀ v ∈ a :: path, v ∈ reachable next count := by
    intro a path
    induction path generalizing a with
    | nil =>
      intro ha _ v hv
      rw [List.mem_singleton.mp hv]
      exact ha
    | cons b path ih =>
      intro ha hpath v hv
      rcases List.mem_cons.mp hv with rfl | hv
      · exact ha
      · exact ih (reachable_next hnodup hbelow ha hpath.1) hpath.2 v hv
  have hentry : 0 ∈ reachable next count := by
    rw [reachable, if_neg (by omega)]
    exact (reach_closed hnodup hbelow count (searching_entry hcount) (by simp; omega)).1
      0 List.mem_cons_self
  exact hall hentry hpath

/-- What the entry has and every successor inherits, the blocks found have. -/
theorem reach_induction {Holds : Nat → Prop} (hnext : ∀ v, Holds v → ∀ w ∈ next v, Holds w) :
    ∀ (fuel : Nat) (seen stack : List Nat), (∀ v ∈ seen, Holds v) → (∀ v ∈ stack, Holds v) →
      ∀ v ∈ reach next fuel seen stack, Holds v := by
  intro fuel
  induction fuel with
  | zero => exact fun _ _ hseen _ => hseen
  | succ fuel ih =>
    intro seen stack hseen hstack
    cases stack with
    | nil => exact hseen
    | cons at_ stack =>
      have hnew : ∀ v ∈ (next at_).filter (· ∉ seen), Holds v := fun v hv =>
        hnext at_ (hstack at_ List.mem_cons_self) v (List.mem_of_mem_filter hv)
      refine ih _ _ (fun v hv => ?_) fun v hv => ?_
      · rcases List.mem_append.mp hv with hv | hv
        · exact hnew v hv
        · exact hseen v hv
      · rcases List.mem_append.mp hv with hv | hv
        · exact hnew v (List.mem_reverse.mp hv)
        · exact hstack v (List.mem_cons_of_mem _ hv)

theorem reachable_lt (hbelow : ∀ v, ∀ w ∈ next v, w < count) {v : Nat}
    (h : v ∈ reachable next count) : v < count := by
  unfold reachable at h
  split at h
  case isTrue => cases h
  case isFalse hcount =>
    have hentry : ∀ u ∈ [0], u < count := fun u hu => by
      rw [List.mem_singleton.mp hu]
      omega
    exact reach_induction (fun u _ w hw => hbelow u w hw) count [0] [0] hentry hentry v h

end Reach

/-! ## Dominance -/

/-- A bit of a table of rows. -/
def bit (table : List (List Bool)) (row column : Nat) : Bool :=
  ((table[row]?).bind (·[column]?)).getD false

section Dominance

variable (next : Nat → List Nat) (live : Nat → Bool) (count : Nat)

/-- The live predecessors of a block. -/
def livePreds (b : Nat) : List Nat :=
  (List.range count).filter fun p => decide (b ∈ next p) && live p

/-- The blocks that dominate `b`: `b` itself, and what dominates all its live predecessors. -/
def dominanceRow (dom : List (List Bool)) (b : Nat) : List Bool :=
  (List.range count).map fun slot =>
    slot == b || (livePreds next live count b).all fun p => bit dom p slot

def dominanceStep (dom : List (List Bool)) (b : Nat) : List (List Bool) :=
  if !live b || (livePreds next live count b).isEmpty then dom
  else dom.set b (dominanceRow next live count dom b)

/-- One round over the blocks after the entry, and whether it changed a row. -/
def dominanceRound (dom : List (List Bool)) : List (List Bool) × Bool :=
  (List.range' 1 (count - 1)).foldl (fun (dom, changed) b =>
    let dom' := dominanceStep next live count dom b
    (dom', changed || dom' != dom)) (dom, false)

def dominanceLoop : Nat → List (List Bool) → List (List Bool)
  | 0, dom => dom
  | rounds + 1, dom =>
    let (dom', changed) := dominanceRound next live count dom
    if changed then dominanceLoop rounds dom' else dom'

/-- The entry is dominated by itself, every other block at first by all. -/
def dominanceStart : List (List Bool) :=
  (List.range count).map fun at_ =>
    if at_ = 0 then (List.range count).map (· == 0) else List.replicate count true

/-- `a` dominates `b`, by the table. -/
def dominates (a b : Nat) : Bool :=
  bit (dominanceLoop next live count (count + 2) (dominanceStart count)) b a && live a && live b

variable {next live count}

theorem bit_set_ne {dom : List (List Bool)} {b v a : Nat} {row : List Bool} (hne : v ≠ b) :
    bit (dom.set b row) v a = bit dom v a := by
  unfold bit
  rw [List.getElem?_set_ne hne.symm]

theorem bit_set_self {dom : List (List Bool)} {b a : Nat} {row : List Bool} (hb : b < dom.length) :
    bit (dom.set b row) b a = row[a]?.getD false := by
  unfold bit
  rw [List.getElem?_set_self hb]
  rfl

/-- `a` is known not to dominate these blocks. -/
def NotDominated (dom : List (List Bool)) (a : Nat) (blocks : List Nat) : Prop :=
  ∀ v ∈ blocks, bit dom v a = false

section Avoiding

variable {a : Nat} {blocks : List Nat} {dom : List (List Bool)}

/-- The row of a block behind one that `a` does not dominate. -/
theorem bit_dominanceStep {dom : List (List Bool)} {p b : Nat} (hlen : dom.length = count)
    (hp : p < count) (hedge : b ∈ next p) (hlive : live p = true) (hliveb : live b = true)
    (hb : b < count) (hne : a ≠ b) (hbit : bit dom p a = false) :
    bit (dominanceStep next live count dom b) b a = false := by
  have hpred : p ∈ livePreds next live count b := by
    simp [livePreds, hp, hedge, hlive]
  have hsome : (livePreds next live count b).isEmpty = false := by
    rw [List.isEmpty_eq_false_iff]
    exact List.ne_nil_of_mem hpred
  have hall : ((livePreds next live count b).all fun p => bit dom p a) = false := by
    rw [List.all_eq_false]
    exact ⟨p, hpred, by simp [hbit]⟩
  simp only [dominanceStep, hliveb, hsome, Bool.not_true, Bool.or_self, Bool.false_eq_true, if_false]
  rw [bit_set_self (by omega)]
  unfold dominanceRow
  rw [List.getElem?_map]
  by_cases ha : a < count
  · rw [List.getElem?_range ha]
    simp [hne, hall]
  · rw [List.getElem?_eq_none (by simpa using ha)]
    rfl

@[simp] theorem length_dominanceStep (dom : List (List Bool)) (b : Nat) :
    (dominanceStep next live count dom b).length = dom.length := by
  unfold dominanceStep
  split <;> simp

/-- A path of live blocks from the entry that does not visit `a`. -/
structure Avoids (next : Nat → List Nat) (live : Nat → Bool) (count a : Nat) (blocks : List Nat) :
    Prop where
  path : IsPath next blocks
  head : blocks.head? = some 0
  live : ∀ v ∈ blocks, live v = true
  below : ∀ v ∈ blocks, v < count
  avoids : a ∉ blocks

theorem Avoids.left {front rest : List Nat} (h : Avoids next live count a (front ++ rest))
    (hne : front ≠ []) : Avoids next live count a front where
  path := h.path.left
  head := by
    rw [← h.head]
    cases front with
    | nil => exact absurd rfl hne
    | cons v front => rfl
  live := fun v hv => h.live v (List.mem_append_left _ hv)
  below := fun v hv => h.below v (List.mem_append_left _ hv)
  avoids := fun hmem => h.avoids (List.mem_append_left _ hmem)

/-- The next block of the path, once it is computed after the block before it. -/
theorem Avoids.visit {front : List Nat} {p b : Nat}
    (h : Avoids next live count a (front ++ [p] ++ [b])) (hlen : dom.length = count)
    (hp : bit dom p a = false) : bit (dominanceStep next live count dom b) b a = false := by
  have hpath := h.path
  rw [List.append_assoc] at hpath
  refine bit_dominanceStep hlen (h.below p (by simp)) hpath.edge (h.live p (by simp))
    (h.live b (by simp)) (h.below b (by simp)) (fun heq => h.avoids (by simp [heq])) hp

/-- Computing a row again does not lose what is known of the path. -/
theorem Avoids.step (h : Avoids next live count a blocks) (hlen : dom.length = count)
    (hdom : NotDominated dom a blocks) {b : Nat} (hb : b ≠ 0) :
    NotDominated (dominanceStep next live count dom b) a blocks := by
  intro v hv
  by_cases hvb : v = b
  · subst hvb
    obtain ⟨front, rest, hsplit⟩ := List.append_of_mem hv
    -- the entry comes first, so another block stands before `v`
    obtain ⟨front, p, rfl⟩ : ∃ front' p, front = front' ++ [p] := by
      rcases List.eq_nil_or_concat front with rfl | ⟨front', p, rfl⟩
      · have hhead := h.head
        rw [hsplit] at hhead
        exact absurd (Option.some.inj hhead) hb
      · exact ⟨front', p, List.concat_eq_append⟩
    have hsplit' : blocks = (front ++ [p] ++ [v]) ++ rest := by rw [hsplit]; simp
    have hleft := (hsplit' ▸ h).left (by simp)
    exact hleft.visit hlen (hdom p (by rw [hsplit]; simp))
  · unfold dominanceStep
    split
    · exact hdom v hv
    · rw [bit_set_ne hvb]
      exact hdom v hv

theorem foldl_dominanceStep (order : List Nat) :
    ∀ (dom : List (List Bool)) (changed : Bool),
      (order.foldl (fun (dom, changed) b =>
        let dom' := dominanceStep next live count dom b
        (dom', changed || dom' != dom)) (dom, changed)).1 =
          order.foldl (dominanceStep next live count) dom := by
  induction order with
  | nil => exact fun _ _ => rfl
  | cons b order ih => exact fun _ _ => ih _ _

/-- What a list of steps keeps. -/
theorem Avoids.steps (h : Avoids next live count a blocks) {order : List Nat}
    (horder : ∀ b ∈ order, b ≠ 0) :
    ∀ {dom : List (List Bool)}, dom.length = count → NotDominated dom a blocks →
      (order.foldl (dominanceStep next live count) dom).length = count ∧
        NotDominated (order.foldl (dominanceStep next live count) dom) a blocks := by
  induction order with
  | nil => exact fun hlen hdom => ⟨hlen, hdom⟩
  | cons b order ih =>
    intro dom hlen hdom
    exact ih (fun c hc => horder c (List.mem_cons_of_mem _ hc))
      (by rw [length_dominanceStep, hlen]) (h.step hlen hdom (horder b List.mem_cons_self))

theorem ne_zero_of_mem_range' {n b : Nat} (hb : b ∈ List.range' 1 n) : b ≠ 0 := by
  have := List.mem_range'_1.mp hb
  omega

theorem dominanceRound_fst (dom : List (List Bool)) :
    (dominanceRound next live count dom).1 =
      (List.range' 1 (count - 1)).foldl (dominanceStep next live count) dom :=
  foldl_dominanceStep _ _ _

theorem Avoids.keep_round (h : Avoids next live count a blocks) (hlen : dom.length = count)
    (hdom : NotDominated dom a blocks) :
    (dominanceRound next live count dom).1.length = count ∧
      NotDominated (dominanceRound next live count dom).1 a blocks := by
  rw [dominanceRound_fst]
  exact h.steps (fun c hc => ne_zero_of_mem_range' hc) hlen hdom

/-- A round goes one block further along the path. -/
theorem Avoids.round {front : List Nat} {p b : Nat}
    (h : Avoids next live count a (front ++ [p] ++ [b])) (hlen : dom.length = count)
    (hdom : NotDominated dom a (front ++ [p])) :
    NotDominated (dominanceRound next live count dom).1 a (front ++ [p] ++ [b]) := by
  have hleft := h.left (List.append_ne_nil_of_right_ne_nil front (List.cons_ne_nil p []))
  by_cases hb : b = 0
  · -- the entry is on the path already
    have hkept := (hleft.keep_round hlen hdom).2
    intro v hv
    rcases List.mem_append.mp hv with hv | hv
    · exact hkept v hv
    · refine hkept v ?_
      rw [List.mem_singleton.mp hv, hb]
      exact List.mem_of_mem_head? hleft.head
  · have hmem : b ∈ List.range' 1 (count - 1) := by
      have := h.below b (by simp)
      rw [List.mem_range'_1]
      omega
    obtain ⟨before, after, hsplit⟩ := List.append_of_mem hmem
    have hbefore : ∀ c ∈ before, c ≠ 0 := fun c hc =>
      ne_zero_of_mem_range' (n := count - 1) (by rw [hsplit]; exact List.mem_append_left _ hc)
    have hafter : ∀ c ∈ after, c ≠ 0 := fun c hc =>
      ne_zero_of_mem_range' (n := count - 1) (by rw [hsplit]; simp [hc])
    obtain ⟨hlen', hdom'⟩ := hleft.steps hbefore hlen hdom
    have hvisited : NotDominated (dominanceStep next live count
        (before.foldl (dominanceStep next live count) dom) b) a (front ++ [p] ++ [b]) := by
      intro v hv
      rcases List.mem_append.mp hv with hv | hv
      · exact hleft.step hlen' hdom' hb v hv
      · rw [List.mem_singleton.mp hv]
        exact h.visit hlen' (hdom' p (by simp))
    rw [dominanceRound_fst, hsplit, List.foldl_append]
    exact (h.steps hafter (by rw [length_dominanceStep, hlen']) hvisited).2

/-- A round that reports no change has made none. -/
theorem foldl_unchanged (order : List Nat) :
    ∀ (dom : List (List Bool)) (changed : Bool),
      (order.foldl (fun (dom, changed) b =>
        let dom' := dominanceStep next live count dom b
        (dom', changed || dom' != dom)) (dom, changed)).2 = false →
      changed = false ∧ order.foldl (dominanceStep next live count) dom = dom := by
  induction order with
  | nil => exact fun _ _ h => ⟨h, rfl⟩
  | cons b order ih =>
    intro dom changed h
    obtain ⟨hchanged, hrest⟩ := ih _ _ h
    rw [Bool.or_eq_false_iff] at hchanged
    have hsame : dominanceStep next live count dom b = dom := by simpa using hchanged.2
    refine ⟨hchanged.1, ?_⟩
    rw [List.foldl_cons, hsame]
    rwa [hsame] at hrest

theorem dominanceRound_unchanged (h : (dominanceRound next live count dom).2 = false) :
    (dominanceRound next live count dom).1 = dom := by
  rw [dominanceRound_fst]
  exact (foldl_unchanged _ _ _ h).2

/-- How far the path is known after one more round. -/
theorem Avoids.grow {front rest : List Nat} {b : Nat}
    (h : Avoids next live count a (front ++ b :: rest)) (hne : front ≠ [])
    (hlen : dom.length = count) (hdom : NotDominated dom a front) :
    NotDominated (dominanceRound next live count dom).1 a (front ++ [b]) := by
  obtain ⟨front, p, rfl⟩ : ∃ front' p, front = front' ++ [p] := by
    rcases List.eq_nil_or_concat front with rfl | ⟨front', p, rfl⟩
    · exact absurd rfl hne
    · exact ⟨front', p, List.concat_eq_append⟩
  rw [List.append_cons] at h
  exact (h.left (by simp)).round hlen hdom

/-- A table that a round leaves alone is right about the whole path. -/
theorem Avoids.stable (hsame : (dominanceRound next live count dom).1 = dom)
    (hlen : dom.length = count) {rest : List Nat} :
    ∀ {front : List Nat}, Avoids next live count a (front ++ rest) → front ≠ [] →
      NotDominated dom a front → NotDominated dom a (front ++ rest) := by
  induction rest with
  | nil =>
    intro front _ _ hdom
    rwa [List.append_nil]
  | cons b rest ih =>
    intro front h hne hdom
    have hgrown := h.grow hne hlen hdom
    rw [hsame] at hgrown
    rw [List.append_cons] at h ⊢
    exact ih h (by simp) hgrown

/-- What is known of the path after so many rounds. -/
theorem Avoids.loop :
    ∀ (rounds : Nat) {dom : List (List Bool)} {front rest : List Nat},
      Avoids next live count a (front ++ rest) → front ≠ [] → rest.length ≤ rounds →
      dom.length = count → NotDominated dom a front →
      NotDominated (dominanceLoop next live count rounds dom) a (front ++ rest) := by
  intro rounds
  induction rounds with
  | zero =>
    intro dom front rest _ _ hrounds _ hdom
    obtain rfl : rest = [] := List.length_eq_zero_iff.mp (by omega)
    rw [List.append_nil]
    exact hdom
  | succ rounds ih =>
    intro dom front rest h hne hrounds hlen hdom
    obtain ⟨hlen', hkept⟩ := (h.left hne).keep_round hlen hdom
    unfold dominanceLoop
    cases hchanged : (dominanceRound next live count dom).2 with
    | true =>
      simp only [hchanged, if_true]
      cases rest with
      | nil => exact ih h hne (Nat.zero_le _) hlen' hkept
      | cons b rest =>
        have hgrown := h.grow hne hlen hdom
        rw [List.append_cons] at h ⊢
        rw [List.length_cons] at hrounds
        exact ih h (by simp) (by omega) hlen' hgrown
    | false =>
      have hsame := dominanceRound_unchanged hchanged
      simp only [hchanged, Bool.false_eq_true, if_false, hsame]
      exact Avoids.stable hsame hlen h hne hdom

end Avoiding

/-- The table of so many rounds. -/
def dominanceTable (next : Nat → List Nat) (live : Nat → Bool) (count : Nat) : List (List Bool) :=
  dominanceLoop next live count (count + 2) (dominanceStart count)

/-- **The rounds suffice**: a path that avoids `a` shows in the table. -/
theorem Avoids.bit_table {a b : Nat} {path : List Nat}
    (h : Avoids next live count a (path ++ [b])) :
    bit (dominanceTable next live count) b a = false := by
  obtain ⟨short, hshort, hhead, hnodup, hsub⟩ := IsPath.exists_nodup path h.path h.head
  have havoids : Avoids next live count a (short ++ [b]) :=
    ⟨hshort, hhead, fun v hv => h.live v (hsub v hv), fun v hv => h.below v (hsub v hv),
      fun hmem => h.avoids (hsub a hmem)⟩
  have hlength := length_le_of_below hnodup havoids.below
  obtain ⟨rest, hrest⟩ := List.head?_eq_some_iff.mp hhead
  have hcount : 0 < count := havoids.below 0 (by rw [hrest]; exact List.mem_cons_self)
  -- the entry's row says that only the entry dominates it
  have hentry : NotDominated (dominanceStart count) a [0] := by
    intro v hv
    rw [List.mem_singleton.mp hv]
    have ha : a ≠ 0 := fun heq => havoids.avoids (by rw [hrest, heq]; exact List.mem_cons_self)
    unfold bit dominanceStart
    rw [List.getElem?_map, List.getElem?_range hcount]
    by_cases hin : a < count
    · simp [List.getElem?_range hin, ha]
    · simp [hin]
  rw [hrest, ← List.singleton_append] at havoids
  have hfinal := havoids.loop (count + 2) (by simp) (by
    rw [hrest, List.length_cons] at hlength
    omega) (by simp [dominanceStart]) hentry
  exact hfinal b (by
    rw [List.singleton_append, ← hrest]
    simp)

/-- **A block that the table lets dominate another is on every path to it.** -/
theorem mem_of_dominates {a b : Nat} {path : List Nat} (hdom : dominates next live count a b = true)
    (hpath : IsPath next (path ++ [b])) (hstart : (path ++ [b]).head? = some 0)
    (hlive : ∀ v ∈ path ++ [b], live v = true) (hbelow : ∀ v ∈ path ++ [b], v < count) :
    a ∈ path ++ [b] := by
  by_contra hnot
  have hbit := (Avoids.mk hpath hstart hlive hbelow hnot).bit_table
  rw [dominanceTable] at hbit
  simp [dominates, hbit] at hdom

/-! ### The table is exact -/

/-- A table of `count` rows of `count` bits. -/
structure Square (count : Nat) (table : List (List Bool)) : Prop where
  rows : table.length = count
  columns : ∀ row ∈ table, row.length = count

theorem Square.set {table : List (List Bool)} (h : Square count table) {b : Nat} {row : List Bool}
    (hrow : row.length = count) : Square count (table.set b row) where
  rows := by rw [List.length_set, h.rows]
  columns := fun other hother => by
    rcases List.mem_or_eq_of_mem_set hother with hmem | rfl
    · exact h.columns other hmem
    · exact hrow

/-- Two tables with the same bits are equal. -/
theorem Square.ext {table other : List (List Bool)} (h : Square count table)
    (h' : Square count other) (hbits : ∀ b < count, ∀ a < count, bit table b a = bit other b a) :
    table = other := by
  refine List.ext_getElem (h.rows.trans h'.rows.symm) fun b h₁ h₂ => ?_
  have hwidth := h.columns _ (List.getElem_mem h₁)
  have hwidth' := h'.columns _ (List.getElem_mem h₂)
  refine List.ext_getElem (hwidth.trans hwidth'.symm) fun a h₃ h₄ => ?_
  have hbit := hbits b (by rw [← h.rows]; exact h₁) a (by rw [← hwidth]; exact h₃)
  rw [bit, bit, List.getElem?_eq_getElem h₁, List.getElem?_eq_getElem h₂, Option.bind_some,
    Option.bind_some, List.getElem?_eq_getElem h₃, List.getElem?_eq_getElem h₄] at hbit
  exact hbit

/-- Writing a row that has the bits of the old one changes nothing. -/
theorem Square.set_same {table : List (List Bool)} (h : Square count table) {b : Nat}
    {row : List Bool} (hrow : row.length = count)
    (hbits : ∀ a < count, row[a]?.getD false = bit table b a) : table.set b row = table := by
  refine (h.set hrow).ext h fun v hv a ha => ?_
  by_cases hvb : v = b
  · subst hvb
    rw [bit_set_self (by rw [h.rows]; exact hv)]
    exact hbits a ha
  · exact bit_set_ne hvb

/-- What the table rules out, a path rules out. -/
def Justified (next : Nat → List Nat) (live : Nat → Bool) (count : Nat) (dom : List (List Bool)) :
    Prop :=
  ∀ a b, live b = true → a < count → b < count → bit dom b a = false →
    ∃ path, Avoids next live count a (path ++ [b])

theorem length_dominanceRow (dom : List (List Bool)) (b : Nat) :
    (dominanceRow next live count dom b).length = count := by
  rw [dominanceRow, List.length_map, List.length_range]

theorem getD_dominanceRow {dom : List (List Bool)} {a b : Nat} (ha : a < count) :
    (dominanceRow next live count dom b)[a]?.getD false =
      (a == b || (livePreds next live count b).all fun p => bit dom p a) := by
  rw [dominanceRow, List.getElem?_map, List.getElem?_range ha]
  rfl

theorem mem_livePreds {p b : Nat} :
    p ∈ livePreds next live count b ↔ p < count ∧ b ∈ next p ∧ live p = true := by
  simp [livePreds]

/-- A path to a predecessor goes on to the block. -/
theorem Avoids.concat {a p b : Nat} {path : List Nat}
    (h : Avoids next live count a (path ++ [p])) (hedge : b ∈ next p) (hlive : live b = true)
    (hb : b < count) (hne : a ≠ b) : Avoids next live count a (path ++ [p] ++ [b]) where
  path := isPath_concat h.path hedge
  head := by
    rw [List.head?_append, h.head]
    rfl
  live := fun v hv => by
    rcases List.mem_append.mp hv with hv | hv
    · exact h.live v hv
    · rw [List.mem_singleton.mp hv]
      exact hlive
  below := fun v hv => by
    rcases List.mem_append.mp hv with hv | hv
    · exact h.below v hv
    · rw [List.mem_singleton.mp hv]
      exact hb
  avoids := fun hmem => by
    rcases List.mem_append.mp hmem with hmem | hmem
    · exact h.avoids hmem
    · exact hne (List.mem_singleton.mp hmem)

/-- A row that is computed from a justified table is justified. -/
theorem Justified.row {dom : List (List Bool)} (h : Justified next live count dom) {a b : Nat}
    (hlive : live b = true) (ha : a < count) (hb : b < count)
    (hbit : (dominanceRow next live count dom b)[a]?.getD false = false) :
    ∃ path, Avoids next live count a (path ++ [b]) := by
  rw [getD_dominanceRow ha, Bool.or_eq_false_iff, List.all_eq_false] at hbit
  obtain ⟨hne, p, hp, hpbit⟩ := hbit
  obtain ⟨hlt, hedge, hlivep⟩ := mem_livePreds.mp hp
  obtain ⟨path, hpath⟩ := h a p hlivep ha hlt (by simpa using hpbit)
  exact ⟨path ++ [p], hpath.concat hedge hlive hb (by simpa using hne)⟩

theorem Justified.step {dom : List (List Bool)} (h : Justified next live count dom)
    (hlen : dom.length = count) (b : Nat) :
    Justified next live count (dominanceStep next live count dom b) := by
  unfold dominanceStep
  split
  · exact h
  · intro a v hlive ha hv hbit
    by_cases hvb : v = b
    · subst hvb
      rw [bit_set_self (by omega)] at hbit
      exact h.row hlive ha hv hbit
    · rw [bit_set_ne hvb] at hbit
      exact h a v hlive ha hv hbit

theorem Square.step {dom : List (List Bool)} (h : Square count dom) (b : Nat) :
    Square count (dominanceStep next live count dom b) := by
  unfold dominanceStep
  split
  · exact h
  · exact h.set (length_dominanceRow dom b)

theorem square_dominanceStart : Square count (dominanceStart count) where
  rows := by simp [dominanceStart]
  columns := fun row hrow => by
    obtain ⟨at_, -, rfl⟩ := List.mem_map.mp hrow
    split <;> simp

theorem justified_dominanceStart : Justified next live count (dominanceStart count) := by
  intro a b hlive ha hb hbit
  by_cases hzero : b = 0
  · subst hzero
    have hne : a ≠ 0 := by
      rintro rfl
      simp [bit, dominanceStart, hb] at hbit
    refine ⟨[], ⟨trivial, rfl, fun v hv => ?_, fun v hv => ?_, by simpa using hne⟩⟩
    · rw [List.mem_singleton.mp hv]
      exact hlive
    · rw [List.mem_singleton.mp hv]
      exact hb
  · simp [bit, dominanceStart, hb, hzero, ha] at hbit

/-- What every step keeps, the loop keeps. -/
theorem dominanceLoop_keeps {Keeps : List (List Bool) → Prop}
    (hstep : ∀ dom b, Keeps dom → Keeps (dominanceStep next live count dom b)) :
    ∀ (rounds : Nat) (dom : List (List Bool)), Keeps dom →
      Keeps (dominanceLoop next live count rounds dom) := by
  have hfold : ∀ (order : List Nat) (dom : List (List Bool)), Keeps dom →
      Keeps (order.foldl (dominanceStep next live count) dom) := by
    intro order
    induction order with
    | nil => exact fun _ h => h
    | cons b order ih => exact fun dom h => ih _ (hstep dom b h)
  intro rounds
  induction rounds with
  | zero => exact fun _ h => h
  | succ rounds ih =>
    intro dom h
    have hround : Keeps (dominanceRound next live count dom).1 := by
      rw [dominanceRound_fst]
      exact hfold _ dom h
    unfold dominanceLoop
    cases hchanged : (dominanceRound next live count dom).2 with
    | true =>
      simp only [hchanged, if_true]
      exact ih _ hround
    | false =>
      simp only [hchanged, Bool.false_eq_true, if_false]
      exact hround

theorem square_justified_table :
    Square count (dominanceTable next live count) ∧
      Justified next live count (dominanceTable next live count) := by
  let Keeps : List (List Bool) → Prop := fun dom =>
    Square count dom ∧ Justified next live count dom
  have hstep : ∀ dom b, Keeps dom → Keeps (dominanceStep next live count dom b) :=
    fun _ b h => ⟨h.1.step b, h.2.step h.1.rows b⟩
  exact dominanceLoop_keeps hstep _ _ ⟨square_dominanceStart, justified_dominanceStart⟩

/-- **The table is exact**: `a` does not dominate `b` when a path avoids it, and only then. -/
theorem bit_table_iff {a b : Nat} (hlive : live b = true) (ha : a < count) (hb : b < count) :
    bit (dominanceTable next live count) b a = false ↔
      ∃ path, Avoids next live count a (path ++ [b]) :=
  ⟨square_justified_table.2 a b hlive ha hb, fun ⟨_, h⟩ => h.bit_table⟩

/-- The last edge of a path to a block other than the entry. -/
theorem Avoids.last_edge {a b : Nat} {path : List Nat}
    (h : Avoids next live count a (path ++ [b])) (hb : b ≠ 0) :
    ∃ front p, path = front ++ [p] ∧ b ∈ next p ∧ Avoids next live count a (front ++ [p]) := by
  rcases List.eq_nil_or_concat path with rfl | ⟨front, p, rfl⟩
  · exact absurd (Option.some.inj h.head) hb
  · rw [List.concat_eq_append] at h ⊢
    have hpath := h.path
    rw [List.append_assoc] at hpath
    exact ⟨front, p, rfl, hpath.edge, h.left (by simp)⟩

/-- A further step leaves the table alone. -/
theorem dominanceStep_table {b : Nat} (hb : b < count) (hentry : b ≠ 0) :
    dominanceStep next live count (dominanceTable next live count) b =
      dominanceTable next live count := by
  unfold dominanceStep
  split
  case isTrue h => rfl
  case isFalse h =>
    rw [Bool.or_eq_true, not_or] at h
    have hlive : live b = true := by simpa using h.1
    refine square_justified_table.1.set_same (length_dominanceRow _ b) fun a ha => ?_
    rw [Bool.eq_iff_iff, ← not_iff_not, Bool.not_eq_true, Bool.not_eq_true]
    constructor
    · intro hbit
      exact (bit_table_iff hlive ha hb).mpr (square_justified_table.2.row hlive ha hb hbit)
    · intro hbit
      obtain ⟨path, hpath⟩ := (bit_table_iff hlive ha hb).mp hbit
      obtain ⟨front, p, rfl, hedge, hfront⟩ := hpath.last_edge hentry
      have hne : a ≠ b := fun heq => hpath.avoids (by simp [heq])
      have hp : p ∈ livePreds next live count b :=
        mem_livePreds.mpr ⟨hfront.below p (by simp), hedge, hfront.live p (by simp)⟩
      rw [getD_dominanceRow ha, Bool.or_eq_false_iff, List.all_eq_false]
      exact ⟨by simpa using hne, p, hp, by simp [hfront.bit_table]⟩

/-- **The rounds suffice**: a further round leaves the table alone. -/
theorem dominanceRound_table :
    (dominanceRound next live count (dominanceTable next live count)).1 =
      dominanceTable next live count := by
  have hfold : ∀ order : List Nat, (∀ b ∈ order, b < count ∧ b ≠ 0) →
      order.foldl (dominanceStep next live count) (dominanceTable next live count) =
        dominanceTable next live count := by
    intro order
    induction order with
    | nil => exact fun _ => rfl
    | cons b order ih =>
      intro horder
      obtain ⟨hb, hentry⟩ := horder b List.mem_cons_self
      rw [List.foldl_cons, dominanceStep_table hb hentry]
      exact ih fun c hc => horder c (List.mem_cons_of_mem _ hc)
  rw [dominanceRound_fst]
  refine hfold _ fun b hb => ?_
  rw [List.mem_range'_1] at hb
  omega

end Dominance

end Harvest.Lib
