import Mathlib.Algebra.BigOperators.Group.Finset.Basic
import Mathlib.Algebra.Order.BigOperators.Group.Finset
import Mathlib.Logic.Function.Basic
import Mathlib.Logic.Relation
import Mathlib.Algebra.GroupWithZero.Nat

/-!
# Tarjan's components with an explicit stack of frames

A depth-first search over a graph of numbered vertices that gives each vertex a number in the order
of discovery and keeps, for each vertex on the path of the search, the least number that it is known
to reach. A vertex that reaches no smaller number than its own closes a component: the vertices
above it on the stack. The search collects the vertices of the components that have a cycle.

Proved here:
* `Inv.push`, `Inv.examine`, `Inv.pop`: what one turn of the search keeps.
* `turnsLeft_turn`, `search_inv`: the turns end, and the path is then empty.
* `mem_cyclicVertices`: the search collects exactly the vertices on a cycle.
-/

namespace Harvest.Lib

/-- A path, possibly empty, leads from one vertex to another. -/
def Reaches (next : ℕ → List ℕ) : ℕ → ℕ → Prop := Relation.ReflTransGen fun v w => w ∈ next v

/-- A path of at least one edge leads from the vertex back to itself. -/
def OnCycle (next : ℕ → List ℕ) (v : ℕ) : Prop := ∃ w ∈ next v, Reaches next w v

/-! ## The search -/

structure Search where
  order : ℕ → Option ℕ
  low : ℕ → ℕ
  onStack : ℕ → Bool
  /-- The last vertex pushed comes first. -/
  stack : List ℕ
  counter : ℕ
  cyclic : Finset ℕ

/-- Pops the stack down to `v`: the vertices popped, and what is left. -/
def popTo (v : ℕ) : List ℕ → List ℕ × List ℕ
  | [] => ([], [])
  | w :: stack =>
    if w = v then ([w], stack)
    else (w :: (popTo v stack).1, (popTo v stack).2)

namespace Search

def init : Search := ⟨fun _ => none, fun _ => 0, fun _ => false, [], 0, ∅⟩

/-- Numbers a vertex at its first visit, and puts it on the stack. -/
def visit (s : Search) (v : ℕ) : Search :=
  match s.order v with
  | some _ => s
  | none =>
    { s with
      order := Function.update s.order v (some s.counter)
      low := Function.update s.low v s.counter
      onStack := Function.update s.onStack v true
      stack := v :: s.stack
      counter := s.counter + 1 }

def lower (s : Search) (v i : ℕ) : Search :=
  { s with low := Function.update s.low v (min (s.low v) i) }

/-- Closes the component of a vertex that reaches no smaller number. -/
def close (next : ℕ → List ℕ) (s : Search) (v : ℕ) : Search :=
  if s.order v = some (s.low v) then
    let component := (popTo v s.stack).1
    { s with
      onStack := fun w => s.onStack w && ! decide (w ∈ component)
      stack := (popTo v s.stack).2
      cyclic :=
        if 1 < component.length ∨ v ∈ next v then s.cyclic ∪ component.toFinset else s.cyclic }
  else s

/-- One turn: the top frame is a vertex and the position of its next successor. -/
def turn (next : ℕ → List ℕ) (s : Search) : List (ℕ × ℕ) → Search × List (ℕ × ℕ)
  | [] => (s, [])
  | (v, k) :: frames =>
    let s := s.visit v
    match (next v)[k]? with
    | some w =>
      match s.order w with
      | none => (s, (w, 0) :: (v, k + 1) :: frames)
      | some i => (if s.onStack w then s.lower v i else s, (v, k + 1) :: frames)
    | none =>
      match frames with
      | [] => (s.close next v, [])
      | (parent, j) :: frames =>
        ((s.lower parent (s.low v)).close next v, (parent, j) :: frames)

def search (next : ℕ → List ℕ) : ℕ → Search → List (ℕ × ℕ) → Search × List (ℕ × ℕ)
  | 0, s, frames => (s, frames)
  | _, s, [] => (s, [])
  | fuel + 1, s, frame :: frames =>
    search next fuel (s.turn next (frame :: frames)).1 (s.turn next (frame :: frames)).2

/-- Each vertex is pushed once, and each turn pops a frame or moves to its next successor. -/
def searchTurns (next : ℕ → List ℕ) (n : ℕ) : ℕ :=
  ∑ v ∈ Finset.range n, ((next v).length + 1)

/-- The searches from each vertex that no earlier one has visited. -/
def searchAll (next : ℕ → List ℕ) (n : ℕ) : Search :=
  (List.range n).foldl (fun s start =>
    if (s.order start).isSome then s
    else (search next (searchTurns next n) s [(start, 0)]).1) init

end Search

/-- The vertices below `n` that the search finds on a cycle. -/
def cyclicVertices (next : ℕ → List ℕ) (n : ℕ) : Finset ℕ := (Search.searchAll next n).cyclic

example : cyclicVertices (fun v => [[1], [2, 3], [0], [3], [2]].getD v []) 5 = {0, 1, 2, 3} := by
  decide +kernel

/-! ## What holds between turns -/

/-- The edge was looked at: its source is not on the path any more, or has gone past it. -/
def Examined (next : ℕ → List ℕ) (frames : List (ℕ × ℕ)) (x w : ℕ) : Prop :=
  w ∈ next x ∧ ∀ k, (x, k) ∈ frames → ∃ i < k, (next x)[i]? = some w

namespace Search

/-- The number of a visited vertex. -/
def ord (s : Search) (v : ℕ) : ℕ := (s.order v).getD 0

/-- What holds when every vertex of the frames is visited. -/
structure Inv (next : ℕ → List ℕ) (s : Search) (frames : List (ℕ × ℕ)) : Prop where
  order_lt : ∀ v i, s.order v = some i → i < s.counter
  order_inj : ∀ v w i, s.order v = some i → s.order w = some i → v = w
  onStack : ∀ v, s.onStack v = true ↔ v ∈ s.stack
  visited : ∀ v ∈ s.stack, (s.order v).isSome
  sorted : s.stack.Pairwise fun a b => s.ord b < s.ord a
  /-- Closed components are left by no edge. -/
  closed : ∀ v, (s.order v).isSome → v ∉ s.stack → ∀ w ∈ next v, (s.order w).isSome ∧ w ∉ s.stack
  cyclic : ∀ v, v ∈ s.cyclic ↔ (s.order v).isSome ∧ v ∉ s.stack ∧ OnCycle next v
  gray : ∀ f ∈ frames, f.1 ∈ s.stack
  path : frames.Pairwise fun a b => s.ord b.1 < s.ord a.1
  reaches : ∀ f ∈ frames, ∀ x ∈ s.stack, s.ord f.1 ≤ s.ord x → Reaches next f.1 x
  examined : ∀ x ∈ s.stack, ∀ w, Examined next frames x w → (s.order w).isSome
  /-- Every vertex on the stack leads back to the path. -/
  back : ∀ x ∈ s.stack, ∃ f ∈ frames, s.ord f.1 ≤ s.ord x ∧ Reaches next x f.1
  low_le : ∀ f ∈ frames, s.low f.1 ≤ s.ord f.1
  low_reached : ∀ f ∈ frames, ∃ x ∈ s.stack, s.ord x = s.low f.1 ∧ Reaches next f.1 x
  /-- What the edges above a frame lead to is known to a frame that is not below it. -/
  low_least : ∀ f ∈ frames, ∀ x ∈ s.stack, s.ord f.1 ≤ s.ord x → ∀ w ∈ s.stack,
    Examined next frames x w → ∃ g ∈ frames, s.ord f.1 ≤ s.ord g.1 ∧ s.low g.1 ≤ s.ord w

variable {next : ℕ → List ℕ} {s : Search} {frames : List (ℕ × ℕ)} {v w k : ℕ}

theorem visit_of_new (h : s.order v = none) :
    s.visit v = { s with
      order := Function.update s.order v (some s.counter)
      low := Function.update s.low v s.counter
      onStack := Function.update s.onStack v true
      stack := v :: s.stack
      counter := s.counter + 1 } := by
  unfold visit
  rw [h]

theorem visit_order (h : s.order v = none) (x : ℕ) :
    (s.visit v).order x = if x = v then some s.counter else s.order x := by
  rw [visit_of_new h]
  exact Function.update_apply ..

theorem visit_low (h : s.order v = none) (x : ℕ) :
    (s.visit v).low x = if x = v then s.counter else s.low x := by
  rw [visit_of_new h]
  exact Function.update_apply ..

theorem visit_onStack (h : s.order v = none) (x : ℕ) :
    (s.visit v).onStack x = if x = v then true else s.onStack x := by
  rw [visit_of_new h]
  exact Function.update_apply ..

theorem visit_stack (h : s.order v = none) : (s.visit v).stack = v :: s.stack := by
  rw [visit_of_new h]

theorem visit_counter (h : s.order v = none) : (s.visit v).counter = s.counter + 1 := by
  rw [visit_of_new h]

theorem visit_cyclic (s : Search) (v : ℕ) : (s.visit v).cyclic = s.cyclic := by
  unfold visit
  cases s.order v with
  | some i => rfl
  | none => rfl

theorem visit_ord_self (h : s.order v = none) : (s.visit v).ord v = s.counter := by
  rw [ord, visit_order h, if_pos rfl]
  rfl

theorem visit_ord_of_ne (h : s.order v = none) {x : ℕ} (hne : x ≠ v) :
    (s.visit v).ord x = s.ord x := by
  rw [ord, visit_order h, if_neg hne]
  rfl

theorem visit_of_visited (h : (s.order v).isSome) : s.visit v = s := by
  unfold visit
  obtain ⟨i, hi⟩ := Option.isSome_iff_exists.mp h
  rw [hi]

theorem isSome_visit (s : Search) (v x : ℕ) :
    ((s.visit v).order x).isSome ↔ x = v ∨ (s.order x).isSome := by
  cases horder : s.order v with
  | some i =>
    rw [visit_of_visited (by rw [horder]; rfl)]
    refine ⟨.inr, fun h => h.elim (fun hx => ?_) id⟩
    rw [hx, horder]
    rfl
  | none =>
    rw [visit_of_new horder]
    by_cases hx : x = v
    · rw [hx]
      simp
    · simp [hx]

namespace Inv

theorem ord_lt (h : Inv next s frames) {x : ℕ} (hx : x ∈ s.stack) : s.ord x < s.counter := by
  obtain ⟨i, hi⟩ := Option.isSome_iff_exists.mp (h.visited x hx)
  rw [ord, hi]
  exact h.order_lt x i hi

theorem ord_inj (h : Inv next s frames) {x y : ℕ} (hx : x ∈ s.stack) (hy : y ∈ s.stack)
    (heq : s.ord x = s.ord y) : x = y := by
  obtain ⟨i, hi⟩ := Option.isSome_iff_exists.mp (h.visited x hx)
  obtain ⟨j, hj⟩ := Option.isSome_iff_exists.mp (h.visited y hy)
  rw [ord, ord, hi, hj] at heq
  obtain rfl : i = j := heq
  exact h.order_inj x y i hi hj

/-- The top frame is the last vertex of the path. -/
theorem ord_le_top {f : ℕ × ℕ} (h : Inv next s (f :: frames)) {g : ℕ × ℕ} (hg : g ∈ f :: frames) :
    s.ord g.1 ≤ s.ord f.1 := by
  rcases List.mem_cons.mp hg with rfl | hg
  · exact le_rfl
  · exact ((List.pairwise_cons.mp h.path).1 g hg).le

/-- The top frame can look at one more edge. -/
theorem examined_top (hw : (next v)[k]? = some w) {x y : ℕ}
    (h : Examined next ((v, k + 1) :: frames) x y) :
    Examined next ((v, k) :: frames) x y ∨ (x = v ∧ y = w) := by
  obtain ⟨hedge, hframes⟩ := h
  by_cases hx : x = v
  · obtain ⟨i, hi, hy⟩ := hframes (k + 1) (by rw [hx]; exact List.mem_cons_self)
    by_cases hik : i = k
    · refine .inr ⟨hx, ?_⟩
      rw [hx, hik, hw] at hy
      exact (Option.some.inj hy).symm
    · refine .inl ⟨hedge, fun j hj => ?_⟩
      rcases List.mem_cons.mp hj with heq | hj
      · obtain ⟨-, rfl⟩ := Prod.mk.inj heq
        exact ⟨i, by omega, hy⟩
      · exact hframes j (List.mem_cons_of_mem _ hj)
  · refine .inl ⟨hedge, fun j hj => ?_⟩
    rcases List.mem_cons.mp hj with heq | hj
    · exact absurd (Prod.mk.inj heq).1 hx
    · exact hframes j (List.mem_cons_of_mem _ hj)

/-- A frame further on in its edges. -/
theorem map_top {P : ℕ → Prop} {f : ℕ × ℕ} (hf : f ∈ (v, k + 1) :: frames)
    (h : ∀ f ∈ (v, k) :: frames, P f.1) : P f.1 := by
  rcases List.mem_cons.mp hf with rfl | hf
  · exact h (v, k) List.mem_cons_self
  · exact h f (List.mem_cons_of_mem _ hf)

/-- The top frame has looked at an edge to a visited vertex, and knows its number. -/
theorem relow (h : Inv next s ((v, k) :: frames)) (hw : (next v)[k]? = some w)
    (hvisited : (s.order w).isSome) (low : ℕ → ℕ) (hle : ∀ x, low x ≤ s.low x)
    (hreached : ∀ f ∈ (v, k) :: frames, ∃ x ∈ s.stack, s.ord x = low f.1 ∧ Reaches next f.1 x)
    (hknown : w ∈ s.stack → low v ≤ s.ord w) :
    Inv next { s with low := low } ((v, k + 1) :: frames) where
  order_lt := h.order_lt
  order_inj := h.order_inj
  onStack := h.onStack
  visited := h.visited
  sorted := h.sorted
  closed := h.closed
  cyclic := h.cyclic
  gray := fun f hf => map_top hf h.gray
  path := List.pairwise_cons.mpr (List.pairwise_cons.mp h.path)
  reaches := fun f hf => @map_top frames v k
    (fun u => ∀ x ∈ s.stack, s.ord u ≤ s.ord x → Reaches next u x) f hf h.reaches
  examined := fun x hx y hy => by
    rcases examined_top hw hy with hold | ⟨-, rfl⟩
    · exact h.examined x hx y hold
    · exact hvisited
  back := fun x hx => by
    obtain ⟨f, hf, hord, hreach⟩ := h.back x hx
    rcases List.mem_cons.mp hf with rfl | hf
    · exact ⟨(v, k + 1), List.mem_cons_self, hord, hreach⟩
    · exact ⟨f, List.mem_cons_of_mem _ hf, hord, hreach⟩
  low_le := fun f hf => (hle f.1).trans
    (@map_top frames v k (fun u => s.low u ≤ s.ord u) f hf h.low_le)
  low_reached := fun f hf => @map_top frames v k
    (fun u => ∃ x ∈ s.stack, s.ord x = low u ∧ Reaches next u x) f hf hreached
  low_least := fun f hf x hx hfx y hy hexamined => by
    have hold : ∃ g ∈ (v, k) :: frames, s.ord f.1 ≤ s.ord g.1 ∧ low g.1 ≤ s.ord y := by
      rcases examined_top hw hexamined with hold | ⟨rfl, rfl⟩
      · obtain ⟨g, hg, hfg, hgy⟩ := @map_top frames v k (fun u => s.ord u ≤ s.ord x →
          ∃ g ∈ (v, k) :: frames, s.ord u ≤ s.ord g.1 ∧ s.low g.1 ≤ s.ord y) f hf
          (fun f hf hfx => h.low_least f hf x hx hfx y hy hold) hfx
        exact ⟨g, hg, hfg, (hle g.1).trans hgy⟩
      · exact ⟨(x, k), List.mem_cons_self, hfx, hknown hy⟩
    obtain ⟨g, hg, hfg, hgy⟩ := hold
    rcases List.mem_cons.mp hg with rfl | hg
    · exact ⟨(v, k + 1), List.mem_cons_self, hfg, hgy⟩
    · exact ⟨g, List.mem_cons_of_mem _ hg, hfg, hgy⟩

/-- **An edge to a visited vertex.** The number of a vertex on the stack lowers the top frame. -/
theorem examine (h : Inv next s ((v, k) :: frames)) (hw : (next v)[k]? = some w) {i : ℕ}
    (hi : s.order w = some i) :
    Inv next (if s.onStack w then s.lower v i else s) ((v, k + 1) :: frames) := by
  have hvisited : (s.order w).isSome := by
    rw [hi]
    rfl
  have hord : s.ord w = i := by
    rw [ord, hi]
    rfl
  split_ifs with hstack
  · have hmem : w ∈ s.stack := (h.onStack w).mp hstack
    refine h.relow hw hvisited _ (fun x => ?_) (fun f hf => ?_) fun _ => ?_
    · by_cases hx : x = v
      · rw [hx, Function.update_self]
        exact min_le_left _ _
      · rw [Function.update_of_ne hx]
    · by_cases hf' : f.1 = v
      · rw [hf', Function.update_self]
        rcases le_total (s.low v) i with hle | hle
        · rw [min_eq_left hle]
          exact h.low_reached (v, k) List.mem_cons_self
        · rw [min_eq_right hle]
          exact ⟨w, hmem, hord, Relation.ReflTransGen.single (List.mem_of_getElem? hw)⟩
      · rw [Function.update_of_ne hf']
        exact h.low_reached f hf
    · rw [Function.update_self, hord]
      exact min_le_right _ _
  · exact h.relow hw hvisited s.low (fun _ => le_rfl) h.low_reached
      fun hmem => absurd ((h.onStack w).mpr hmem) hstack

theorem notMem_of_new (h : Inv next s frames) (hnew : s.order w = none) : w ∉ s.stack := by
  intro hmem
  have hsome := h.visited w hmem
  rw [hnew] at hsome
  cases hsome

theorem visit_ord (h : Inv next s frames) (hnew : s.order w = none) {x : ℕ} (hx : x ∈ s.stack) :
    (s.visit w).ord x = s.ord x :=
  visit_ord_of_ne hnew fun heq => h.notMem_of_new hnew (heq ▸ hx)

/-- The numbers and the stack after a new vertex was visited. -/
theorem enter_order (h : Inv next s frames) (hnew : s.order w = none) :
    (∀ x i, (s.visit w).order x = some i → i < (s.visit w).counter) ∧
      (∀ x y i, (s.visit w).order x = some i → (s.visit w).order y = some i → x = y) ∧
      (s.visit w).stack.Pairwise fun a b => (s.visit w).ord b < (s.visit w).ord a := by
  refine ⟨fun x i hx => ?_, fun x y i hx hy => ?_, ?_⟩
  · rw [visit_order hnew] at hx
    rw [visit_counter hnew]
    split_ifs at hx with hxw
    · obtain rfl := Option.some.inj hx
      exact Nat.lt_succ_self _
    · exact (h.order_lt x i hx).trans (Nat.lt_succ_self _)
  · rw [visit_order hnew] at hx hy
    split_ifs at hx hy with hxw hyw hyw
    · rw [hxw, hyw]
    · obtain rfl := Option.some.inj hx
      exact absurd (h.order_lt y _ hy) (lt_irrefl _)
    · obtain rfl := Option.some.inj hy
      exact absurd (h.order_lt x _ hx) (lt_irrefl _)
    · exact h.order_inj x y i hx hy
  · rw [visit_stack hnew]
    refine .cons (fun x hx => ?_) (h.sorted.imp_of_mem fun ha hb hlt => ?_)
    · rw [h.visit_ord hnew hx, visit_ord_self hnew]
      exact h.ord_lt hx
    · rwa [h.visit_ord hnew ha, h.visit_ord hnew hb]

/-- The closed components after a new vertex was visited. -/
theorem enter_closed (h : Inv next s frames) (hnew : s.order w = none) :
    (∀ x, ((s.visit w).order x).isSome → x ∉ (s.visit w).stack → ∀ y ∈ next x,
      ((s.visit w).order y).isSome ∧ y ∉ (s.visit w).stack) ∧
      ∀ x, x ∈ (s.visit w).cyclic ↔
        ((s.visit w).order x).isSome ∧ x ∉ (s.visit w).stack ∧ OnCycle next x := by
  rw [visit_stack hnew, visit_cyclic]
  refine ⟨fun x hx hout y hy => ?_, fun x => ?_⟩
  · rw [List.mem_cons, not_or] at hout
    obtain ⟨hxw, hxout⟩ := hout
    have hxsome := ((isSome_visit s w x).mp hx).resolve_left hxw
    obtain ⟨hysome, hyout⟩ := h.closed x hxsome hxout y hy
    refine ⟨(isSome_visit s w y).mpr (.inr hysome), fun hmem => ?_⟩
    rcases List.mem_cons.mp hmem with rfl | hmem
    · rw [hnew] at hysome
      cases hysome
    · exact hyout hmem
  · rw [h.cyclic x, isSome_visit, List.mem_cons]
    by_cases hxw : x = w
    · rw [hxw, hnew]
      simp
    · simp [hxw]

/-- A new vertex on the stack above the frames. The frames may have looked at an edge to it. -/
theorem enter {before : List (ℕ × ℕ)} (h : Inv next s before) (hnew : s.order w = none)
    (hsame : frames.map Prod.fst = before.map Prod.fst)
    (hexamined : ∀ x y, Examined next frames x y → Examined next before x y ∨ y = w)
    (hreach : ∀ f ∈ before, Reaches next f.1 w) :
    Inv next (s.visit w) ((w, 0) :: frames) := by
  have hold {P : ℕ → Prop} {f : ℕ × ℕ} (hf : f ∈ frames) (hP : ∀ g ∈ before, P g.1) : P f.1 := by
    have hmem : f.1 ∈ before.map Prod.fst := hsame ▸ List.mem_map_of_mem hf
    obtain ⟨g, hg, heq⟩ := List.mem_map.mp hmem
    exact heq ▸ hP g hg
  have hframe {f : ℕ × ℕ} (hf : f ∈ frames) : f.1 ∈ s.stack := hold hf h.gray
  have hkeep {x : ℕ} (hx : x ∈ s.stack) : (s.visit w).ord x = s.ord x := h.visit_ord hnew hx
  have hlow {f : ℕ × ℕ} (hf : f ∈ frames) : (s.visit w).low f.1 = s.low f.1 := by
    have hne : f.1 ≠ w := fun heq => h.notMem_of_new hnew (heq ▸ hframe hf)
    rw [visit_low hnew, if_neg hne]
  have hunexamined (y : ℕ) : ¬ Examined next ((w, 0) :: frames) w y := fun hexam => by
    obtain ⟨i, hi, -⟩ := hexam.2 0 List.mem_cons_self
    omega
  have hmore {x y : ℕ} (hexam : Examined next ((w, 0) :: frames) x y) :
      Examined next before x y ∨ y = w :=
    hexamined x y ⟨hexam.1, fun k hk => hexam.2 k (List.mem_cons_of_mem _ hk)⟩
  obtain ⟨horderLt, horderInj, hsorted⟩ := h.enter_order hnew
  obtain ⟨hclosed, hcyclic⟩ := h.enter_closed hnew
  refine
    { order_lt := horderLt
      order_inj := horderInj
      onStack := fun x => ?_
      visited := fun x hx => ?_
      sorted := hsorted
      closed := hclosed
      cyclic := hcyclic
      gray := fun f hf => ?_
      path := ?_
      reaches := fun f hf x hx hle => ?_
      examined := fun x hx y hexam => ?_
      back := fun x hx => ?_
      low_le := fun f hf => ?_
      low_reached := fun f hf => ?_
      low_least := fun f hf x hx hle y hy hexam => ?_ }
  · rw [visit_onStack hnew, visit_stack hnew, List.mem_cons]
    split_ifs with hxw
    · simp [hxw]
    · simp [hxw, h.onStack x]
  · rw [isSome_visit]
    rw [visit_stack hnew] at hx
    exact (List.mem_cons.mp hx).imp_right (h.visited x)
  · rw [visit_stack hnew]
    rcases List.mem_cons.mp hf with rfl | hf
    · exact List.mem_cons_self
    · exact List.mem_cons_of_mem _ (hframe hf)
  · refine .cons (fun f hf => ?_) ?_
    · rw [hkeep (hframe hf), visit_ord_self hnew]
      exact h.ord_lt (hframe hf)
    · have hmap : (frames.map Prod.fst).Pairwise fun a b => s.ord b < s.ord a := by
        rw [hsame]
        exact List.pairwise_map.mpr h.path
      exact (List.pairwise_map.mp hmap).imp_of_mem fun ha hb hlt => by
        rwa [hkeep (hframe ha), hkeep (hframe hb)]
  · rw [visit_stack hnew] at hx
    rcases List.mem_cons.mp hf with rfl | hin
    · -- nothing on the stack has a greater number
      rcases List.mem_cons.mp hx with rfl | hx
      · exact .refl
      · rw [hkeep hx, visit_ord_self hnew] at hle
        exact absurd (h.ord_lt hx) (by omega)
    · rcases List.mem_cons.mp hx with rfl | hx
      · exact @hold (fun u => Reaches next u x) f hin hreach
      · rw [hkeep hx, hkeep (hframe hin)] at hle
        exact @hold (fun u => s.ord u ≤ s.ord x → Reaches next u x) f hin
          (fun g hg => h.reaches g hg x hx) hle
  · rw [isSome_visit]
    rw [visit_stack hnew] at hx
    rcases List.mem_cons.mp hx with rfl | hx
    · exact absurd hexam (hunexamined y)
    · rcases hmore hexam with hexam | rfl
      · exact .inr (h.examined x hx y hexam)
      · exact .inl rfl
  · rw [visit_stack hnew] at hx
    rcases List.mem_cons.mp hx with rfl | hx
    · exact ⟨(x, 0), List.mem_cons_self, le_rfl, .refl⟩
    · obtain ⟨g, hg, hle, hreaches⟩ := h.back x hx
      have hmem : g.1 ∈ frames.map Prod.fst := hsame ▸ List.mem_map_of_mem hg
      obtain ⟨f, hf, heq⟩ := List.mem_map.mp hmem
      refine ⟨f, List.mem_cons_of_mem _ hf, ?_, heq ▸ hreaches⟩
      rw [hkeep hx, hkeep (hframe hf), heq]
      exact hle
  · rcases List.mem_cons.mp hf with rfl | hf
    · rw [visit_low hnew, if_pos rfl, visit_ord_self hnew]
    · rw [hlow hf, hkeep (hframe hf)]
      exact @hold (fun u => s.low u ≤ s.ord u) f hf h.low_le
  · rw [visit_stack hnew]
    rcases List.mem_cons.mp hf with rfl | hf
    · refine ⟨w, List.mem_cons_self, ?_, .refl⟩
      rw [visit_ord_self hnew, visit_low hnew, if_pos rfl]
    · obtain ⟨x, hx, hord, hreaches⟩ := @hold
        (fun u => ∃ x ∈ s.stack, s.ord x = s.low u ∧ Reaches next u x) f hf h.low_reached
      refine ⟨x, List.mem_cons_of_mem _ hx, ?_, hreaches⟩
      rw [hkeep hx, hlow hf]
      exact hord
  · rw [visit_stack hnew] at hx hy
    rcases List.mem_cons.mp hx with rfl | hx
    · exact absurd hexam (hunexamined y)
    rw [hkeep hx] at hle
    rcases List.mem_cons.mp hf with rfl | hin
    · rw [visit_ord_self hnew] at hle
      exact absurd (h.ord_lt hx) (by omega)
    rw [hkeep (hframe hin)] at hle ⊢
    rcases hmore hexam with hexam | rfl
    · have hyw : y ≠ w := fun heq => by
        have hsome := h.examined x hx y hexam
        rw [heq, hnew] at hsome
        cases hsome
      have hy := (List.mem_cons.mp hy).resolve_left hyw
      obtain ⟨g, hg, hfg, hgy⟩ := @hold (fun u => s.ord u ≤ s.ord x →
        ∃ g ∈ before, s.ord u ≤ s.ord g.1 ∧ s.low g.1 ≤ s.ord y) f hin
        (fun g hg hle => h.low_least g hg x hx hle y hy hexam) hle
      have hmem : g.1 ∈ frames.map Prod.fst := hsame ▸ List.mem_map_of_mem hg
      obtain ⟨f', hf', heq⟩ := List.mem_map.mp hmem
      refine ⟨f', List.mem_cons_of_mem _ hf', ?_, ?_⟩
      · rw [hkeep (hframe hf'), heq]
        exact hfg
      · rw [hlow hf', hkeep hy, heq]
        exact hgy
    · -- the new vertex has the greatest number
      refine ⟨f, List.mem_cons_of_mem _ hin, by rw [hkeep (hframe hin)], ?_⟩
      rw [hlow hin, visit_ord_self hnew]
      have hlowLe := @hold (fun u => s.low u ≤ s.ord u) f hin h.low_le
      exact hlowLe.trans (h.ord_lt (hframe hin)).le

/-- **An edge to a new vertex.** -/
theorem push (h : Inv next s ((v, k) :: frames)) (hw : (next v)[k]? = some w)
    (hnew : s.order w = none) : Inv next (s.visit w) ((w, 0) :: (v, k + 1) :: frames) := by
  refine h.enter hnew rfl (fun x y hexam => (examined_top hw hexam).imp_right And.right)
    fun f hf => ?_
  have hpath := h.reaches f hf v (h.gray (v, k) List.mem_cons_self) (h.ord_le_top hf)
  exact hpath.tail (List.mem_of_getElem? hw)

/-- A search from a new vertex. -/
theorem start (h : Inv next s []) (hnew : s.order v = none) : Inv next (s.visit v) [(v, 0)] :=
  h.enter hnew rfl (fun _ _ => .inl) nofun

/-! ### The end of a frame -/

/-- Every edge above the top frame was looked at when the frame has no more edges. -/
theorem examined_above (h : Inv next s ((v, k) :: frames)) (hend : (next v)[k]? = none) {x : ℕ}
    (hx : x ∈ s.stack) (hle : s.ord v ≤ s.ord x) (hw : w ∈ next x) :
    Examined next ((v, k) :: frames) x w := by
  refine ⟨hw, fun j hj => ?_⟩
  have hgray := h.ord_le_top hj
  have hxv : x = v := h.ord_inj hx (h.gray (v, k) List.mem_cons_self) (le_antisymm hgray hle)
  obtain ⟨i, hi, hat⟩ := List.mem_iff_getElem.mp hw
  refine ⟨i, ?_, by rw [List.getElem?_eq_getElem hi, hat]⟩
  have hlength : (next v).length ≤ k := List.getElem?_eq_none_iff.mp hend
  rcases List.mem_cons.mp hj with heq | hj
  · obtain ⟨-, rfl⟩ := Prod.mk.inj heq
    rw [hxv] at hi
    omega
  · have hlt := (List.pairwise_cons.mp h.path).1 (x, j) hj
    rw [hxv] at hlt
    exact absurd hlt (lt_irrefl _)

/-- A frame below the top that is still there after the top is gone. -/
theorem examined_below (h : Inv next s ((v, k) :: frames)) (hend : (next v)[k]? = none) {x : ℕ}
    (hexam : Examined next frames x w) :
    Examined next ((v, k) :: frames) x w := by
  by_cases hxv : x = v
  · rw [hxv] at hexam ⊢
    exact h.examined_above hend (h.gray (v, k) List.mem_cons_self) le_rfl hexam.1
  · refine ⟨hexam.1, fun j hj => ?_⟩
    rcases List.mem_cons.mp hj with heq | hj
    · exact absurd (Prod.mk.inj heq).1 hxv
    · exact hexam.2 j hj

/-- The least number that is known above the top frame. -/
theorem low_le_of_edge (h : Inv next s ((v, k) :: frames)) (hend : (next v)[k]? = none) {x : ℕ}
    (hx : x ∈ s.stack) (hle : s.ord v ≤ s.ord x) (hw : w ∈ next x) (hstack : w ∈ s.stack) :
    s.low v ≤ s.ord w := by
  obtain ⟨g, hg, hvg, hgw⟩ := h.low_least (v, k) List.mem_cons_self x hx hle w hstack
    (h.examined_above hend hx hle hw)
  have hgv : g.1 = v := h.ord_inj (h.gray g hg) (h.gray (v, k) List.mem_cons_self)
    (le_antisymm (h.ord_le_top hg) hvg)
  rwa [hgv] at hgw

/-- The numbers that are known when the top frame is gone: the frame below has taken over its own. -/
theorem low_inherited (h : Inv next s ((v, k) :: frames)) {low : ℕ → ℕ}
    (hle : ∀ x, low x ≤ s.low x) (hparent : ∀ f ∈ frames.head?, low f.1 ≤ s.low v) {y : ℕ}
    {f : ℕ × ℕ} (hf : f ∈ frames)
    (hknown : ∃ g ∈ (v, k) :: frames, s.ord f.1 ≤ s.ord g.1 ∧ s.low g.1 ≤ s.ord y) :
    ∃ g ∈ frames, s.ord f.1 ≤ s.ord g.1 ∧ low g.1 ≤ s.ord y := by
  obtain ⟨g, hg, hfg, hgy⟩ := hknown
  rcases List.mem_cons.mp hg with rfl | hg
  · cases frames with
    | nil => cases hf
    | cons parent frames =>
      refine ⟨parent, List.mem_cons_self, ?_, (hparent parent rfl).trans hgy⟩
      rcases List.mem_cons.mp hf with rfl | hf
      · exact le_rfl
      · exact ((List.pairwise_cons.mp (List.pairwise_cons.mp h.path).2).1 f hf).le
  · exact ⟨g, hg, hfg, (hle g.1).trans hgy⟩

/-- **The top frame ends and its vertex stays on the stack**: it reaches a smaller number. -/
theorem leave (h : Inv next s ((v, k) :: frames)) (hend : (next v)[k]? = none)
    (hlt : s.low v < s.ord v) {low : ℕ → ℕ} (hle : ∀ x, low x ≤ s.low x)
    (hparent : ∀ f ∈ frames.head?, low f.1 ≤ s.low v)
    (hreached : ∀ f ∈ frames, ∃ x ∈ s.stack, s.ord x = low f.1 ∧ Reaches next f.1 x) :
    Inv next { s with low := low } frames where
  order_lt := h.order_lt
  order_inj := h.order_inj
  onStack := h.onStack
  visited := h.visited
  sorted := h.sorted
  closed := h.closed
  cyclic := h.cyclic
  gray := fun f hf => h.gray f (List.mem_cons_of_mem _ hf)
  path := (List.pairwise_cons.mp h.path).2
  reaches := fun f hf => h.reaches f (List.mem_cons_of_mem _ hf)
  examined := fun x hx y hexam => h.examined x hx y (h.examined_below hend hexam)
  back := fun x hx => by
    obtain ⟨g, hg, hgx, hreach⟩ := h.back x hx
    rcases List.mem_cons.mp hg with rfl | hg
    · -- from the top frame on to the vertex of its number, and from there back to the path
      obtain ⟨y, hy, hord, hvy⟩ := h.low_reached (v, k) List.mem_cons_self
      obtain ⟨f, hf, hfy, hyf⟩ := h.back y hy
      dsimp only at hgx hord
      refine ⟨f, ?_, ?_, (hreach.trans hvy).trans hyf⟩
      · refine (List.mem_cons.mp hf).resolve_left fun heq => ?_
        rw [heq] at hfy
        dsimp only at hfy
        omega
      · change s.ord f.1 ≤ s.ord x
        omega
    · exact ⟨g, hg, hgx, hreach⟩
  low_le := fun f hf => (hle f.1).trans (h.low_le f (List.mem_cons_of_mem _ hf))
  low_reached := hreached
  low_least := fun f hf x hx hfx y hy hexam => h.low_inherited hle hparent hf
    (h.low_least f (List.mem_cons_of_mem _ hf) x hx hfx y hy (h.examined_below hend hexam))

/-! ### A component -/

/-- A closed component is never left. -/
theorem closed_of_reaches (h : Inv next s frames) {x y : ℕ} (hx : (s.order x).isSome)
    (hout : x ∉ s.stack) (hreach : Reaches next x y) : (s.order y).isSome ∧ y ∉ s.stack := by
  induction hreach with
  | refl => exact ⟨hx, hout⟩
  | tail _ hedge ih => exact h.closed _ ih.1 ih.2 _ hedge

section Root

variable (h : Inv next s ((v, k) :: frames)) (hend : (next v)[k]? = none)
  (hroot : s.low v = s.ord v)
include h hend hroot

/-- From above a root one stays above it, or comes to a closed component. -/
theorem above_of_reaches {x y : ℕ} (hx : x ∈ s.stack) (hle : s.ord v ≤ s.ord x)
    (hreach : Reaches next x y) :
    (y ∈ s.stack ∧ s.ord v ≤ s.ord y) ∨ ((s.order y).isSome ∧ y ∉ s.stack) := by
  induction hreach with
  | refl => exact .inl ⟨hx, hle⟩
  | @tail y z _ hedge ih =>
    rcases ih with ⟨hy, hley⟩ | ⟨hsome, hout⟩
    · by_cases hz : z ∈ s.stack
      · exact .inl ⟨hz, hroot ▸ h.low_le_of_edge hend hy hley hedge hz⟩
      · exact .inr ⟨h.examined y hy z (h.examined_above hend hy hley hedge), hz⟩
    · exact .inr (h.closed y hsome hout z hedge)

/-- Everything above a root leads back to it. -/
theorem reaches_root {x : ℕ} (hx : x ∈ s.stack) (hle : s.ord v ≤ s.ord x) : Reaches next x v := by
  obtain ⟨g, hg, -, hreach⟩ := h.back x hx
  rcases h.above_of_reaches hend hroot hx hle hreach with ⟨hmem, hvg⟩ | ⟨-, hout⟩
  · have hgv : g.1 = v := h.ord_inj hmem (h.gray (v, k) List.mem_cons_self)
      (le_antisymm (h.ord_le_top hg) hvg)
    rwa [hgv] at hreach
  · exact absurd (h.gray g hg) hout

theorem onCycle_of_other {x y : ℕ} (hx : x ∈ s.stack) (hlex : s.ord v ≤ s.ord x) (hy : y ∈ s.stack)
    (hley : s.ord v ≤ s.ord y) (hne : x ≠ y) : OnCycle next x := by
  have hroots := h.reaches (v, k) List.mem_cons_self
  have hxy : Reaches next x y := (h.reaches_root hend hroot hx hlex).trans (hroots y hy hley)
  have hyx : Reaches next y x := (h.reaches_root hend hroot hy hley).trans (hroots x hx hlex)
  rcases Relation.ReflTransGen.cases_head hxy with heq | ⟨w, hedge, hwy⟩
  · exact absurd heq hne
  · exact ⟨w, hedge, hwy.trans hyx⟩

/-- **A component has a cycle** when it has a second vertex, or its root an edge to itself. -/
theorem onCycle_iff {x : ℕ} (hx : x ∈ s.stack) (hle : s.ord v ≤ s.ord x) :
    OnCycle next x ↔ (∃ y ∈ s.stack, s.ord v ≤ s.ord y ∧ y ≠ v) ∨ v ∈ next v := by
  have hv : v ∈ s.stack := h.gray (v, k) List.mem_cons_self
  constructor
  · rintro ⟨w, hedge, hback⟩
    by_cases hother : ∃ y ∈ s.stack, s.ord v ≤ s.ord y ∧ y ≠ v
    · exact .inl hother
    · have honly {y : ℕ} (hy : y ∈ s.stack) (hley : s.ord v ≤ s.ord y) : y = v := by
        by_contra hne
        exact hother ⟨y, hy, hley, hne⟩
      obtain rfl := honly hx hle
      refine .inr ?_
      rcases h.above_of_reaches hend hroot hx hle (Relation.ReflTransGen.single hedge) with
        ⟨hw, hlew⟩ | ⟨hsome, hout⟩
      · rwa [honly hw hlew] at hedge
      · exact absurd hx (h.closed_of_reaches hsome hout hback).2
  · rintro (⟨y, hy, hley, hne⟩ | hself)
    · by_cases hxv : x = v
      · rw [hxv]
        exact h.onCycle_of_other hend hroot hv le_rfl hy hley (Ne.symm hne)
      · exact h.onCycle_of_other hend hroot hx hle hv le_rfl hxv
    · by_cases hxv : x = v
      · rw [hxv]
        exact ⟨v, hself, .refl⟩
      · exact h.onCycle_of_other hend hroot hx hle hv le_rfl hxv

end Root

end Inv

/-! ### Popping a component -/

theorem mem_popTo {ord : ℕ → ℕ} {stack : List ℕ}
    (hsorted : stack.Pairwise fun a b => ord b < ord a) (hv : v ∈ stack) (x : ℕ) :
    (x ∈ (popTo v stack).1 ↔ x ∈ stack ∧ ord v ≤ ord x) ∧
      (x ∈ (popTo v stack).2 ↔ x ∈ stack ∧ ord x < ord v) := by
  induction stack with
  | nil => cases hv
  | cons a stack ih =>
    obtain ⟨habove, hsorted⟩ := List.pairwise_cons.mp hsorted
    rw [popTo]
    split_ifs with hav
    · subst hav
      refine ⟨⟨?_, ?_⟩, ⟨fun hx => ⟨List.mem_cons_of_mem _ hx, habove x hx⟩, ?_⟩⟩
      · intro hx
        rw [List.mem_singleton.mp hx]
        exact ⟨List.mem_cons_self, le_rfl⟩
      · rintro ⟨hx, hle⟩
        rcases List.mem_cons.mp hx with rfl | hx
        · exact List.mem_singleton_self _
        · exact absurd (habove x hx) (by omega)
      · rintro ⟨hx, hlt⟩
        refine (List.mem_cons.mp hx).resolve_left fun heq => ?_
        rw [heq] at hlt
        omega
    · have hv : v ∈ stack := (List.mem_cons.mp hv).resolve_left (Ne.symm hav)
      obtain ⟨hin, hleft⟩ := ih hsorted hv
      have hva := habove v hv
      refine ⟨?_, ?_⟩
      · rw [List.mem_cons, List.mem_cons, hin]
        constructor
        · rintro (rfl | ⟨hx, hle⟩)
          · exact ⟨.inl rfl, hva.le⟩
          · exact ⟨.inr hx, hle⟩
        · rintro ⟨rfl | hx, hle⟩
          · exact .inl rfl
          · exact .inr ⟨hx, hle⟩
      · rw [List.mem_cons, hleft]
        constructor
        · rintro ⟨hx, hlt⟩
          exact ⟨.inr hx, hlt⟩
        · rintro ⟨rfl | hx, hlt⟩
          · omega
          · exact ⟨hx, hlt⟩

theorem popTo_sublist (stack : List ℕ) : (popTo v stack).2.Sublist stack := by
  induction stack with
  | nil => exact .slnil
  | cons a stack ih =>
    rw [popTo]
    split_ifs
    · exact List.sublist_cons_self _ _
    · exact ih.cons a

/-- More than one vertex is popped when one of them is not the last. -/
theorem one_lt_popTo {stack : List ℕ} (hv : v ∈ stack) :
    1 < (popTo v stack).1.length ↔ ∃ x ∈ (popTo v stack).1, x ≠ v := by
  induction stack with
  | nil => cases hv
  | cons a stack ih =>
    rw [popTo]
    split_ifs with hav
    · simp [hav]
    · have hv : v ∈ stack := (List.mem_cons.mp hv).resolve_left (Ne.symm hav)
      refine ⟨fun _ => ⟨a, List.mem_cons_self, hav⟩, fun _ => ?_⟩
      rw [List.length_cons]
      cases stack with
      | nil => cases hv
      | cons b stack =>
        rw [popTo]
        split_ifs <;> simp

namespace Inv

/-- What the search collects with the component of a root. -/
theorem cyclic_close (h : Inv next s ((v, k) :: frames)) (hend : (next v)[k]? = none)
    (hroot : s.low v = s.ord v) (x : ℕ) :
    (x ∈ if 1 < (popTo v s.stack).1.length ∨ v ∈ next v
      then s.cyclic ∪ (popTo v s.stack).1.toFinset else s.cyclic) ↔
      (s.order x).isSome ∧ x ∉ (popTo v s.stack).2 ∧ OnCycle next x := by
  have hv : v ∈ s.stack := h.gray (v, k) List.mem_cons_self
  have hpop := mem_popTo h.sorted hv
  have hcycle : (1 < (popTo v s.stack).1.length ∨ v ∈ next v) ↔
      (∃ y ∈ s.stack, s.ord v ≤ s.ord y ∧ y ≠ v) ∨ v ∈ next v := by
    refine or_congr_left ((one_lt_popTo hv).trans ?_)
    simp only [(hpop _).1, and_assoc]
  by_cases hx : x ∈ s.stack
  · have hcyclic : x ∉ s.cyclic := fun hmem => ((h.cyclic x).mp hmem).2.1 hx
    have hvisited := h.visited x hx
    rw [(hpop x).2]
    by_cases hle : s.ord v ≤ s.ord x
    · have honCycle := h.onCycle_iff hend hroot hx hle
      have hnot : ¬ (x ∈ s.stack ∧ s.ord x < s.ord v) := fun hmem => by omega
      split_ifs with hcond
      · rw [Finset.mem_union, List.mem_toFinset, (hpop x).1]
        exact ⟨fun _ => ⟨hvisited, hnot, honCycle.mpr (hcycle.mp hcond)⟩,
          fun _ => .inr ⟨hx, hle⟩⟩
      · exact ⟨fun hmem => absurd hmem hcyclic,
          fun hmem => absurd (hcycle.mpr (honCycle.mp hmem.2.2)) hcond⟩
    · have hin : x ∈ s.stack ∧ s.ord x < s.ord v := ⟨hx, by omega⟩
      refine ⟨fun hmem => ?_, fun hmem => absurd hin hmem.2.1⟩
      split_ifs at hmem
      · rw [Finset.mem_union, List.mem_toFinset, (hpop x).1] at hmem
        exact hmem.elim (fun hc => absurd hc hcyclic) fun hc => absurd hc.2 hle
      · exact absurd hmem hcyclic
  · have hmem : (x ∈ if 1 < (popTo v s.stack).1.length ∨ v ∈ next v
        then s.cyclic ∪ (popTo v s.stack).1.toFinset else s.cyclic) ↔ x ∈ s.cyclic := by
      split_ifs
      · rw [Finset.mem_union, List.mem_toFinset, (hpop x).1]
        exact or_iff_left fun hc => hx hc.1
      · exact Iff.rfl
    rw [hmem, h.cyclic x, (hpop x).2]
    simp [hx]

/-- **The top frame ends as a root**: its component is closed. -/
theorem finish (h : Inv next s ((v, k) :: frames)) (hend : (next v)[k]? = none)
    (hroot : s.low v = s.ord v) {low : ℕ → ℕ} (hle : ∀ x, low x ≤ s.low x)
    (hparent : ∀ f ∈ frames.head?, low f.1 ≤ s.low v)
    (hreached : ∀ f ∈ frames, ∃ x ∈ s.stack, s.ord x = low f.1 ∧ Reaches next f.1 x) :
    Inv next { s with
      low := low
      onStack := fun w => s.onStack w && ! decide (w ∈ (popTo v s.stack).1)
      stack := (popTo v s.stack).2
      cyclic := if 1 < (popTo v s.stack).1.length ∨ v ∈ next v
        then s.cyclic ∪ (popTo v s.stack).1.toFinset else s.cyclic } frames := by
  have hv : v ∈ s.stack := h.gray (v, k) List.mem_cons_self
  have hpop := mem_popTo h.sorted hv
  have hbelow {x : ℕ} (hx : x ∈ (popTo v s.stack).2) : x ∈ s.stack ∧ s.ord x < s.ord v :=
    (hpop x).2.mp hx
  have hframe {f : ℕ × ℕ} (hf : f ∈ frames) : s.ord f.1 < s.ord v :=
    (List.pairwise_cons.mp h.path).1 f hf
  refine
    { order_lt := h.order_lt
      order_inj := h.order_inj
      onStack := fun x => ?_
      visited := fun x hx => h.visited x (hbelow hx).1
      sorted := h.sorted.sublist (popTo_sublist _)
      closed := fun x hx hout y hy => ?_
      cyclic := h.cyclic_close hend hroot
      gray := fun f hf => (hpop f.1).2.mpr ⟨h.gray f (List.mem_cons_of_mem _ hf), hframe hf⟩
      path := (List.pairwise_cons.mp h.path).2
      reaches := fun f hf x hx => h.reaches f (List.mem_cons_of_mem _ hf) x (hbelow hx).1
      examined := fun x hx y hexam =>
        h.examined x (hbelow hx).1 y (h.examined_below hend hexam)
      back := fun x hx => ?_
      low_le := fun f hf => (hle f.1).trans (h.low_le f (List.mem_cons_of_mem _ hf))
      low_reached := fun f hf => ?_
      low_least := fun f hf x hx hfx y hy hexam => h.low_inherited hle hparent hf
        (h.low_least f (List.mem_cons_of_mem _ hf) x (hbelow hx).1 hfx y (hbelow hy).1
          (h.examined_below hend hexam)) }
  · rw [Bool.and_eq_true, h.onStack x, (hpop x).2, Bool.not_eq_true', decide_eq_false_iff_not,
      (hpop x).1]
    constructor
    · rintro ⟨hx, hnot⟩
      exact ⟨hx, lt_of_not_ge fun hge => hnot ⟨hx, hge⟩⟩
    · rintro ⟨hx, hlt⟩
      exact ⟨hx, fun hmem => by omega⟩
  · by_cases hx' : x ∈ s.stack
    · have hlex : s.ord v ≤ s.ord x := by
        by_contra hlt
        exact hout ((hpop x).2.mpr ⟨hx', by omega⟩)
      rcases h.above_of_reaches hend hroot hx' hlex (Relation.ReflTransGen.single hy) with
        ⟨hy', hley⟩ | ⟨hsome, hy'⟩
      · exact ⟨h.visited y hy', fun hmem => by have := (hbelow hmem).2; omega⟩
      · exact ⟨hsome, fun hmem => hy' (hbelow hmem).1⟩
    · obtain ⟨hsome, hy'⟩ := h.closed x hx hx' y hy
      exact ⟨hsome, fun hmem => hy' (hbelow hmem).1⟩
  · obtain ⟨hx', hlt⟩ := hbelow hx
    obtain ⟨g, hg, hgx, hreach⟩ := h.back x hx'
    refine ⟨g, (List.mem_cons.mp hg).resolve_left fun heq => ?_, hgx, hreach⟩
    rw [heq] at hgx
    dsimp only at hgx
    omega
  · obtain ⟨x, hx, hord, hreach⟩ := hreached f hf
    refine ⟨x, (hpop x).2.mpr ⟨hx, ?_⟩, hord, hreach⟩
    have hlow := (hle f.1).trans (h.low_le f (List.mem_cons_of_mem _ hf))
    have hlt := hframe hf
    omega

/-- **The end of a frame**, with the numbers that the frame below takes over. -/
theorem close (h : Inv next s ((v, k) :: frames)) (hend : (next v)[k]? = none) {low : ℕ → ℕ}
    (hle : ∀ x, low x ≤ s.low x) (hsame : low v = s.low v)
    (hparent : ∀ f ∈ frames.head?, low f.1 ≤ s.low v)
    (hreached : ∀ f ∈ frames, ∃ x ∈ s.stack, s.ord x = low f.1 ∧ Reaches next f.1 x) :
    Inv next (Search.close next { s with low := low } v) frames := by
  have hv : v ∈ s.stack := h.gray (v, k) List.mem_cons_self
  obtain ⟨i, hi⟩ := Option.isSome_iff_exists.mp (h.visited v hv)
  have hord : s.ord v = i := by
    rw [ord, hi]
    rfl
  have hcond : s.order v = some (low v) ↔ s.low v = s.ord v := by
    rw [hsame, hi, hord, Option.some_inj, eq_comm]
  unfold Search.close
  split_ifs with hroot
  · exact h.finish hend (hcond.mp hroot) hle hparent hreached
  · have hlowLe := h.low_le (v, k) List.mem_cons_self
    exact h.leave hend (lt_of_le_of_ne hlowLe fun heq => hroot (hcond.mpr heq)) hle hparent hreached

/-- **The last turn of a frame.** -/
theorem pop (h : Inv next s ((v, k) :: frames)) (hend : (next v)[k]? = none) :
    Inv next (match frames with
      | [] => s.close next v
      | (parent, _) :: _ => (s.lower parent (s.low v)).close next v) frames := by
  cases frames with
  | nil => exact h.close hend (fun _ => le_rfl) rfl nofun nofun
  | cons f frames =>
    obtain ⟨parent, j⟩ := f
    have hparent : (parent, j) ∈ (v, k) :: (parent, j) :: frames :=
      List.mem_cons_of_mem _ List.mem_cons_self
    have hlt : s.ord parent < s.ord v :=
      (List.pairwise_cons.mp h.path).1 (parent, j) List.mem_cons_self
    have hne : v ≠ parent := fun heq => by
      rw [heq] at hlt
      exact lt_irrefl _ hlt
    refine h.close hend (fun x => ?_) (Function.update_of_ne hne _ _) (fun f hf => ?_)
      fun f hf => ?_
    · by_cases hx : x = parent
      · rw [hx, Function.update_self]
        exact min_le_left _ _
      · rw [Function.update_of_ne hx]
    · obtain rfl := Option.some.inj hf
      rw [Function.update_self]
      exact min_le_right _ _
    · by_cases hfp : f.1 = parent
      · rw [hfp, Function.update_self]
        rcases le_total (s.low parent) (s.low v) with hle | hle
        · rw [min_eq_left hle]
          exact h.low_reached (parent, j) hparent
        · rw [min_eq_right hle]
          obtain ⟨x, hx, hord, hreach⟩ := h.low_reached (v, k) List.mem_cons_self
          refine ⟨x, hx, hord, Relation.ReflTransGen.trans ?_ hreach⟩
          exact h.reaches (parent, j) hparent v (h.gray (v, k) List.mem_cons_self) hlt.le
      · rw [Function.update_of_ne hfp]
        exact h.low_reached f (List.mem_cons_of_mem _ hf)

end Inv

/-! ## Turns -/

/-- What holds between turns: the top frame may not be visited yet. -/
def Between (next : ℕ → List ℕ) (s : Search) (frames : List (ℕ × ℕ)) : Prop :=
  Inv next (frames.head?.elim s fun f => s.visit f.1) frames

/-- The vertices that are neither visited nor on the path. -/
def unseen (n : ℕ) (s : Search) (frames : List (ℕ × ℕ)) : Finset ℕ :=
  (Finset.range n).filter fun v => s.order v = none ∧ v ∉ frames.map Prod.fst

/-- The turns that are left. -/
def turnsLeft (next : ℕ → List ℕ) (n : ℕ) (s : Search) (frames : List (ℕ × ℕ)) : ℕ :=
  ∑ v ∈ unseen n s frames, ((next v).length + 1) +
    (frames.map fun f => (next f.1).length - f.2 + 1).sum

theorem between_of_inv (h : Inv next s frames) : Between next s frames := by
  unfold Between
  cases frames with
  | nil => exact h
  | cons f frames =>
    have hvisited := h.visited f.1 (h.gray f List.mem_cons_self)
    rw [List.head?_cons, Option.elim_some, visit_of_visited hvisited]
    exact h

/-- **One turn.** -/
theorem Between.turn (h : Between next s ((v, k) :: frames)) :
    Between next (s.turn next ((v, k) :: frames)).1 (s.turn next ((v, k) :: frames)).2 := by
  change Inv next (s.visit v) ((v, k) :: frames) at h
  unfold Search.turn
  dsimp only
  cases hw : (next v)[k]? with
  | some w =>
    dsimp only
    cases hi : (s.visit v).order w with
    | none => exact h.push hw hi
    | some i => exact between_of_inv (h.examine hw hi)
  | none =>
    cases frames with
    | nil => exact between_of_inv (h.pop hw)
    | cons f frames => exact between_of_inv (h.pop hw)

theorem turn_order (s : Search) (v k : ℕ) (frames : List (ℕ × ℕ)) :
    (s.turn next ((v, k) :: frames)).1.order = (s.visit v).order := by
  have hclose (s : Search) : (s.close next v).order = s.order := by
    unfold close
    split_ifs
    · rfl
    · rfl
  unfold turn
  dsimp only
  cases (next v)[k]? with
  | some w =>
    dsimp only
    cases (s.visit v).order w with
    | none => rfl
    | some i =>
      dsimp only
      split_ifs
      · rfl
      · rfl
  | none =>
    cases frames with
    | nil => exact hclose _
    | cons f frames => exact hclose _

/-- What a turn does to the frames. -/
theorem turn_frames (s : Search) (v k : ℕ) (frames : List (ℕ × ℕ)) :
    (∃ w, (next v)[k]? = some w ∧ (s.visit v).order w = none ∧
      (s.turn next ((v, k) :: frames)).2 = (w, 0) :: (v, k + 1) :: frames) ∨
      (k < (next v).length ∧ (s.turn next ((v, k) :: frames)).2 = (v, k + 1) :: frames) ∨
      (s.turn next ((v, k) :: frames)).2 = frames := by
  unfold turn
  dsimp only
  cases hw : (next v)[k]? with
  | some w =>
    dsimp only
    cases hi : (s.visit v).order w with
    | none => exact .inl ⟨w, rfl, hi, rfl⟩
    | some i => exact .inr (.inl ⟨(List.getElem?_eq_some_iff.mp hw).1, rfl⟩)
  | none =>
    cases frames with
    | nil => exact .inr (.inr rfl)
    | cons f frames => exact .inr (.inr rfl)

/-- A vertex that is visited or on the path stays so, and the frames of a turn are visited. -/
theorem unseen_iff {n x : ℕ} (h : Inv next (s.visit v) ((v, k) :: frames)) :
    x ∈ unseen n s ((v, k) :: frames) ↔ x < n ∧ (s.visit v).order x = none := by
  have hvisit : (s.visit v).order x = none ↔ ¬ (x = v ∨ (s.order x).isSome) := by
    rw [← isSome_visit, Option.not_isSome_iff_eq_none]
  rw [unseen, Finset.mem_filter, Finset.mem_range]
  refine and_congr_right fun _ => ?_
  constructor
  · rintro ⟨hnone, hframes⟩
    rw [hvisit]
    rintro (rfl | hsome)
    · exact hframes List.mem_cons_self
    · rw [hnone] at hsome
      cases hsome
  · intro hnone
    refine ⟨?_, fun hmem => ?_⟩
    · exact Option.not_isSome_iff_eq_none.mp fun hsome => (hvisit.mp hnone) (.inr hsome)
    · obtain ⟨f, hf, rfl⟩ := List.mem_map.mp hmem
      have hsome := h.visited f.1 (h.gray f hf)
      rw [hnone] at hsome
      cases hsome

theorem unseen_turn_subset {n : ℕ} (h : Inv next (s.visit v) ((v, k) :: frames)) :
    unseen n (s.turn next ((v, k) :: frames)).1 (s.turn next ((v, k) :: frames)).2 ⊆
      unseen n s ((v, k) :: frames) := by
  intro x hx
  rw [unseen, Finset.mem_filter, Finset.mem_range, turn_order] at hx
  exact (unseen_iff h).mpr ⟨hx.1, hx.2.1⟩

section Bounded

variable {n : ℕ} (hnext : ∀ v, ∀ w ∈ next v, w < n)
include hnext

/-- **Every turn is one of the turns that are left.** -/
theorem turnsLeft_turn (h : Between next s ((v, k) :: frames)) :
    turnsLeft next n (s.turn next ((v, k) :: frames)).1 (s.turn next ((v, k) :: frames)).2 <
      turnsLeft next n s ((v, k) :: frames) := by
  change Inv next (s.visit v) ((v, k) :: frames) at h
  have hsubset := @unseen_turn_subset next s frames v k n h
  have hsum := Finset.sum_le_sum_of_subset (f := fun v => (next v).length + 1) hsubset
  rw [turnsLeft, turnsLeft]
  rcases @turn_frames next s v k frames with ⟨w, hw, hnew, hframes⟩ | ⟨hk, hframes⟩ | hframes
  · -- the new vertex moves from the unseen ones to the frames
    have hk := (List.getElem?_eq_some_iff.mp hw).1
    have hmem : w ∈ unseen n s ((v, k) :: frames) :=
      (unseen_iff h).mpr ⟨hnext v w (List.mem_of_getElem? hw), hnew⟩
    have hnotMem : w ∉ unseen n (s.turn next ((v, k) :: frames)).1
        (s.turn next ((v, k) :: frames)).2 := by
      rw [hframes, unseen, Finset.mem_filter]
      exact fun hunseen => hunseen.2.2 List.mem_cons_self
    have hinsert := Finset.sum_le_sum_of_subset (f := fun v => (next v).length + 1)
      (Finset.insert_subset hmem hsubset)
    rw [Finset.sum_insert hnotMem] at hinsert
    rw [hframes] at hinsert ⊢
    simp only [List.map_cons, List.sum_cons]
    omega
  · rw [hframes] at hsum ⊢
    simp only [List.map_cons, List.sum_cons]
    omega
  · rw [hframes] at hsum ⊢
    simp only [List.map_cons, List.sum_cons]
    omega

/-- **The turns end**, and the path is then empty. -/
theorem search_inv (fuel : ℕ) (s : Search) (frames : List (ℕ × ℕ)) (h : Between next s frames)
    (hfuel : turnsLeft next n s frames ≤ fuel) :
    Inv next (search next fuel s frames).1 [] := by
  induction fuel generalizing s frames with
  | zero =>
    cases frames with
    | nil => exact h
    | cons f frames =>
      rw [turnsLeft, List.map_cons, List.sum_cons] at hfuel
      omega
  | succ fuel ih =>
    cases frames with
    | nil => exact h
    | cons f frames =>
      obtain ⟨v, k⟩ := f
      have hless := turnsLeft_turn hnext h
      exact ih _ _ h.turn (by omega)

end Bounded

/-- What was visited stays visited, and the start of a search is visited. -/
theorem search_visited (fuel : ℕ) (s : Search) (frames : List (ℕ × ℕ)) {x : ℕ}
    (h : (s.order x).isSome ∨ 0 < fuel ∧ ∃ k rest, frames = (x, k) :: rest) :
    ((search next fuel s frames).1.order x).isSome := by
  induction fuel generalizing s frames with
  | zero =>
    rcases h with h | ⟨h, -⟩
    · exact h
    · cases h
  | succ fuel ih =>
    cases frames with
    | nil =>
      rcases h with h | ⟨-, k, rest, heq⟩
      · exact h
      · cases heq
    | cons f frames =>
      obtain ⟨v, k⟩ := f
      refine ih _ _ (.inl ?_)
      rw [turn_order, isSome_visit]
      rcases h with h | ⟨-, k, rest, heq⟩
      · exact .inr h
      · exact .inl (Prod.mk.inj (List.cons.inj heq).1).1.symm

theorem inv_init (next : ℕ → List ℕ) : Inv next init [] where
  order_lt := nofun
  order_inj := nofun
  onStack := fun _ => ⟨nofun, nofun⟩
  visited := nofun
  sorted := .nil
  closed := nofun
  cyclic := fun _ => ⟨nofun, fun h => nomatch h.1⟩
  gray := nofun
  path := .nil
  reaches := nofun
  examined := nofun
  back := nofun
  low_le := nofun
  low_reached := nofun
  low_least := nofun

theorem turnsLeft_start {n start : ℕ} (hstart : start < n) :
    turnsLeft next n s [(start, 0)] ≤ searchTurns next n := by
  have hnotMem : start ∉ unseen n s [(start, 0)] := by
    rw [unseen, Finset.mem_filter]
    exact fun hunseen => hunseen.2.2 List.mem_cons_self
  have hsubset : insert start (unseen n s [(start, 0)]) ⊆ Finset.range n :=
    Finset.insert_subset (Finset.mem_range.mpr hstart) (Finset.filter_subset _ _)
  have hsum := Finset.sum_le_sum_of_subset (f := fun v => (next v).length + 1) hsubset
  rw [Finset.sum_insert hnotMem] at hsum
  rw [turnsLeft, searchTurns, List.map_singleton, List.sum_singleton]
  dsimp only
  omega

/-- **All searches**: every vertex is visited, and no component is left open. -/
theorem searchAll_inv {n : ℕ} (hnext : ∀ v, ∀ w ∈ next v, w < n) :
    Inv next (searchAll next n) [] ∧ ∀ v < n, ((searchAll next n).order v).isSome := by
  have hfold (starts : List ℕ) (hstarts : ∀ v ∈ starts, v < n) (s : Search) (h : Inv next s []) :
      let s' := starts.foldl (fun s start => if (s.order start).isSome then s
        else (search next (searchTurns next n) s [(start, 0)]).1) s
      Inv next s' [] ∧ ∀ v, (s.order v).isSome ∨ v ∈ starts → (s'.order v).isSome := by
    induction starts generalizing s with
    | nil => exact ⟨h, fun v hv => hv.resolve_right List.not_mem_nil⟩
    | cons start starts ih =>
      have hstart := hstarts start List.mem_cons_self
      have hlater := fun v hv => hstarts v (List.mem_cons_of_mem _ hv)
      rw [List.foldl_cons]
      split_ifs with hvisited
      · obtain ⟨hinv, hall⟩ := ih hlater s h
        refine ⟨hinv, fun v hv => hall v ?_⟩
        rcases hv with hv | hv
        · exact .inl hv
        · rcases List.mem_cons.mp hv with rfl | hv
          · exact .inl hvisited
          · exact .inr hv
      · have hnew : s.order start = none := Option.not_isSome_iff_eq_none.mp hvisited
        have hleft : turnsLeft next n s [(start, 0)] ≤ searchTurns next n := turnsLeft_start hstart
        have hpos : 0 < searchTurns next n := by
          refine lt_of_lt_of_le ?_ hleft
          rw [turnsLeft, List.map_singleton, List.sum_singleton]
          omega
        obtain ⟨hinv, hall⟩ := ih hlater _ (search_inv hnext _ s [(start, 0)] (h.start hnew) hleft)
        refine ⟨hinv, fun v hv => hall v ?_⟩
        rcases hv with hv | hv
        · exact .inl (search_visited _ _ _ (.inl hv))
        · rcases List.mem_cons.mp hv with rfl | hv
          · exact .inl (search_visited _ _ _ (.inr ⟨hpos, 0, [], rfl⟩))
          · exact .inr hv
  obtain ⟨hinv, hall⟩ := hfold (List.range n) (fun v hv => List.mem_range.mp hv) init
    (inv_init next)
  exact ⟨hinv, fun v hv => hall v (.inr (List.mem_range.mpr hv))⟩

end Search

/-- **The search finds exactly the vertices on a cycle.** -/
theorem mem_cyclicVertices {next : ℕ → List ℕ} {n v : ℕ} (hnext : ∀ v, ∀ w ∈ next v, w < n)
    (hv : v < n) : v ∈ cyclicVertices next n ↔ OnCycle next v := by
  obtain ⟨hinv, hvisited⟩ := Search.searchAll_inv hnext
  have hempty : v ∉ (Search.searchAll next n).stack := fun hmem => by
    obtain ⟨f, hf, -⟩ := hinv.back v hmem
    cases hf
  rw [cyclicVertices, hinv.cyclic v]
  exact ⟨fun h => h.2.2, fun h => ⟨hvisited v hv, hempty, h⟩⟩

end Harvest.Lib
