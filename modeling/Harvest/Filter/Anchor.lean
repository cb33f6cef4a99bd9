import Harvest.Event
import Harvest.Filter.Number

/-!
# The index rule of filters

A filter joins predicates with `AND` and `OR`. A request holds several filters, and a run is listed
when it matches all of them. An `OR` that no index serves would scan the whole table, so a request
with an `OR` is refused unless each row that it matches is found through an index.

Proved here:
* `checkAnchor_exact`: the rule refuses exactly the requests with an `OR` that some row can match
  without an indexed predicate.
-/

namespace Harvest.Filter

/-! ## Filters -/

inductive CmpOp
  | gt
  | gte
  | lt
  | lte
deriving DecidableEq, Repr

/-- A predicate on an attribute. The value of a comparison is the text of its number. -/
inductive SearchAttrPredicate
  | eq (key : Text) (value : JsonText)
  | ne (key : Text) (value : JsonText)
  | cmp (key : Text) (op : CmpOp) (value : Text)
  | isIn (key : Text) (values : List JsonText)
  | hasKey (key : Text)
deriving DecidableEq, Repr

inductive SystemField
  | state
  | workflowName
  | workflowId
  | owner
  | severity
  | startedAt
deriving DecidableEq, Repr

inductive SystemTest
  | eq (value : Text)
  | ne (value : Text)
  | isIn (values : List Text)
  | cmp (op : CmpOp) (time : DateTime)
deriving DecidableEq, Repr

inductive Leaf
  | attr (predicate : SearchAttrPredicate)
  | system (field : SystemField) (test : SystemTest)
deriving DecidableEq, Repr

inductive Expr
  | and (children : List Expr)
  | or (children : List Expr)
  | leaf (leaf : Leaf)

/-- Induction over the nodes of a filter. -/
theorem Expr.induct {P : Expr → Prop}
    (hand : ∀ children, (∀ child ∈ children, P child) → P (.and children))
    (hor : ∀ children, (∀ child ∈ children, P child) → P (.or children))
    (hleaf : ∀ leaf, P (.leaf leaf)) (expr : Expr) : P expr := by
  refine @Expr.rec P (fun children => ∀ child ∈ children, P child) hand hor hleaf ?_ ?_ expr
  · exact fun _ h => absurd h List.not_mem_nil
  · intro child children hchild hchildren other hother
    rcases List.mem_cons.mp hother with rfl | hmem
    · exact hchild
    · exact hchildren other hmem

/-! ## The rule -/

mutual

/-- Whether the filter holds an `OR`. -/
def hasOr : Expr → Bool
  | .leaf _ => false
  | .or _ => true
  | .and children => anyHasOr children

def anyHasOr : List Expr → Bool
  | [] => false
  | child :: children => hasOr child || anyHasOr children

end

/-- The predicates that an index serves. -/
def Leaf.isIndexed : Leaf → Bool
  | .attr _ => true
  | .system field test =>
    field == .workflowName && match test with
      | .eq _ => true
      | .isIn _ => true
      | _ => false

mutual

/-- Whether each row that the filter matches is found through an index. -/
def anchored : Expr → Bool
  | .leaf leaf => leaf.isIndexed
  | .and children => anyAnchored children
  | .or children => allAnchored children

def anyAnchored : List Expr → Bool
  | [] => false
  | child :: children => anchored child || anyAnchored children

def allAnchored : List Expr → Bool
  | [] => true
  | child :: children => anchored child && allAnchored children

end

/-- The index rule on all filters of a request. -/
def checkAnchor (exprs : List Expr) : Except String Unit :=
  if hasOr (.and exprs) && ! anchored (.and exprs) then
    .error ("a filter with OR needs an indexed predicate on each OR branch, " ++
      "or on the whole filter: an attrs.* predicate, or workflow_name with = or IN")
  else .ok ()

/-! ## Rows -/

mutual

/-- Whether a row matches, when it is known which predicates it satisfies. -/
def Expr.holds (row : Leaf → Bool) : Expr → Bool
  | .leaf leaf => row leaf
  | .and children => allHold row children
  | .or children => anyHolds row children

def allHold (row : Leaf → Bool) : List Expr → Bool
  | [] => true
  | child :: children => child.holds row && allHold row children

def anyHolds (row : Leaf → Bool) : List Expr → Bool
  | [] => false
  | child :: children => child.holds row || anyHolds row children

end

mutual

def Expr.leaves : Expr → List Leaf
  | .leaf leaf => [leaf]
  | .and children => leavesOf children
  | .or children => leavesOf children

def leavesOf : List Expr → List Leaf
  | [] => []
  | child :: children => child.leaves ++ leavesOf children

end

/-! ## Children -/

section

variable {children : List Expr}

theorem anyHasOr_eq_false : anyHasOr children = false ↔ ∀ child ∈ children, hasOr child = false := by
  induction children with
  | nil => simp [anyHasOr]
  | cons child children ih => simp [anyHasOr, ih]

theorem anyAnchored_iff : anyAnchored children = true ↔ ∃ child ∈ children, anchored child = true := by
  induction children with
  | nil => simp [anyAnchored]
  | cons child children ih => simp [anyAnchored, ih]

theorem allAnchored_iff : allAnchored children = true ↔ ∀ child ∈ children, anchored child = true := by
  induction children with
  | nil => simp [allAnchored]
  | cons child children ih => simp [allAnchored, ih]

theorem allHold_iff {row : Leaf → Bool} :
    allHold row children = true ↔ ∀ child ∈ children, child.holds row = true := by
  induction children with
  | nil => simp [allHold]
  | cons child children ih => simp [allHold, ih]

theorem anyHolds_iff {row : Leaf → Bool} :
    anyHolds row children = true ↔ ∃ child ∈ children, child.holds row = true := by
  induction children with
  | nil => simp [anyHolds]
  | cons child children ih => simp [anyHolds, ih]

theorem mem_leavesOf {leaf : Leaf} :
    leaf ∈ leavesOf children ↔ ∃ child ∈ children, leaf ∈ child.leaves := by
  induction children with
  | nil => simp [leavesOf]
  | cons child children ih => simp [leavesOf, ih]

end

/-! ## What the rule means -/

/-- A row that satisfies more predicates matches more filters: there is no negation. -/
theorem Expr.holds_mono {row row' : Leaf → Bool} (expr : Expr)
    (h : ∀ leaf ∈ expr.leaves, row leaf = true → row' leaf = true) (hrow : expr.holds row = true) :
    expr.holds row' = true := by
  induction expr using Expr.induct with
  | hleaf leaf => exact h leaf (List.mem_singleton.mpr rfl) hrow
  | hand children ih =>
    refine allHold_iff.mpr fun child hchild => ?_
    exact ih child hchild (fun leaf hleaf => h leaf (mem_leavesOf.mpr ⟨child, hchild, hleaf⟩))
      (allHold_iff.mp hrow child hchild)
  | hor children ih =>
    obtain ⟨child, hchild, hholds⟩ := anyHolds_iff.mp hrow
    refine anyHolds_iff.mpr ⟨child, hchild, ?_⟩
    exact ih child hchild (fun leaf hleaf => h leaf (mem_leavesOf.mpr ⟨child, hchild, hleaf⟩)) hholds

/-- The row that satisfies exactly the predicates without an index. -/
def unindexed (leaf : Leaf) : Bool := ! leaf.isIndexed

/-- That row matches exactly the filters that are not anchored. -/
theorem holds_unindexed (expr : Expr) : expr.holds unindexed = true ↔ ¬ anchored expr = true := by
  induction expr using Expr.induct with
  | hleaf leaf => simp [Expr.holds, unindexed, anchored]
  | hand children ih =>
    rw [Expr.holds, anchored, allHold_iff, anyAnchored_iff]
    simp only [not_exists, not_and]
    exact forall₂_congr ih
  | hor children ih =>
    rw [Expr.holds, anchored, anyHolds_iff, allAnchored_iff]
    simp only [not_forall, exists_prop]
    exact exists_congr fun child => and_congr_right fun hchild => ih child hchild

theorem anchored_iff (expr : Expr) :
    anchored expr = true ↔ ∀ row, expr.holds row = true →
      ∃ leaf ∈ expr.leaves, leaf.isIndexed = true ∧ row leaf = true := by
  constructor
  · intro hanchored row hrow
    by_contra hnone
    refine (holds_unindexed expr).mp (expr.holds_mono (fun leaf hleaf htrue => ?_) hrow) hanchored
    cases hindexed : leaf.isIndexed
    · simp [unindexed, hindexed]
    · exact absurd ⟨leaf, hleaf, hindexed, htrue⟩ hnone
  · intro h
    by_contra hnot
    obtain ⟨leaf, -, hindexed, hrow⟩ := h unindexed ((holds_unindexed expr).mpr hnot)
    simp [unindexed, hindexed] at hrow

/-- Without an `OR` a filter asks for all its predicates. -/
theorem holds_of_not_hasOr {row : Leaf → Bool} (expr : Expr) (h : hasOr expr = false) :
    expr.holds row = true ↔ ∀ leaf ∈ expr.leaves, row leaf = true := by
  induction expr using Expr.induct with
  | hleaf leaf => simp [Expr.holds, Expr.leaves]
  | hand children ih =>
    rw [hasOr, anyHasOr_eq_false] at h
    rw [Expr.holds, Expr.leaves, allHold_iff]
    constructor
    · intro hall leaf hleaf
      obtain ⟨child, hchild, hmem⟩ := mem_leavesOf.mp hleaf
      exact (ih child hchild (h child hchild)).mp (hall child hchild) leaf hmem
    · intro hall child hchild
      refine (ih child hchild (h child hchild)).mpr fun leaf hmem => ?_
      exact hall leaf (mem_leavesOf.mpr ⟨child, hchild, hmem⟩)
  | hor => cases h

/-- **The index rule.** A request passes when it has no `OR`, and then it asks for all its predicates,
or when each row that it matches satisfies an indexed one. -/
theorem checkAnchor_exact (exprs : List Expr) :
    (checkAnchor exprs = .ok () ↔ hasOr (.and exprs) = false ∨
      ∀ row : Leaf → Bool, (∀ expr ∈ exprs, expr.holds row = true) →
        ∃ expr ∈ exprs, ∃ leaf ∈ expr.leaves, leaf.isIndexed = true ∧ row leaf = true) ∧
    (hasOr (.and exprs) = false → ∀ row : Leaf → Bool, (∀ expr ∈ exprs, expr.holds row = true) ↔
      ∀ expr ∈ exprs, ∀ leaf ∈ expr.leaves, row leaf = true) := by
  have hanchored : anchored (.and exprs) = true ↔
      ∀ row : Leaf → Bool, (∀ expr ∈ exprs, expr.holds row = true) →
        ∃ expr ∈ exprs, ∃ leaf ∈ expr.leaves, leaf.isIndexed = true ∧ row leaf = true := by
    rw [anchored_iff]
    refine forall_congr' fun row => imp_congr allHold_iff ?_
    rw [Expr.leaves]
    constructor
    · rintro ⟨leaf, hleaf, h⟩
      obtain ⟨expr, hexpr, hmem⟩ := mem_leavesOf.mp hleaf
      exact ⟨expr, hexpr, leaf, hmem, h⟩
    · rintro ⟨expr, hexpr, leaf, hmem, h⟩
      exact ⟨leaf, mem_leavesOf.mpr ⟨expr, hexpr, hmem⟩, h⟩
  constructor
  · rw [← hanchored, checkAnchor]
    cases hasOr (.and exprs) <;> cases anchored (.and exprs) <;> simp
  · intro hor row
    refine forall₂_congr fun expr hexpr => holds_of_not_hasOr expr ?_
    exact anyHasOr_eq_false.mp hor expr hexpr

end Harvest.Filter
