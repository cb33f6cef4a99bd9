import Harvest.Filter.Anchor
import Harvest.Wasm.Accepted

/-!
# The SQL of filters

A filter is compiled into pieces of fixed SQL text and bound values. Each node is put between brackets,
with its connective between the children.

A reader of conditions is stated here on its own: it goes over the pieces from left to right, and `AND`
binds tighter than `OR`. It knows nothing of filters.

Proved here:
* `sql_means_filter`: read as a condition, the SQL of a filter is true for a row exactly when the row
  matches the filter.
-/

namespace Harvest.Filter

/-! ## Compiling -/

/-- One part of a compiled filter. -/
inductive Part
  | sql (text : String)
  | text (value : Text)
  | textArray (values : List Text)
  | jsonb (value : JsonText)
  | jsonbArray (values : List JsonText)
  | timestamptz (time : DateTime)
deriving DecidableEq, Repr

/-- A JSON string, as `serde_json` writes it. -/
def jsonString (text : Text) : JsonText := '"' :: text.flatMap Wasm.writeChar ++ ['"']

/-- The object that `@>` tests against. -/
def attrObject (key : Text) (value : JsonText) : JsonText :=
  "\x7b".toList ++ jsonString key ++ ":".toList ++ value ++ "\x7d".toList

def searchAttrsContains : String := "harvest_workflow_executions.search_attrs @> "

def CmpOp.numeric : CmpOp → String
  | gt => ")::numeric > "
  | gte => ")::numeric >= "
  | lt => ")::numeric < "
  | lte => ")::numeric <= "

def pushAttr : SearchAttrPredicate → List Part
  | .eq key value => [.sql searchAttrsContains, .jsonb (attrObject key value)]
  | .ne key value =>
    [.sql "(harvest_workflow_executions.search_attrs ? ", .text key,
      .sql " AND NOT (harvest_workflow_executions.search_attrs @> ", .jsonb (attrObject key value),
      .sql "))"]
  | .cmp key op value =>
    -- The `?` test lets the index find the rows. The bound text keeps large integers exact.
    [.sql "(harvest_workflow_executions.search_attrs ? ", .text key,
      .sql " AND jsonb_typeof(harvest_workflow_executions.search_attrs -> ", .text key,
      .sql ") = 'number' AND (harvest_workflow_executions.search_attrs ->> ", .text key,
      .sql op.numeric, .text value, .sql "::numeric)"]
  | .isIn key values =>
    [.sql "(harvest_workflow_executions.search_attrs ? ", .text key,
      .sql " AND harvest_workflow_executions.search_attrs -> ", .text key,
      .sql " = ANY(", .jsonbArray values, .sql "))"]
  | .hasKey key => [.sql "harvest_workflow_executions.search_attrs ? ", .text key]

def SystemField.column : SystemField → String
  | state => "harvest_workflow_executions.state"
  | workflowName => "harvest_workflow_executions.workflow_name"
  | workflowId => "harvest_workflow_executions.workflow_id"
  | owner => "harvest_workflow_executions.owner"
  | severity => "harvest_workflow_executions.severity"
  | startedAt => "harvest_workflow_executions.started_at"

def CmpOp.between : CmpOp → String
  | gt => " > "
  | gte => " >= "
  | lt => " < "
  | lte => " <= "

def pushTest : SystemTest → List Part
  | .eq value => [.sql " = ", .text value]
  | .ne value => [.sql " <> ", .text value]
  | .isIn values => [.sql " = ANY(", .textArray values, .sql ")"]
  | .cmp op time => [.sql op.between, .timestamptz time]

def pushSystem (field : SystemField) (test : SystemTest) : List Part :=
  .sql field.column :: pushTest test

def pushLeaf : Leaf → List Part
  | .attr predicate => pushAttr predicate
  | .system field test => pushSystem field test

mutual

def pushExpr : Expr → List Part
  | .leaf leaf => pushLeaf leaf
  | .and children => .sql "(" :: pushChildren " AND " true children ++ [.sql ")"]
  | .or children => .sql "(" :: pushChildren " OR " true children ++ [.sql ")"]

/-- The joiner stands before each child but the first one. -/
def pushChildren (joiner : String) (first : Bool) : List Expr → List Part
  | [] => []
  | child :: children =>
    (if first then [] else [.sql joiner]) ++ pushExpr child ++ pushChildren joiner false children

end

/-- `SqlFilter::from_expr`. -/
def fromExpr (expr : Expr) : List Part := pushExpr expr

/-! ## Reading conditions -/

inductive SqlToken
  | opens
  | closes
  | and
  | or
  | atom (parts : List Part)
deriving DecidableEq, Repr

/-- The pieces that join conditions. Everything else belongs to a comparison. -/
def connective (part : Part) : Option SqlToken :=
  if part = .sql "(" then some .opens
  else if part = .sql ")" then some .closes
  else if part = .sql " AND " then some .and
  else if part = .sql " OR " then some .or
  else none

/-- How many brackets a piece leaves open. -/
def brackets : Part → Int
  | .sql text => text.toList.count '(' - text.toList.count ')'
  | _ => 0

def flush (run : List Part) : List SqlToken := if run = [] then [] else [.atom run]

/-- Goes over the pieces with the comparison that is being read and the brackets it has open. Inside
its brackets a comparison takes every piece. -/
def sqlTokensFrom (run : List Part) (depth : Int) : List Part → List SqlToken
  | [] => flush run
  | part :: parts =>
    if depth = 0 then
      match connective part with
      | some token => flush run ++ token :: sqlTokensFrom [] 0 parts
      | none => sqlTokensFrom (run ++ [part]) (brackets part) parts
    else sqlTokensFrom (run ++ [part]) (depth + brackets part) parts

def sqlTokens (parts : List Part) : List SqlToken := sqlTokensFrom [] 0 parts

/-- A condition between two brackets, up to where it was read: what the conjunctions behind it gave,
what the current conjunction gives so far, and whether a condition must follow. -/
structure Frame where
  any : Bool
  all : Bool
  expects : Bool
deriving DecidableEq, Repr

def Frame.start : Frame := ⟨false, true, true⟩

def Frame.value (f : Frame) : Bool := f.any || f.all

def Frame.operand (f : Frame) (b : Bool) : Frame := ⟨f.any, f.all && b, false⟩

/-- One token of a condition. The frames of the brackets that are open stand innermost first. -/
def readToken (truth : List Part → Bool) : List Frame → SqlToken → Option (List Frame)
  | f :: frames, .atom parts => if f.expects then some (f.operand (truth parts) :: frames) else none
  | f :: frames, .opens => if f.expects then some (.start :: f :: frames) else none
  | f :: frames, .and => if f.expects then none else some (⟨f.any, f.all, true⟩ :: frames)
  | f :: frames, .or => if f.expects then none else some (⟨f.value, true, true⟩ :: frames)
  | f :: g :: frames, .closes => if f.expects then none else some (g.operand f.value :: frames)
  | _, _ => none

def readTokens (truth : List Part → Bool) : List Frame → List SqlToken → Option (List Frame)
  | frames, [] => some frames
  | frames, token :: tokens => (readToken truth frames token).bind (readTokens truth · tokens)

/-- The value of a condition, or none when it is not one. -/
def readCondition (truth : List Part → Bool) (parts : List Part) : Option Bool :=
  match readTokens truth [.start] (sqlTokens parts) with
  | some [f] => if f.expects then none else some f.value
  | _ => none

/-! ## Tokens of the pieces -/

theorem connective_opens : connective (.sql "(") = some .opens := by decide

theorem connective_closes : connective (.sql ")") = some .closes := by decide

theorem connective_and : connective (.sql " AND ") = some .and := by decide

theorem connective_or : connective (.sql " OR ") = some .or := by decide

/-- What follows does not go on with a comparison. -/
def Breaks (parts : List Part) : Prop :=
  ∀ run, run ≠ [] → sqlTokensFrom run 0 parts = .atom run :: sqlTokens parts

theorem flush_of_ne {run : List Part} (h : run ≠ []) : flush run = [.atom run] := if_neg h

theorem breaks_nil : Breaks [] := fun _ h => flush_of_ne h

theorem sqlTokensFrom_connective {part : Part} {token : SqlToken} (h : connective part = some token)
    (run parts : List Part) :
    sqlTokensFrom run 0 (part :: parts) = flush run ++ token :: sqlTokens parts := by
  rw [sqlTokensFrom, if_pos rfl, h]
  rfl

theorem sqlTokens_connective {part : Part} {token : SqlToken} (h : connective part = some token)
    (parts : List Part) : sqlTokens (part :: parts) = token :: sqlTokens parts :=
  sqlTokensFrom_connective h [] parts

theorem breaks_connective {part : Part} {token : SqlToken} (h : connective part = some token)
    (parts : List Part) : Breaks (part :: parts) := by
  intro run hrun
  rw [sqlTokensFrom_connective h, sqlTokens_connective h, flush_of_ne hrun]
  rfl

theorem sqlTokensFrom_outside {part : Part} (h : connective part = none) (run parts : List Part) :
    sqlTokensFrom run 0 (part :: parts) = sqlTokensFrom (run ++ [part]) (brackets part) parts := by
  rw [sqlTokensFrom, if_pos rfl, h]

theorem sqlTokensFrom_inside {depth : Int} (h : depth ≠ 0) (part : Part) (run parts : List Part) :
    sqlTokensFrom run depth (part :: parts) =
      sqlTokensFrom (run ++ [part]) (depth + brackets part) parts := by
  rw [sqlTokensFrom, if_neg h]

/-- Brackets balance over these pieces, and no connective stands outside of them. -/
def Balanced : Int → List Part → Prop
  | depth, [] => depth = 0
  | depth, part :: parts =>
    (depth = 0 → connective part = none) ∧ Balanced (depth + brackets part) parts

/-- Balanced pieces are taken as a whole. -/
theorem sqlTokensFrom_balanced {parts : List Part} {depth : Int} (h : Balanced depth parts)
    (run rest : List Part) :
    sqlTokensFrom run depth (parts ++ rest) = sqlTokensFrom (run ++ parts) 0 rest := by
  induction parts generalizing run depth with
  | nil =>
    have hdepth : depth = 0 := h
    rw [hdepth, List.nil_append, List.append_nil]
  | cons part parts ih =>
    have hstep : sqlTokensFrom run depth (part :: (parts ++ rest)) =
        sqlTokensFrom (run ++ [part]) (depth + brackets part) (parts ++ rest) := by
      by_cases hdepth : depth = 0
      · rw [hdepth, sqlTokensFrom_outside (h.1 hdepth), Int.zero_add]
      · exact sqlTokensFrom_inside hdepth part run _
    rw [List.cons_append, hstep, ih h.2, List.append_assoc]
    rfl

theorem pushLeaf_ne_nil (leaf : Leaf) : pushLeaf leaf ≠ [] := by
  cases leaf with
  | attr predicate => cases predicate <;> exact List.cons_ne_nil _ _
  | system field test => exact List.cons_ne_nil _ _

theorem balanced_pushAttr (predicate : SearchAttrPredicate) : Balanced 0 (pushAttr predicate) := by
  cases predicate with
  | cmp key op value =>
    cases op <;> exact ⟨fun _ => rfl, fun _ => rfl, fun _ => rfl, fun _ => rfl, fun _ => rfl,
      fun _ => rfl, fun _ => rfl, fun _ => rfl, fun _ => rfl, rfl⟩
  | eq | hasKey => exact ⟨fun _ => rfl, fun _ => rfl, rfl⟩
  | ne => exact ⟨fun _ => rfl, fun _ => rfl, fun _ => rfl, fun _ => rfl, fun _ => rfl, rfl⟩
  | isIn =>
    exact ⟨fun _ => rfl, fun _ => rfl, fun _ => rfl, fun _ => rfl, fun _ => rfl, fun _ => rfl,
      fun _ => rfl, rfl⟩

theorem balanced_pushTest (test : SystemTest) : Balanced 0 (pushTest test) := by
  cases test with
  | cmp op time => cases op <;> exact ⟨fun _ => rfl, fun _ => rfl, rfl⟩
  | eq | ne => exact ⟨fun _ => rfl, fun _ => rfl, rfl⟩
  | isIn =>
    -- The last piece is a closing bracket, inside the brackets of `ANY`.
    have hopen : ¬ (1 : Int) = 0 := by decide
    exact ⟨fun _ => rfl, fun _ => rfl, fun h => absurd h hopen, rfl⟩

theorem balanced_pushLeaf (leaf : Leaf) : Balanced 0 (pushLeaf leaf) := by
  cases leaf with
  | attr predicate => exact balanced_pushAttr predicate
  | system field test => cases field <;> exact ⟨fun _ => rfl, balanced_pushTest test⟩

/-- A comparison is read as one token. -/
theorem sqlTokens_leaf (leaf : Leaf) {rest : List Part} (hrest : Breaks rest) :
    sqlTokens (pushLeaf leaf ++ rest) = .atom (pushLeaf leaf) :: sqlTokens rest := by
  rw [sqlTokens, sqlTokensFrom_balanced (balanced_pushLeaf leaf), List.nil_append]
  exact hrest _ (pushLeaf_ne_nil leaf)

/-! ## What the pieces mean -/

section

variable (truth : List Part → Bool)

/-- A row satisfies the predicates whose comparisons are true for it. -/
def rowOf (leaf : Leaf) : Bool := truth (pushLeaf leaf)

/-- The pieces of a filter are read as one condition with the value of the filter. -/
def ReadsAs (expr : Expr) : Prop :=
  ∀ f frames rest, f.expects = true → Breaks rest →
    readTokens truth (f :: frames) (sqlTokens (pushExpr expr ++ rest)) =
      readTokens truth (f.operand (expr.holds (rowOf truth)) :: frames) (sqlTokens rest)

variable {truth}

theorem readTokens_opens {f : Frame} (h : f.expects = true) (frames : List Frame) (parts : List Part) :
    readTokens truth (f :: frames) (sqlTokens (.sql "(" :: parts)) =
      readTokens truth (.start :: f :: frames) (sqlTokens parts) := by
  rw [sqlTokens_connective connective_opens, readTokens, readToken, if_pos h, Option.bind_some]

theorem readTokens_closes {f : Frame} (h : f.expects = false) (g : Frame) (frames : List Frame)
    (parts : List Part) :
    readTokens truth (f :: g :: frames) (sqlTokens (.sql ")" :: parts)) =
      readTokens truth (g.operand f.value :: frames) (sqlTokens parts) := by
  rw [sqlTokens_connective connective_closes, readTokens, readToken, h, if_neg Bool.false_ne_true,
    Option.bind_some]

theorem readTokens_and {f : Frame} (h : f.expects = false) (frames : List Frame) (parts : List Part) :
    readTokens truth (f :: frames) (sqlTokens (.sql " AND " :: parts)) =
      readTokens truth (⟨f.any, f.all, true⟩ :: frames) (sqlTokens parts) := by
  rw [sqlTokens_connective connective_and, readTokens, readToken, h, if_neg Bool.false_ne_true,
    Option.bind_some]

theorem readTokens_or {f : Frame} (h : f.expects = false) (frames : List Frame) (parts : List Part) :
    readTokens truth (f :: frames) (sqlTokens (.sql " OR " :: parts)) =
      readTokens truth (⟨f.value, true, true⟩ :: frames) (sqlTokens parts) := by
  rw [sqlTokens_connective connective_or, readTokens, readToken, h, if_neg Bool.false_ne_true,
    Option.bind_some]

theorem readsAs_leaf (leaf : Leaf) : ReadsAs truth (.leaf leaf) := by
  intro f frames rest hexpects hrest
  rw [pushExpr, sqlTokens_leaf leaf hrest, readTokens, readToken, if_pos hexpects, Option.bind_some]
  rfl

/-- Behind a child there is a joiner, or what follows the children. -/
theorem breaks_pushChildren {joiner : String} {token : SqlToken}
    (h : connective (.sql joiner) = some token) (children : List Expr) {rest : List Part}
    (hrest : Breaks rest) : Breaks (pushChildren joiner false children ++ rest) := by
  cases children with
  | nil => exact hrest
  | cons child children =>
    rw [pushChildren, if_neg Bool.false_ne_true, List.append_assoc, List.append_assoc,
      List.singleton_append]
    exact breaks_connective h _

/-- Children behind an `AND`. -/
theorem readTokens_andChildren {children : List Expr} (ih : ∀ child ∈ children, ReadsAs truth child)
    {f : Frame} (hexpects : f.expects = false) (frames : List Frame) {rest : List Part}
    (hrest : Breaks rest) :
    readTokens truth (f :: frames) (sqlTokens (pushChildren " AND " false children ++ rest)) =
      readTokens truth (f.operand (allHold (rowOf truth) children) :: frames) (sqlTokens rest) := by
  induction children generalizing f with
  | nil =>
    have hsame : f.operand (allHold (rowOf truth) []) = f := by
      rw [allHold, Frame.operand, Bool.and_true, ← hexpects]
    rw [hsame, pushChildren, List.nil_append]
  | cons child children tail =>
    rw [pushChildren, if_neg Bool.false_ne_true, List.append_assoc, List.append_assoc,
      List.singleton_append, readTokens_and hexpects,
      ih child List.mem_cons_self _ _ _ rfl (breaks_pushChildren connective_and children hrest),
      tail (fun other hother => ih other (List.mem_cons_of_mem _ hother)) rfl]
    rw [allHold, Frame.operand, Frame.operand, Frame.operand, Bool.and_assoc]

/-- Children behind an `OR`. -/
theorem readTokens_orChildren {children : List Expr} (ih : ∀ child ∈ children, ReadsAs truth child)
    {f : Frame} (hexpects : f.expects = false) (frames : List Frame) {rest : List Part}
    (hrest : Breaks rest) :
    ∃ g : Frame, g.expects = false ∧ g.value = (f.value || anyHolds (rowOf truth) children) ∧
      readTokens truth (f :: frames) (sqlTokens (pushChildren " OR " false children ++ rest)) =
        readTokens truth (g :: frames) (sqlTokens rest) := by
  induction children generalizing f with
  | nil =>
    refine ⟨f, hexpects, ?_, ?_⟩
    · rw [anyHolds, Bool.or_false]
    · rw [pushChildren, List.nil_append]
  | cons child children tail =>
    obtain ⟨g, hg, hvalue, hread⟩ := tail (fun other hother => ih other (List.mem_cons_of_mem _ hother))
      (f := Frame.operand ⟨f.value, true, true⟩ (child.holds (rowOf truth))) rfl
    refine ⟨g, hg, ?_, ?_⟩
    · rw [hvalue, anyHolds, ← Bool.or_assoc]
      rfl
    · rw [pushChildren, if_neg Bool.false_ne_true, List.append_assoc, List.append_assoc,
        List.singleton_append, readTokens_or hexpects,
        ih child List.mem_cons_self _ _ _ rfl (breaks_pushChildren connective_or children hrest), hread]

end

/-- Each node of the filter has a child. -/
inductive Full : Expr → Prop
  | leaf (leaf : Leaf) : Full (.leaf leaf)
  | and {children : List Expr} (hne : children ≠ []) (h : ∀ child ∈ children, Full child) :
      Full (.and children)
  | or {children : List Expr} (hne : children ≠ []) (h : ∀ child ∈ children, Full child) :
      Full (.or children)

theorem readsAs_and {truth : List Part → Bool} {children : List Expr} (hne : children ≠ [])
    (ih : ∀ child ∈ children, ReadsAs truth child) : ReadsAs truth (.and children) := by
  intro f frames rest hexpects hrest
  obtain ⟨child, others, rfl⟩ := List.exists_cons_of_ne_nil hne
  have hclose := breaks_connective connective_closes rest
  rw [pushExpr, List.cons_append, List.cons_append, List.append_assoc, List.singleton_append,
    readTokens_opens hexpects, pushChildren, if_pos rfl, List.nil_append, List.append_assoc,
    ih child List.mem_cons_self _ _ _ rfl (breaks_pushChildren connective_and others hclose),
    readTokens_andChildren (fun other hother => ih other (List.mem_cons_of_mem _ hother)) rfl _ hclose,
    readTokens_closes rfl]
  rw [Expr.holds, allHold]
  simp [Frame.operand, Frame.value, Frame.start]

theorem readsAs_or {truth : List Part → Bool} {children : List Expr} (hne : children ≠ [])
    (ih : ∀ child ∈ children, ReadsAs truth child) : ReadsAs truth (.or children) := by
  intro f frames rest hexpects hrest
  obtain ⟨child, others, rfl⟩ := List.exists_cons_of_ne_nil hne
  have hclose := breaks_connective connective_closes rest
  obtain ⟨g, hg, hvalue, hread⟩ := readTokens_orChildren
    (fun other hother => ih other (List.mem_cons_of_mem _ hother))
    (f := Frame.start.operand (child.holds (rowOf truth))) rfl (f :: frames) hclose
  rw [pushExpr, List.cons_append, List.cons_append, List.append_assoc, List.singleton_append,
    readTokens_opens hexpects, pushChildren, if_pos rfl, List.nil_append, List.append_assoc,
    ih child List.mem_cons_self _ _ _ rfl (breaks_pushChildren connective_or others hclose), hread,
    readTokens_closes hg, hvalue]
  rw [Expr.holds, anyHolds]
  simp [Frame.operand, Frame.value, Frame.start]

theorem readsAs_of_full {truth : List Part → Bool} {expr : Expr} (h : Full expr) :
    ReadsAs truth expr := by
  induction h with
  | leaf leaf => exact readsAs_leaf leaf
  | and hne _ ih => exact readsAs_and hne ih
  | or hne _ ih => exact readsAs_or hne ih

/-- **The SQL of a filter.** Whatever the comparisons give for a row, the condition holds for it exactly
when the row matches the filter. -/
theorem sql_means_filter (truth : List Part → Bool) {expr : Expr} (h : Full expr) :
    readCondition truth (fromExpr expr) = some (expr.holds fun leaf => truth (pushLeaf leaf)) := by
  have hreads : ReadsAs truth expr := readsAs_of_full h
  have hread := hreads Frame.start [] [] rfl breaks_nil
  rw [List.append_nil] at hread
  have hend : sqlTokens [] = [] := by rw [sqlTokens, sqlTokensFrom, flush, if_pos rfl]
  have hrow : rowOf truth = fun leaf => truth (pushLeaf leaf) := rfl
  rw [readCondition, fromExpr, hread, hend, readTokens, ← hrow]
  simp [Frame.operand, Frame.value, Frame.start]

/-- The runs with a `vip` attribute, and the running ones of one owner. -/
def vipOrRunning : Expr :=
  .or [.leaf (.attr (.hasKey "vip".toList)),
    .and [.leaf (.system .state (.eq "RUNNING".toList)), .leaf (.system .owner (.eq "anna".toList))]]

theorem full_vipOrRunning : Full vipOrRunning := by
  refine .or (List.cons_ne_nil _ _) fun child hchild => ?_
  rcases List.mem_pair.mp hchild with rfl | rfl
  · exact .leaf _
  · refine .and (List.cons_ne_nil _ _) fun child hchild => ?_
    rcases List.mem_pair.mp hchild with rfl | rfl <;> exact .leaf _

/-- A run of the owner that does not run any more is not listed. -/
theorem sql_means_filter_vipOrRunning :
    readCondition (fun parts => decide (Part.text "anna".toList ∈ parts)) (fromExpr vipOrRunning) =
      some false := by
  refine (sql_means_filter _ full_vipOrRunning).trans ?_
  decide

end Harvest.Filter
