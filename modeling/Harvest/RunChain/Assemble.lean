import Harvest.Event
import Mathlib.Data.List.Nodup
import Mathlib.Data.List.Perm.Basic
import Mathlib.Data.List.Range
import Mathlib.Logic.Function.Basic

/-!
# The runs of a continue-as-new chain

Model of `assemble_run_chain` in `run_chain.rs`: rows in any order become the ordered runs of one
logical run. The walk follows the links back to the run before; where there is none it goes on in
the order of time, and at the end it takes the rows that it did not reach.

An index is visited when it is in the order. Ids stand in the records for their texts.

Proved here:
* `successorByPredecessor_eq`: the index is a search for the first row that names the id.
* `orderRows_perm`: the order holds every row once.
* `orderRows_of_chain`: a chain of back-links from the head is ordered along its links.
-/

namespace Harvest.RunChain

/-! ## Rows and records -/

structure RunChainRow where
  execId : Uuid
  runId : Uuid
  workflowId : String
  state : String
  startedAt : Int
  completedAt : Option Int
  continuedFromExecId : Option Uuid
  firstExecId : Option Uuid

structure RunChainRecord where
  execId : Uuid
  runId : Uuid
  sequence : ℕ
  state : String
  startedAt : Int
  completedAt : Option Int
  outcome : String
  continuedToExecId : Option Uuid

structure RunChainResponse where
  headUnknown : Bool
  workflowId : Option String
  runs : List RunChainRecord

def outcomeForState (state : String) : String :=
  if state = "COMPLETED" then "completed"
  else if state = "FAILED" then "failed"
  else if state = "CANCELLED" then "cancelled"
  else if state = "TIMED_OUT" then "timed_out"
  else if state = "TERMINATED" then "terminated"
  else if state = "CONTINUED_AS_NEW" then "continued_as_new"
  else "running"

/-! ## The order of the rows -/

variable (rows : List RunChainRow)

/-- One row of the map of `index_chain_rows`: an entry that exists stays. -/
def noteSuccessor (map : Uuid → Option ℕ) : RunChainRow × ℕ → Uuid → Option ℕ
  | (row, i) =>
    match row.continuedFromExecId with
    | some pred => if (map pred).isSome then map else Function.update map pred (some i)
    | none => map

/-- The map of `index_chain_rows`, from a predecessor to a row that names it. -/
def successorByPredecessor : Uuid → Option ℕ := rows.zipIdx.foldl noteSuccessor fun _ => none

/-- Earlier rows come first, rows of one time in the order of their ids. -/
def startsBefore (a b : ℕ) : Bool :=
  match rows[a]?, rows[b]? with
  | some x, some y =>
    x.startedAt < y.startedAt || (x.startedAt = y.startedAt && x.execId.toNat ≤ y.execId.toNat)
  | _, _ => true

/-- The indices by `(started_at, exec_id)`. -/
def byTime : List ℕ := (List.range rows.length).mergeSort (startsBefore rows)

/-- Appends an index that is not visited. -/
def visit : List ℕ × Option ℕ → ℕ → List ℕ × Option ℕ
  | (ordered, last), i => if i ∈ ordered then (ordered, last) else (ordered ++ [i], some i)

/-- Appends what is not visited, in the order of time. Returns the last one too. -/
def appendUnvisited (ordered : List ℕ) : List ℕ × Option ℕ :=
  (byTime rows).foldl visit (ordered, none)

/-- The walk: along an explicit link, else, after a run that continued, to the rest by time. -/
def walk : ℕ → List ℕ → ℕ → List ℕ
  | 0, ordered, _ => ordered
  | fuel + 1, ordered, current =>
    match ((rows[current]?).bind fun row => successorByPredecessor rows row.execId).filter
        (· ∉ ordered) with
    | some next => walk fuel (ordered ++ [next]) next
    | none =>
      if (rows[current]?).any fun row => row.state = "CONTINUED_AS_NEW" then
        match appendUnvisited rows ordered with
        | (ordered, some last) => walk fuel ordered last
        | (ordered, none) => ordered
      else ordered

/-- Where the walk starts: at the head, else at the earliest row. -/
def startIndex (headExecId : Uuid) : ℕ :=
  (rows.findIdx? fun row => row.execId = headExecId).getD ((byTime rows).headD 0)

/-- The order of the indices. -/
def orderRows (headExecId : Uuid) : List ℕ :=
  (appendUnvisited rows
    (walk rows (rows.length + 1) [startIndex rows headExecId] (startIndex rows headExecId))).1

/-- The forward link: none over a gap. -/
def continuedTo (row : RunChainRow) (next : Option RunChainRow) : Option Uuid :=
  next.bind fun next =>
    match next.continuedFromExecId with
    | some pred => if pred ≠ row.execId then none else some next.execId
    | none => some next.execId

def record (row : RunChainRow) (seq : ℕ) (next : Option RunChainRow) : RunChainRecord where
  execId := row.execId
  runId := row.runId
  sequence := min seq (2 ^ 32 - 1)
  state := row.state
  startedAt := row.startedAt
  completedAt := row.completedAt
  outcome := outcomeForState row.state
  continuedToExecId := continuedTo row next

/-- The records of ordered rows. -/
def records : ℕ → List RunChainRow → List RunChainRecord
  | _, [] => []
  | seq, row :: rest => record row seq rest.head? :: records (seq + 1) rest

/-- A row names a predecessor that is not among the rows. -/
def anyPredecessorMissing : Bool :=
  rows.any fun row => row.continuedFromExecId.any fun pred =>
    ! (rows.map RunChainRow.execId).contains pred

def headUnknown (headRow : RunChainRow) : Bool :=
  let confirmedOrigin := rows.any fun row => row.firstExecId = some headRow.execId
  let headParticipates := 1 < rows.length || headRow.state = "CONTINUED_AS_NEW"
  let headLacksBacklink := headRow.continuedFromExecId.isNone && headRow.firstExecId.isNone
  (headLacksBacklink && headParticipates && ! confirmedOrigin) || anyPredecessorMissing rows

def assembleRunChain (headExecId : Uuid) : RunChainResponse :=
  match (orderRows rows headExecId).filterMap (rows[·]?) with
  | [] => ⟨false, none, []⟩
  | headRow :: rest =>
    ⟨headUnknown rows headRow, some headRow.workflowId, records 0 (headRow :: rest)⟩

/-! ## Every row once -/

variable {rows}

theorem noteSuccessor_apply (map : Uuid → Option ℕ) (row : RunChainRow) (i : ℕ) (id : Uuid) :
    noteSuccessor map (row, i) id =
      (map id).or (if row.continuedFromExecId = some id then some i else none) := by
  unfold noteSuccessor
  dsimp only
  cases hpred : row.continuedFromExecId with
  | none => simp
  | some pred =>
    by_cases hid : pred = id
    · subst hid
      cases hmap : map pred with
      | none => simp [hmap]
      | some j => simp [hmap]
    · dsimp only
      rw [if_neg fun h => hid (Option.some.inj h), Option.or_none]
      split_ifs
      · rfl
      · exact Function.update_of_ne (Ne.symm hid) _ _

/-- **The index** is a search for the first row that names the id. -/
theorem successorByPredecessor_eq (id : Uuid) :
    successorByPredecessor rows id =
      rows.findIdx? fun row => row.continuedFromExecId = some id := by
  suffices hfold : ∀ (rows : List RunChainRow) (n : ℕ) (map : Uuid → Option ℕ),
      (rows.zipIdx n).foldl noteSuccessor map id =
      (map id).or ((rows.findIdx? fun row => row.continuedFromExecId = some id).map (· + n)) by
    refine (hfold rows 0 fun _ => none).trans ?_
    simp
  intro rows
  induction rows with
  | nil => simp
  | cons row rows ih =>
    intro n map
    rw [List.zipIdx_cons, List.foldl_cons, ih, noteSuccessor_apply, List.findIdx?_cons]
    have hshift : (rows.findIdx? fun row => row.continuedFromExecId = some id).map (· + (n + 1)) =
        ((rows.findIdx? fun row => row.continuedFromExecId = some id).map (· + 1)).map (· + n) := by
      rw [Option.map_map]
      refine congrArg (Option.map · _) (funext fun i => ?_)
      simp only [Function.comp_apply]
      omega
    rw [hshift, Option.or_assoc]
    by_cases hpred : row.continuedFromExecId = some id
    · simp [hpred]
    · simp [hpred]

theorem successorByPredecessor_lt {id : Uuid} {i : ℕ} (h : successorByPredecessor rows id = some i) :
    i < rows.length := by
  rw [successorByPredecessor_eq] at h
  exact (List.findIdx?_eq_some_iff_getElem.mp h).1

theorem byTime_perm (rows : List RunChainRow) : (byTime rows).Perm (List.range rows.length) :=
  List.mergeSort_perm _ _

theorem mem_byTime {i : ℕ} : i ∈ byTime rows ↔ i < rows.length := by
  rw [(byTime_perm rows).mem_iff, List.mem_range]

theorem nodup_byTime : (byTime rows).Nodup := (byTime_perm rows).nodup_iff.mpr List.nodup_range

theorem appendUnvisited_eq (ordered : List ℕ) :
    appendUnvisited rows ordered =
      (ordered ++ (byTime rows).filter (· ∉ ordered), ((byTime rows).filter (· ∉ ordered)).getLast?) := by
  suffices hfold : ∀ (todo : List ℕ), todo.Nodup → ∀ (ordered : List ℕ) (last : Option ℕ),
      todo.foldl visit (ordered, last) =
      (ordered ++ todo.filter (· ∉ ordered), (todo.filter (· ∉ ordered)).getLast?.or last) by
    refine (hfold (byTime rows) nodup_byTime ordered none).trans ?_
    rw [Option.or_none]
  intro todo
  induction todo with
  | nil => simp
  | cons i todo ih =>
    intro hnodup ordered last
    obtain ⟨hi, htodo⟩ := List.nodup_cons.mp hnodup
    rw [List.foldl_cons, visit]
    by_cases hmem : i ∈ ordered
    · rw [if_pos hmem, ih htodo, List.filter_cons_of_neg (by simpa using hmem)]
    · -- what comes later is not `i`
      have hsame : todo.filter (· ∉ ordered ++ [i]) = todo.filter (· ∉ ordered) := by
        refine List.filter_congr fun j hj => ?_
        have hne : j ≠ i := fun heq => hi (heq ▸ hj)
        simp [hne]
      rw [if_neg hmem, ih htodo, hsame, List.filter_cons_of_pos (by simpa using hmem)]
      refine Prod.ext (List.append_assoc ..) ?_
      rw [List.getLast?_cons]
      cases hlast : (todo.filter (· ∉ ordered)).getLast? with
      | none => rfl
      | some j => rfl

/-- An order of some of the indices, each once. -/
def Partly (rows : List RunChainRow) (ordered : List ℕ) : Prop :=
  ordered.Nodup ∧ ∀ i ∈ ordered, i < rows.length

theorem Partly.append {ordered : List ℕ} (h : Partly rows ordered) :
    Partly rows (ordered ++ (byTime rows).filter (· ∉ ordered)) := by
  refine ⟨List.nodup_append.mpr ⟨h.1, nodup_byTime.filter _, ?_⟩, fun i hi => ?_⟩
  · rintro a ha b hb rfl
    have hnot := (List.mem_filter.mp hb).2
    simp [ha] at hnot
  · rcases List.mem_append.mp hi with hold | hnew
    · exact h.2 i hold
    · exact mem_byTime.mp (List.mem_of_mem_filter hnew)

/-- **The walk** only appends, and visits no index twice. -/
theorem walk_partly (fuel : ℕ) {ordered : List ℕ} (h : Partly rows ordered) (current : ℕ) :
    Partly rows (walk rows fuel ordered current) ∧ ordered <+: walk rows fuel ordered current := by
  induction fuel generalizing ordered current with
  | zero => exact ⟨h, List.prefix_rfl⟩
  | succ fuel ih =>
    unfold walk
    split
    · rename_i next hnext
      obtain ⟨hlink, hnew⟩ := Option.filter_eq_some_iff.mp hnext
      have hfresh : next ∉ ordered := by simpa using hnew
      have hstep : Partly rows (ordered ++ [next]) := by
        refine ⟨List.nodup_append.mpr ⟨h.1, List.nodup_singleton _, ?_⟩, fun i hi => ?_⟩
        · rintro a ha b hb rfl
          exact hfresh (List.mem_singleton.mp hb ▸ ha)
        · rcases List.mem_append.mp hi with hold | hlast
          · exact h.2 i hold
          · obtain ⟨row, -, hsucc⟩ := Option.bind_eq_some_iff.mp hlink
            exact List.mem_singleton.mp hlast ▸ successorByPredecessor_lt hsucc
      obtain ⟨hpartly, hprefix⟩ := ih hstep next
      exact ⟨hpartly, (List.prefix_append ordered [next]).trans hprefix⟩
    · split_ifs
      · rw [appendUnvisited_eq]
        cases ((byTime rows).filter (· ∉ ordered)).getLast? with
        | none => exact ⟨h.append, List.prefix_append ..⟩
        | some last =>
          obtain ⟨hpartly, hprefix⟩ := ih h.append last
          exact ⟨hpartly, (List.prefix_append ..).trans hprefix⟩
      · exact ⟨h, List.prefix_rfl⟩

theorem startIndex_lt (hne : rows ≠ []) (headExecId : Uuid) :
    startIndex rows headExecId < rows.length := by
  unfold startIndex
  cases hfind : rows.findIdx? fun row => row.execId = headExecId with
  | some i => exact (List.findIdx?_eq_some_iff_getElem.mp hfind).1
  | none =>
    have hpos := List.length_pos_of_ne_nil hne
    cases htime : byTime rows with
    | nil => exact hpos
    | cons first rest =>
      have hmem : first ∈ byTime rows := by
        rw [htime]
        exact List.mem_cons_self
      exact mem_byTime.mp hmem

theorem partly_start (hne : rows ≠ []) (headExecId : Uuid) :
    Partly rows [startIndex rows headExecId] :=
  ⟨List.nodup_singleton _, fun _ hi => List.mem_singleton.mp hi ▸ startIndex_lt hne headExecId⟩

/-- **The order holds every index once.** -/
theorem orderRows_perm (hne : rows ≠ []) (headExecId : Uuid) :
    (orderRows rows headExecId).Perm (List.range rows.length) := by
  have hwalk := (walk_partly (rows.length + 1) (partly_start hne headExecId)
    (startIndex rows headExecId)).1
  unfold orderRows
  rw [appendUnvisited_eq]
  obtain ⟨hnodup, hbound⟩ := hwalk.append
  refine (List.perm_ext_iff_of_nodup hnodup List.nodup_range).mpr fun i => ?_
  rw [List.mem_range]
  refine ⟨hbound i, fun hi => ?_⟩
  rw [List.mem_append, List.mem_filter, mem_byTime]
  by_cases hmem : i ∈ walk rows (rows.length + 1) [startIndex rows headExecId]
    (startIndex rows headExecId)
  · exact .inl hmem
  · exact .inr ⟨hi, by simpa using hmem⟩

theorem filterMap_range (rows : List RunChainRow) :
    (List.range rows.length).filterMap (rows[·]?) = rows := by
  induction rows with
  | nil => rfl
  | cons row rows ih =>
    rw [List.length_cons, List.range_succ_eq_map, List.filterMap_cons, List.filterMap_map]
    exact congrArg (row :: ·) ih

theorem orderedRows_perm (rows : List RunChainRow) (headExecId : Uuid) :
    ((orderRows rows headExecId).filterMap (rows[·]?)).Perm rows := by
  by_cases hne : rows = []
  · subst hne
    simp
  · have hperm := (orderRows_perm hne headExecId).filterMap (rows[·]?)
    rwa [filterMap_range] at hperm

/-! ## A chain of back-links -/

/-- The rows are one chain from its head: each later row names the row before it, and the head names
none of them. -/
structure BackLinked (chain : List RunChainRow) (headExecId : Uuid) : Prop where
  distinct : (chain.map RunChainRow.execId).Nodup
  linked : chain.IsChain fun row next => next.continuedFromExecId = some row.execId
  head : ∀ row ∈ chain.head?, row.execId = headExecId ∧
    ∀ pred ∈ row.continuedFromExecId, pred ∉ chain.map RunChainRow.execId

namespace BackLinked

variable {chain : List RunChainRow} {headExecId : Uuid}

theorem index_eq (h : BackLinked chain headExecId) {i j : ℕ} {a b : RunChainRow}
    (ha : chain[i]? = some a) (hb : chain[j]? = some b) (hid : a.execId = b.execId) : i = j := by
  obtain ⟨hi, rfl⟩ := List.getElem?_eq_some_iff.mp ha
  obtain ⟨hj, rfl⟩ := List.getElem?_eq_some_iff.mp hb
  have hmi : i < (chain.map RunChainRow.execId).length := by simpa using hi
  have hmj : j < (chain.map RunChainRow.execId).length := by simpa using hj
  have heq : (chain.map RunChainRow.execId)[i] = (chain.map RunChainRow.execId)[j] := by
    simpa using hid
  exact h.distinct.getElem_inj_iff.mp heq

/-- A row that names the row at an index is the next one. -/
theorem next_of_names (h : BackLinked chain headExecId) {k : ℕ} {row x : RunChainRow}
    (hrow : chain[k]? = some row) (hx : x ∈ chain)
    (hnames : x.continuedFromExecId = some row.execId) : chain[k + 1]? = some x := by
  obtain ⟨j, hj⟩ := List.mem_iff_getElem?.mp hx
  cases j with
  | zero =>
    -- the head names none of the rows
    have hhead : x ∈ chain.head? := by rw [List.head?_eq_getElem?]; exact hj
    exact absurd (List.mem_map_of_mem (List.mem_of_getElem? hrow))
      ((h.head x hhead).2 row.execId hnames)
  | succ j =>
    obtain ⟨hlt, rfl⟩ := List.getElem?_eq_some_iff.mp hj
    have hlink := List.isChain_iff_getElem.mp h.linked j hlt
    have hid : chain[j].execId = row.execId := Option.some.inj (hlink.symm.trans hnames)
    have hjk := h.index_eq (List.getElem?_eq_getElem (Nat.lt_of_succ_lt hlt)) hrow hid
    rw [← hjk]
    exact hj

/-- The row that follows in the chain is the one that the index finds. -/
theorem successor_eq (h : BackLinked chain headExecId) (hperm : chain.Perm rows) {k : ℕ}
    {row : RunChainRow} (hrow : chain[k]? = some row) :
    (successorByPredecessor rows row.execId).bind (rows[·]?) = chain[k + 1]? := by
  rw [successorByPredecessor_eq]
  cases hfind : rows.findIdx? fun x => x.continuedFromExecId = some row.execId with
  | none =>
    cases hnext : chain[k + 1]? with
    | none => rfl
    | some next =>
      -- the next row would have been found
      obtain ⟨hlt, rfl⟩ := List.getElem?_eq_some_iff.mp hnext
      obtain ⟨hk, rfl⟩ := List.getElem?_eq_some_iff.mp hrow
      have hlink := List.isChain_iff_getElem.mp h.linked k hlt
      have hmem : chain[k + 1] ∈ rows := hperm.mem_iff.mp (List.getElem_mem hlt)
      have hno := List.findIdx?_eq_none_iff.mp hfind _ hmem
      exact absurd hlink (of_decide_eq_false hno)
  | some i =>
    obtain ⟨hi, hnames, -⟩ := List.findIdx?_eq_some_iff_getElem.mp hfind
    have hmem : rows[i] ∈ chain := hperm.mem_iff.mpr (List.getElem_mem hi)
    rw [h.next_of_names hrow hmem (of_decide_eq_true hnames)]
    exact List.getElem?_eq_getElem hi

/-- An order of the whole chain holds every index. -/
theorem filter_unvisited (h : BackLinked chain headExecId) (hperm : chain.Perm rows)
    {ordered : List ℕ} (hdone : ordered.map (rows[·]?) = chain.map some) :
    (byTime rows).filter (· ∉ ordered) = [] := by
  have hdistinct : (rows.map RunChainRow.execId).Nodup := (hperm.map _).nodup_iff.mp h.distinct
  refine List.filter_eq_nil_iff.mpr fun i hi => ?_
  have hlt := mem_byTime.mp hi
  have hmem : some rows[i] ∈ ordered.map (rows[·]?) := by
    rw [hdone]
    exact List.mem_map_of_mem (hperm.mem_iff.mpr (List.getElem_mem hlt))
  obtain ⟨j, hj, hrow⟩ := List.mem_map.mp hmem
  obtain ⟨hjlt, hsame⟩ := List.getElem?_eq_some_iff.mp hrow
  have hmi : i < (rows.map RunChainRow.execId).length := by simpa using hlt
  have hmj : j < (rows.map RunChainRow.execId).length := by simpa using hjlt
  have heq : (rows.map RunChainRow.execId)[j] = (rows.map RunChainRow.execId)[i] := by
    simp [hsame]
  have hij := hdistinct.getElem_inj_iff.mp heq
  simpa [← hij] using hj

/-- **The walk along a chain** reaches its end. The induction is on the fuel; `k` rows of the chain
are done. -/
theorem walk_eq (h : BackLinked chain headExecId) (hperm : chain.Perm rows) {fuel k current : ℕ}
    {ordered : List ℕ} (hdone : ordered.map (rows[·]?) = (chain.take (k + 1)).map some)
    (hcurrent : rows[current]? = chain[k]?) (hk : k < chain.length) (hfuel : chain.length ≤ fuel + k) :
    (walk rows fuel ordered current).map (rows[·]?) = chain.map some := by
  induction fuel generalizing k current ordered with
  | zero => omega
  | succ fuel ih =>
    have hrow : chain[k]? = some chain[k] := List.getElem?_eq_getElem hk
    have hsucc := h.successor_eq hperm hrow
    unfold walk
    rw [hcurrent, hrow]
    dsimp only [Option.bind_some]
    cases hnext : chain[k + 1]? with
    | some next =>
      rw [hnext] at hsucc
      obtain ⟨i, hi, hget⟩ := Option.bind_eq_some_iff.mp hsucc
      have hfresh : i ∉ ordered := by
        intro hmem
        have hsome : some next ∈ (chain.take (k + 1)).map some := by
          rw [← hdone, ← hget]
          exact List.mem_map_of_mem hmem
        obtain ⟨x, hx, hxnext⟩ := List.mem_map.mp hsome
        obtain rfl := Option.some.inj hxnext
        obtain ⟨j, hj⟩ := List.mem_iff_getElem?.mp hx
        obtain ⟨hjlt, -⟩ := List.getElem?_eq_some_iff.mp hj
        rw [List.length_take] at hjlt
        rw [List.getElem?_take_of_lt (by omega)] at hj
        have := h.index_eq hj hnext rfl
        omega
      rw [hi, Option.filter_some, if_pos (by simpa using hfresh)]
      obtain ⟨hlt, -⟩ := List.getElem?_eq_some_iff.mp hnext
      have htake : chain.take (k + 1 + 1) = chain.take (k + 1) ++ [next] := by
        rw [List.take_add_one, hnext]
        rfl
      refine ih ?_ (hget.trans hnext.symm) hlt (by omega)
      rw [List.map_append, hdone, htake, List.map_append, List.map_singleton, hget]
      rfl
    | none =>
      have hlast : chain.length ≤ k + 1 := List.getElem?_eq_none_iff.mp hnext
      rw [List.take_of_length_le hlast] at hdone
      have hend : successorByPredecessor rows chain[k].execId = none := by
        cases hi : successorByPredecessor rows chain[k].execId with
        | none => rfl
        | some i =>
          rw [hnext, hi] at hsucc
          have := List.getElem?_eq_none_iff.mp hsucc
          exact absurd (successorByPredecessor_lt hi) (by omega)
      rw [hend, Option.filter_none]
      dsimp only
      rw [appendUnvisited_eq, h.filter_unvisited hperm hdone, List.append_nil]
      split_ifs
      · exact hdone
      · exact hdone

end BackLinked

theorem filterMap_of_map_eq {ordered : List ℕ} {chain : List RunChainRow}
    (h : ordered.map (rows[·]?) = chain.map some) : ordered.filterMap (rows[·]?) = chain := by
  have hid : ordered.filterMap (rows[·]?) = (ordered.map (rows[·]?)).filterMap id := by
    rw [List.filterMap_map]
    rfl
  rw [hid, h, List.filterMap_map]
  exact List.filterMap_some

/-- **A chain of back-links is ordered along its links.** -/
theorem orderRows_of_chain {chain : List RunChainRow} {headExecId : Uuid}
    (h : BackLinked chain headExecId) (hperm : chain.Perm rows) :
    (orderRows rows headExecId).filterMap (rows[·]?) = chain := by
  cases chain with
  | nil =>
    obtain rfl : rows = [] := hperm.symm.eq_nil
    simp
  | cons first rest =>
    have hlength := hperm.length_eq
    obtain ⟨hid, -⟩ := h.head first rfl
    -- the walk starts at the head of the chain
    have hstart : rows[startIndex rows headExecId]? = some first := by
      have hmem : first ∈ rows := hperm.mem_iff.mp List.mem_cons_self
      unfold startIndex
      cases hfind : rows.findIdx? fun row => row.execId = headExecId with
      | none => exact absurd hid (of_decide_eq_false (List.findIdx?_eq_none_iff.mp hfind first hmem))
      | some i =>
        obtain ⟨hi, hfound, -⟩ := List.findIdx?_eq_some_iff_getElem.mp hfind
        obtain ⟨j, hj⟩ := List.mem_iff_getElem?.mp (hperm.mem_iff.mpr (List.getElem_mem hi))
        have hids : rows[i].execId = first.execId := (of_decide_eq_true hfound).trans hid.symm
        obtain rfl := h.index_eq hj (j := 0) rfl hids
        rw [Option.getD_some, List.getElem?_eq_getElem hi]
        exact hj.symm
    have hwalk := @BackLinked.walk_eq rows (first :: rest) headExecId h hperm (rows.length + 1) 0
      (startIndex rows headExecId) [startIndex rows headExecId] (by simpa using hstart)
      (by simpa using hstart) (Nat.succ_pos _) (by omega)
    unfold orderRows
    rw [appendUnvisited_eq, h.filter_unvisited hperm hwalk, List.append_nil]
    exact filterMap_of_map_eq hwalk

/-! ## The records -/

theorem map_execId_records (seq : ℕ) (order : List RunChainRow) :
    (records seq order).map RunChainRecord.execId = order.map RunChainRow.execId := by
  induction order generalizing seq with
  | nil => rfl
  | cons row rest ih =>
    rw [records, List.map_cons, List.map_cons, ih]
    rfl

/-- **A record names a continuation** only over a link or to a row without one. -/
theorem continuedTo_of_records {seq k : ℕ} {order : List RunChainRow} {shown : RunChainRecord}
    {next : Uuid} (hshown : (records seq order)[k]? = some shown)
    (hnext : shown.continuedToExecId = some next) :
    ∃ row, order[k + 1]? = some row ∧ row.execId = next ∧
      (row.continuedFromExecId = some shown.execId ∨ row.continuedFromExecId = none) := by
  induction order generalizing seq k with
  | nil => cases hshown
  | cons row rest ih =>
    rw [records] at hshown
    cases k with
    | succ k => exact ih hshown
    | zero =>
      obtain rfl := Option.some.inj hshown
      obtain ⟨row', hrow', hlink⟩ := Option.bind_eq_some_iff.mp hnext
      refine ⟨row', by rw [← hrow', List.head?_eq_getElem?]; rfl, ?_⟩
      cases hpred : row'.continuedFromExecId with
      | none =>
        rw [hpred] at hlink
        exact ⟨Option.some.inj hlink, .inr rfl⟩
      | some pred =>
        rw [hpred] at hlink
        dsimp only at hlink
        split_ifs at hlink with hsame
        exact ⟨Option.some.inj hlink, .inl (congrArg some (not_not.mp hsame))⟩

/-- The records are those of the order. -/
theorem assembleRunChain_runs (rows : List RunChainRow) (headExecId : Uuid) :
    (assembleRunChain rows headExecId).runs =
      records 0 ((orderRows rows headExecId).filterMap (rows[·]?)) := by
  unfold assembleRunChain
  cases (orderRows rows headExecId).filterMap (rows[·]?) with
  | nil => rfl
  | cons headRow rest => rfl

/-- **A known head** has no gap behind it. -/
theorem predecessors_of_headKnown {headExecId : Uuid}
    (hknown : (assembleRunChain rows headExecId).headUnknown = false) {row : RunChainRow}
    (hrow : row ∈ rows) {pred : Uuid} (hpred : row.continuedFromExecId = some pred) :
    pred ∈ rows.map RunChainRow.execId := by
  have hmem := (orderedRows_perm rows headExecId).mem_iff.mpr hrow
  unfold assembleRunChain at hknown
  cases horder : (orderRows rows headExecId).filterMap (rows[·]?) with
  | nil =>
    rw [horder] at hmem
    cases hmem
  | cons headRow rest =>
    rw [horder] at hknown
    have hnone : anyPredecessorMissing rows = false := (Bool.or_eq_false_iff.mp hknown).2
    have hpresent := List.any_eq_false.mp hnone row hrow
    rw [hpred] at hpresent
    simpa using hpresent

end Harvest.RunChain
