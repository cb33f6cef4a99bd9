import Mathlib.Data.List.Count
import Mathlib.Tactic.Ring
import Mathlib.Algebra.BigOperators.Group.List.Basic
import Harvest.Mesh.Mandate

/-!
# Delegations of a run tree

A run delegates inline, where the child shares the counter of the run, or fans a
batch out to child runs, which count from zero under a share of what is left.
What a model asks for, what a run has spent and what the roster answers come from
outside, so a run is driven by a script of any shape (`Acts`).

Proved here:

* `spent_full`: the shares of a batch add up to what is left;
* `runActs_spec`: along every script, the counter of a run is the number of
  delegations that ran below it, its reports account for all of them, and the
  bound of its mandate holds;
* `delegation_bound`: so the bound of the root mandate holds for the whole tree.
-/

namespace Harvest.Mesh

open Harvest.Lib

/-! ## The model -/

/-- The name that a record shows for a peer name that is not valid. -/
def invalidName : String := "_invalid"

/-- A peer that runs inline or as a child run, not as a durable agent. -/
abbrev InlinePeer := { peer : Peer // peer.agent = none }

/-- An agent of the tree: its mandate, and the peers its roster lookup returned. -/
structure Member where
  mandate : Mandate
  peers : List InlinePeer

/-- One delegation of a tree. A delegation that did not run has no run id. -/
structure DelegationRecord where
  chain : List String
  runId : Option String
  refusal : Option Refusal

/-- What the agents of one run share. -/
structure RunTree where
  root : String
  delegations : U32
  records : List DelegationRecord

/-- The tree of a run that starts. -/
def rootTree (runId : String) : RunTree := ⟨runId, 0, []⟩

/-- The token cap of a child: what is left, and what the peer allows. -/
def tokenCap : Option U32 → Option U32 → Option U32
  | some left, some own => some (min left own)
  | some left, none => some left
  | none, own => own

/-- `max.saturating_sub(usage)` of an optional cap. -/
def tokensLeft (cap : Option U32) (usage : U32) : Option U32 :=
  cap.map fun max => U32.satSub max usage

/-- The mandate checks of one sibling. Returns its mandate and its peer. -/
def sibling (agent : Member) (used : U32) (name : String) :
    Except Refusal (Mandate × InlinePeer) :=
  if name ∉ agent.mandate.peers then .error .notPermitted
  else
    match agent.peers.find? (·.val.name == name) with
    | none => .error .unknownPeer
    | some peer =>
      match agent.mandate.delegate peer.val used with
      | .error refusal => .error refusal
      | .ok mandate => .ok (mandate, peer)

/-- A delegation that passed its checks. -/
structure Admitted where
  mandate : Mandate
  peer : InlinePeer
  maxTotalTokens : Option U32

/-- The checks of an inline delegation. -/
def admitPeer (agent : Member) (cap : Option U32) (usage : U32) (tree : RunTree) (name : String) :
    Except Refusal Admitted :=
  match sibling agent tree.delegations name with
  | .error refusal => .error refusal
  | .ok (mandate, peer) =>
    let childCap := tokenCap (tokensLeft cap usage) peer.val.maxTotalTokens
    -- A cap of zero would still let the child make one model call.
    if childCap = some 0 then .error .budgetExhausted else .ok ⟨mandate, peer, childCap⟩

/-- Record a refused delegation. -/
def refuseDelegation (agent : Member) (tree : RunTree) (refusal : Refusal) (name : String) :
    RunTree :=
  let shown := if validName name then name else invalidName
  { tree with records := tree.records ++ [⟨agent.mandate.chain ++ [shown], none, some refusal⟩] }

/-- The share of child `index` of `siblings` from the `remaining` of the parent. -/
def siblingCap (remaining siblings index : U32) : U32 :=
  if siblings.val = 0 then 0
  else if index.val < remaining.val % siblings.val then
    U32.ofNatSat (remaining.val / siblings.val + 1)
  else U32.ofNatSat (remaining.val / siblings.val)

mutual

/-- What an agent of a run does, one step after the other. `usage` is what the run
has spent when the step comes, `agent` the name that the call asks for (`none` when
its arguments do not decode), `roster` what the lookup of the child returns, and
`child` what the child does if it runs. -/
inductive Acts
  | stop
  | delegate (usage : U32) (agent : Option String) (roster : List InlinePeer) (child rest : Acts)
  | fanOut (usage : U32) (calls : Calls) (rest : Acts)

/-- The calls of one batch. A child run has a run id of its own. -/
inductive Calls
  | none
  | more (agent : Option String) (runId : String) (roster : List InlinePeer) (child : Acts)
      (rest : Calls)

end

/-- A run as an observer sees it: its tree, the delegations that ran below it so
far, nested ones of every child run included, and for each moment with no batch in
flight, of this run or of a child run, the counter of that run and the number of
delegations that had run below it. -/
structure Observed where
  tree : RunTree
  ran : Nat
  points : List (U32 × Nat)

/-- A moment with no batch in flight. -/
def Observed.point (o : Observed) : Observed :=
  { o with points := o.points ++ [(o.tree.delegations, o.ran)] }

/-- One more delegation ran below the run. -/
def RunTree.delegated (tree : RunTree) : RunTree :=
  { tree with delegations := U32.satAdd tree.delegations 1 }

/-- The run id of the inline child that the tree counted last. -/
def RunTree.childRunId (tree : RunTree) : String :=
  tree.root ++ ":d" ++ toString tree.delegations.val

/-- The record of a child that ended. -/
def RunTree.recordChild (tree : RunTree) (chain : List String) (runId : String) : RunTree :=
  { tree with records := tree.records ++ [⟨chain, some runId, none⟩] }

def Observed.startChild (o : Observed) : Observed :=
  { o with tree := o.tree.delegated, ran := o.ran + 1 }

def Observed.recordChild (o : Observed) (chain : List String) (runId : String) : Observed :=
  { o with tree := o.tree.recordChild chain runId }

def Observed.refuse (o : Observed) (agent : Member) (refusal : Refusal) (name : String) :
    Observed :=
  { o with tree := refuseDelegation agent o.tree refusal name }

/-- A child run of a batch that ended. Its report carries its records. -/
structure Ended where
  runId : String
  mandate : Mandate
  run : Observed

/-- The first loop of `fan_out`: check each call against the mandate. -/
def admitCalls (agent : Member) (delegations : U32) :
    Calls → (taken : Nat) → RunTree → RunTree × List (Option (Mandate × InlinePeer))
  | .none, _, tree => (tree, [])
  | .more none _ _ _ rest, taken, tree =>
    let after := admitCalls agent delegations rest taken
      (refuseDelegation agent tree .invalidArguments "")
    (after.1, Option.none :: after.2)
  | .more (some name) _ _ _ rest, taken, tree =>
    match sibling agent (U32.satAdd delegations (U32.ofNatSat taken)) name with
    | .error refusal =>
      let after := admitCalls agent delegations rest taken
        (refuseDelegation agent tree refusal name)
      (after.1, Option.none :: after.2)
    | .ok admitted =>
      let after := admitCalls agent delegations rest (taken + 1) tree
      (after.1, some admitted :: after.2)

/-- Add the report of one child run to the parent. -/
def mergeChild (tree : RunTree) (child : Ended) : RunTree :=
  let nested := child.run.tree.records.countP (·.runId.isSome)
  RunTree.recordChild
    { tree with
      delegations := U32.satAdd tree.delegations (U32.ofNatSat nested)
      records := tree.records ++ child.run.tree.records }
    child.mandate.chain child.runId

mutual

/-- Run an agent with `mandate` and its roster along a script. -/
def runActs (agent : Member) (cap : Option U32) : Acts → Observed → Observed
  | .stop, o => o.point
  | .delegate _ none _ _ rest, o =>
    runActs agent cap rest (o.point.refuse agent .invalidArguments "")
  | .delegate usage (some name) roster child rest, o =>
    match admitPeer agent cap usage o.tree name with
    | .error refusal => runActs agent cap rest (o.point.refuse agent refusal name)
    | .ok admitted =>
      -- An inline child runs on the tree of its parent, under the same bound.
      let ended := runActs ⟨admitted.mandate, roster⟩ admitted.maxTotalTokens child
        o.point.startChild
      runActs agent cap rest
        (ended.recordChild admitted.mandate.chain o.tree.delegated.childRunId)
  | .fanOut usage calls rest, o =>
    let admitted := admitCalls agent o.tree.delegations calls 0 o.tree
    let count := U32.ofNatSat (admitted.2.countP Option.isSome)
    let delegationsLeft :=
      U32.satSub agent.mandate.maxDelegations (U32.satAdd o.tree.delegations count)
    let started := startCalls agent (tokensLeft cap usage) delegationsLeft count calls
      admitted.2 0 admitted.1
    runActs agent cap rest
      { tree := started.2.foldl mergeChild started.1
        ran := o.ran + (started.2.map fun child => 1 + child.run.ran).sum
        points := o.point.points ++ started.2.flatMap (·.run.points) }

/-- The second loop of `fan_out`: give each sibling its shares, start it unless it
has no token to spend, and run it to its end. -/
def startCalls (agent : Member) (tokens : Option U32) (delegationsLeft count : U32) :
    Calls → List (Option (Mandate × InlinePeer)) → (index : Nat) → RunTree →
      RunTree × List Ended
  | .more _ runId roster child rest, some (mandate, peer) :: admitted, index, tree =>
    let share := tokens.map fun left => siblingCap left count (U32.ofNatSat index)
    let childCap := tokenCap share peer.val.maxTotalTokens
    if childCap = some 0 then
      startCalls agent tokens delegationsLeft count rest admitted (index + 1)
        (refuseDelegation agent tree .budgetExhausted peer.val.name)
    else
      -- The child run counts its own delegations from zero.
      let mandate :=
        { mandate with maxDelegations := siblingCap delegationsLeft count (U32.ofNatSat index) }
      let run := runActs ⟨mandate, roster⟩ childCap child ⟨rootTree runId, 0, []⟩
      let after := startCalls agent tokens delegationsLeft count rest admitted (index + 1)
        tree.delegated
      (after.1, ⟨runId, mandate, run⟩ :: after.2)
  | .more _ _ _ _ rest, Option.none :: admitted, index, tree =>
    startCalls agent tokens delegationsLeft count rest admitted index tree
  | _, _, _, tree => (tree, [])

end

/-! ## The shares of a batch -/

/-- What the first `index` of `siblings` children get of `remaining`. -/
def spent (remaining siblings index : Nat) : Nat :=
  index * (remaining / siblings) + min index (remaining % siblings)

/-- The share of one child, as a number. -/
theorem siblingCap_val {remaining siblings : U32} {index : Nat} (hs : 0 < siblings.val)
    (hi : index < siblings.val) :
    (siblingCap remaining siblings (U32.ofNatSat index)).val =
      remaining.val / siblings.val + if index < remaining.val % siblings.val then 1 else 0 := by
  have hle := siblings.val_le
  have hr := remaining.val_le
  have hindex : (U32.ofNatSat index).val = index := by
    rw [U32.ofNatSat_val]
    omega
  have hbase : remaining.val / siblings.val ≤ siblings.val * (remaining.val / siblings.val) :=
    Nat.le_mul_of_pos_left _ hs
  have hdm := Nat.div_add_mod remaining.val siblings.val
  unfold siblingCap
  rw [if_neg hs.ne', hindex]
  split
  · rw [U32.ofNatSat_val]
    omega
  · rw [U32.ofNatSat_val]
    omega

/-- The share of a child is what it adds to the shares before it. -/
theorem spent_succ (remaining siblings index : Nat) :
    spent remaining siblings index +
        (remaining / siblings + if index < remaining % siblings then 1 else 0)
      = spent remaining siblings (index + 1) := by
  have hmul : (index + 1) * (remaining / siblings)
      = index * (remaining / siblings) + remaining / siblings := by ring
  unfold spent
  rw [hmul]
  split <;> omega

/-- The shares of a batch add up to what is left. -/
theorem spent_full {remaining siblings : Nat} (hs : 0 < siblings) :
    spent remaining siblings siblings = remaining := by
  have hdm := Nat.div_add_mod remaining siblings
  have hlt := Nat.mod_lt remaining hs
  unfold spent
  omega

/-! ## Accounting -/

/-- The delegations that a report says ran. -/
def RunTree.ranRecords (tree : RunTree) : Nat := tree.records.countP (·.runId.isSome)

/-- The counter is the number of delegations that ran, now and at every moment
before, and the bound holds. -/
structure Accounted (bound : Nat) (o : Observed) : Prop where
  counter : o.tree.delegations.val = o.ran
  bound : o.ran ≤ bound
  points : ∀ p ∈ o.points, p.1.val = p.2

@[simp] theorem refuse_delegations (agent : Member) (tree : RunTree) (refusal : Refusal)
    (name : String) : (refuseDelegation agent tree refusal name).delegations = tree.delegations :=
  rfl

@[simp] theorem refuse_ranRecords (agent : Member) (tree : RunTree) (refusal : Refusal)
    (name : String) : (refuseDelegation agent tree refusal name).ranRecords = tree.ranRecords := by
  simp [refuseDelegation, RunTree.ranRecords]

@[simp] theorem point_tree (o : Observed) : o.point.tree = o.tree := rfl

@[simp] theorem point_ran (o : Observed) : o.point.ran = o.ran := rfl

@[simp] theorem recordChild_ranRecords (tree : RunTree) (chain : List String) (runId : String) :
    (tree.recordChild chain runId).ranRecords = tree.ranRecords + 1 := by
  simp [RunTree.recordChild, RunTree.ranRecords]

theorem delegated_val {tree : RunTree} (h : tree.delegations.val < 4294967295) :
    tree.delegated.delegations.val = tree.delegations.val + 1 := by
  have hone : ((1 : U32).val) = 1 := rfl
  simp only [RunTree.delegated, U32.satAdd_val]
  omega

theorem Accounted.refuse {bound : Nat} {o : Observed} (h : Accounted bound o) (agent : Member)
    (refusal : Refusal) (name : String) : Accounted bound (o.refuse agent refusal name) :=
  ⟨h.counter, h.bound, h.points⟩

theorem Accounted.recordChild {bound : Nat} {o : Observed} (h : Accounted bound o)
    (chain : List String) (runId : String) : Accounted bound (o.recordChild chain runId) :=
  ⟨h.counter, h.bound, h.points⟩

theorem Accounted.startChild {bound : Nat} {o : Observed} (h : Accounted bound o)
    (hroom : o.ran < bound) (hbound : bound ≤ 4294967295) : Accounted bound o.startChild where
  counter := by
    have hcounter := h.counter
    simp only [Observed.startChild]
    rw [delegated_val (by omega), hcounter]
  bound := hroom
  points := h.points

theorem Accounted.point {bound : Nat} {o : Observed} (h : Accounted bound o) :
    Accounted bound o.point where
  counter := h.counter
  bound := h.bound
  points := by
    intro p hp
    simp only [Observed.point, List.mem_append, List.mem_singleton] at hp
    rcases hp with hold | rfl
    · exact h.points p hold
    · exact h.counter

theorem sibling_ok {agent : Member} {used : U32} {name : String} {mandate : Mandate}
    {peer : InlinePeer} (h : sibling agent used name = .ok (mandate, peer)) :
    used < agent.mandate.maxDelegations ∧
      mandate.maxDelegations = agent.mandate.maxDelegations := by
  unfold sibling at h
  split at h
  · cases h
  split at h
  · cases h
  split at h
  · cases h
  rename_i mandate' hmandate
  cases h
  have hd := Mandate.delegate_ok hmandate
  exact ⟨hd.used, hd.maxDelegations⟩

theorem admitPeer_ok {agent : Member} {cap : Option U32} {usage : U32} {tree : RunTree}
    {name : String} {admitted : Admitted} (h : admitPeer agent cap usage tree name = .ok admitted) :
    tree.delegations < agent.mandate.maxDelegations ∧
      admitted.mandate.maxDelegations = agent.mandate.maxDelegations := by
  unfold admitPeer at h
  split at h
  · cases h
  rename_i mandate peer hsibling
  dsimp only at h
  split at h
  · cases h
  cases h
  exact sibling_ok hsibling

/-- The checks of a batch leave the counter alone and admit no more than the bound
leaves room for. -/
theorem admitCalls_spec (agent : Member) (delegations : U32) (calls : Calls) (taken : Nat)
    (tree : RunTree)
    (hroom : delegations.val + taken ≤ agent.mandate.maxDelegations.val) :
    (admitCalls agent delegations calls taken tree).1.delegations = tree.delegations ∧
    (admitCalls agent delegations calls taken tree).1.ranRecords = tree.ranRecords ∧
    delegations.val + taken +
        (admitCalls agent delegations calls taken tree).2.countP Option.isSome
      ≤ agent.mandate.maxDelegations.val := by
  match calls with
  | .none => exact ⟨rfl, rfl, by simpa [admitCalls] using hroom⟩
  | .more none _ _ _ rest =>
    have ih := admitCalls_spec agent delegations rest taken
      (refuseDelegation agent tree .invalidArguments "") hroom
    simpa [admitCalls] using ih
  | .more (some name) _ _ _ rest =>
    rw [admitCalls]
    split
    case h_1 refusal _ =>
      have ih := admitCalls_spec agent delegations rest taken
        (refuseDelegation agent tree refusal name) hroom
      simpa using ih
    case h_2 admitted hadmitted =>
      obtain ⟨mandate, peer⟩ := admitted
      have hused := (sibling_ok hadmitted).1
      have hmax := agent.mandate.maxDelegations.val_le
      rw [Fin.lt_def, U32.satAdd_val, U32.ofNatSat_val] at hused
      have ih := admitCalls_spec agent delegations rest (taken + 1) tree (by omega)
      refine ⟨ih.1, ih.2.1, ?_⟩
      have hcount := ih.2.2
      simp only [List.countP_cons, Option.isSome_some, ↓reduceIte]
      omega

/-- Merging the reports of a batch adds what ran in the child runs. -/
theorem merge_spec (children : List Ended) (tree : RunTree)
    (hreports : ∀ child ∈ children, child.run.tree.ranRecords = child.run.ran)
    (hroom : tree.delegations.val + (children.map (·.run.ran)).sum ≤ 4294967295) :
    (children.foldl mergeChild tree).delegations.val
        = tree.delegations.val + (children.map (·.run.ran)).sum ∧
    (children.foldl mergeChild tree).ranRecords
        = tree.ranRecords + (children.map fun child => 1 + child.run.ran).sum := by
  induction children generalizing tree with
  | nil => simp
  | cons child children ih =>
    have hreport := hreports child List.mem_cons_self
    simp only [List.map_cons, List.sum_cons] at hroom ⊢
    have hnested : (mergeChild tree child).delegations.val
        = tree.delegations.val + child.run.ran := by
      have : child.run.tree.records.countP (·.runId.isSome) = child.run.ran := hreport
      simp only [mergeChild, RunTree.recordChild, U32.satAdd_val, U32.ofNatSat_val, this]
      omega
    have hrecords : (mergeChild tree child).ranRecords = tree.ranRecords + (1 + child.run.ran) := by
      have : child.run.tree.records.countP (·.runId.isSome) = child.run.ran := hreport
      simp only [mergeChild, recordChild_ranRecords]
      simp only [RunTree.ranRecords, List.countP_append, this]
      omega
    have hrest := ih (mergeChild tree child)
      (fun other hother => hreports other (List.mem_cons_of_mem _ hother)) (by omega)
    rw [List.foldl_cons]
    omega

/-! ## Runs -/

/-- What starting the siblings of a batch does: the counter moves by one for each child
that runs, the children stay within the shares from `index` on, and their reports say
what ran in them. -/
structure Started (tree : RunTree) (admitted : List (Option (Mandate × InlinePeer)))
    (left count index : Nat) (after : RunTree × List Ended) : Prop where
  counter : after.1.delegations.val = tree.delegations.val + after.2.length
  records : after.1.ranRecords = tree.ranRecords
  children : after.2.length ≤ admitted.countP Option.isSome
  shares : spent left count index + (after.2.map (·.run.ran)).sum ≤ spent left count count
  reports : ∀ child ∈ after.2, child.run.tree.ranRecords = child.run.ran
  points : ∀ child ∈ after.2, ∀ p ∈ child.run.points, p.1.val = p.2

theorem spent_mono {remaining siblings i j : Nat} (h : i ≤ j) :
    spent remaining siblings i ≤ spent remaining siblings j := by
  have := Nat.mul_le_mul_right (remaining / siblings) h
  unfold spent
  omega

theorem sum_one_add (children : List Ended) :
    (children.map fun child => 1 + child.run.ran).sum
      = children.length + (children.map (·.run.ran)).sum := by
  induction children with
  | nil => rfl
  | cons child children ih =>
    simp only [List.map_cons, List.sum_cons, List.length_cons, ih]
    omega

/-- A batch with nothing left to start. -/
theorem Started.nil {tree : RunTree} {admitted : List (Option (Mandate × InlinePeer))}
    {left count index : Nat} (h : index ≤ count) :
    Started tree admitted left count index (tree, []) :=
  ⟨rfl, rfl, Nat.zero_le _, by simpa using spent_mono h, by simp, by simp⟩

mutual

/-- **Runs.** Along every script the counter of a run is the number of delegations
that ran below it, within the bound of its mandate, and its records account for what
it added. -/
theorem runActs_spec (agent : Member) (cap : Option U32) (acts : Acts) (o : Observed)
    (h : Accounted agent.mandate.maxDelegations.val o) :
    Accounted agent.mandate.maxDelegations.val (runActs agent cap acts o) ∧
    (runActs agent cap acts o).tree.ranRecords + o.ran
      = o.tree.ranRecords + (runActs agent cap acts o).ran := by
  match acts with
  | .stop => exact ⟨h.point, rfl⟩
  | .delegate _ none _ _ rest =>
    rw [runActs]
    have ih := runActs_spec agent cap rest _ (h.point.refuse agent .invalidArguments "")
    exact ⟨ih.1, by simpa [Observed.refuse] using ih.2⟩
  | .delegate usage (some name) roster child rest =>
    rw [runActs]
    split
    case h_1 refusal _ =>
      have ih := runActs_spec agent cap rest _ (h.point.refuse agent refusal name)
      exact ⟨ih.1, by simpa [Observed.refuse] using ih.2⟩
    case h_2 admitted hadmitted =>
      obtain ⟨hused, hsame⟩ := admitPeer_ok hadmitted
      have hroom : o.ran < agent.mandate.maxDelegations.val := by
        rw [← h.counter]
        exact Fin.lt_def.mp hused
      have hstart := h.point.startChild hroom agent.mandate.maxDelegations.val_le
      rw [← hsame] at hstart
      have hchild := runActs_spec ⟨admitted.mandate, roster⟩ admitted.maxTotalTokens child _ hstart
      dsimp only
      generalize runActs ⟨admitted.mandate, roster⟩ admitted.maxTotalTokens child
        o.point.startChild = ended at hchild ⊢
      obtain ⟨hended, hrecords⟩ := hchild
      rw [hsame] at hended
      have ih := runActs_spec agent cap rest _
        (hended.recordChild admitted.mandate.chain o.tree.delegated.childRunId)
      refine ⟨ih.1, ?_⟩
      have hrest := ih.2
      have hrec : (o.point.startChild).tree.ranRecords = o.tree.ranRecords := rfl
      have hran : (o.point.startChild).ran = o.ran + 1 := rfl
      simp only [Observed.recordChild, recordChild_ranRecords] at hrest ⊢
      omega
  | .fanOut usage calls rest =>
    rw [runActs]
    have hmax := agent.mandate.maxDelegations.val_le
    have hcounter := h.counter
    have hbound := h.bound
    have hadmit := admitCalls_spec agent o.tree.delegations calls 0 o.tree (by omega)
    generalize admitCalls agent o.tree.delegations calls 0 o.tree = admitted at hadmit ⊢
    obtain ⟨hkept, hrecords, hroom⟩ := hadmit
    set siblings := admitted.2.countP Option.isSome with hsiblings
    set count := U32.ofNatSat siblings with hcount
    set left := U32.satSub agent.mandate.maxDelegations (U32.satAdd o.tree.delegations count)
      with hleft
    have hcountVal : count.val = siblings := by
      rw [hcount, U32.ofNatSat_val]
      omega
    have hleftVal : left.val = agent.mandate.maxDelegations.val - (o.ran + siblings) := by
      rw [hleft, U32.satSub_val, U32.satAdd_val, hcountVal, hcounter]
      omega
    have hstarted := startCalls_spec agent (tokensLeft cap usage) left count calls admitted.2 0
      admitted.1 (by omega) (by rw [hkept]; omega)
    generalize startCalls agent (tokensLeft cap usage) left count calls admitted.2 0 admitted.1
      = started at hstarted ⊢
    have hshares : (started.2.map (·.run.ran)).sum ≤
        agent.mandate.maxDelegations.val - (o.ran + siblings) := by
      have hsum := hstarted.shares
      rcases Nat.eq_zero_or_pos siblings with hzero | hpos
      · have hnone : started.2 = [] := by
          have := hstarted.children
          exact List.length_eq_zero_iff.mp (by omega)
        simp [hnone]
      · rw [spent_full (by omega), hleftVal] at hsum
        omega
    have hchildren := hstarted.children
    have hcount' := hstarted.counter
    rw [hkept] at hcount'
    have hmerged := merge_spec started.2 started.1 hstarted.reports (by omega)
    have hsum := sum_one_add started.2
    have ih := runActs_spec agent cap rest
      { tree := started.2.foldl mergeChild started.1
        ran := o.ran + (started.2.map fun child => 1 + child.run.ran).sum
        points := o.point.points ++ started.2.flatMap (·.run.points) }
      ⟨by simp only; omega, by simp only; omega, by
        intro p hp
        rcases List.mem_append.mp hp with hold | hnew
        · exact h.point.points p hold
        · obtain ⟨child, hchild, hp⟩ := List.mem_flatMap.mp hnew
          exact hstarted.points child hchild p hp⟩
    refine ⟨ih.1, ?_⟩
    have hrest := ih.2
    have hstart := hstarted.records
    simp only at hrest
    omega

/-- **Batches.** -/
theorem startCalls_spec (agent : Member) (tokens : Option U32) (left count : U32) (calls : Calls)
    (admitted : List (Option (Mandate × InlinePeer))) (index : Nat) (tree : RunTree)
    (hindex : index + admitted.countP Option.isSome = count.val)
    (hroom : tree.delegations.val + admitted.countP Option.isSome ≤ 4294967295) :
    Started tree admitted left.val count.val index
      (startCalls agent tokens left count calls admitted index tree) := by
  match calls, admitted with
  | .none, admitted =>
    have heq : startCalls agent tokens left count .none admitted index tree = (tree, []) := by
      cases admitted <;> rfl
    rw [heq]
    exact .nil (by omega)
  | .more _ _ _ _ rest, [] =>
    exact .nil (by simp only [List.countP_nil] at hindex; omega)
  | .more _ _ _ _ rest, Option.none :: admitted =>
    rw [startCalls]
    have ih := startCalls_spec agent tokens left count rest admitted index tree
      (by simpa using hindex) (by simpa using hroom)
    exact ⟨ih.counter, ih.records, by simpa using ih.children, ih.shares, ih.reports, ih.points⟩
  | .more _ runId roster child rest, some (mandate, peer) :: admitted =>
    simp only [List.countP_cons, Option.isSome_some, ↓reduceIte] at hindex hroom
    rw [startCalls]
    dsimp only
    have hgrow : spent left.val count.val index ≤ spent left.val count.val (index + 1) :=
      spent_mono (Nat.le_succ index)
    split
    case isTrue =>
      have ih := startCalls_spec agent tokens left count rest admitted (index + 1)
        (refuseDelegation agent tree .budgetExhausted peer.val.name) (by omega)
        (by rw [refuse_delegations]; omega)
      have hshares := ih.shares
      refine ⟨by simpa using ih.counter, by simpa using ih.records, ?_, by omega, ih.reports,
        ih.points⟩
      have := ih.children
      simp only [List.countP_cons, Option.isSome_some, ↓reduceIte]
      omega
    case isFalse =>
      set share : Mandate :=
        { mandate with maxDelegations := siblingCap left count (U32.ofNatSat index) } with hshare
      have hrun := runActs_spec ⟨share, roster⟩
        (tokenCap (tokens.map fun left => siblingCap left count (U32.ofNatSat index))
          peer.val.maxTotalTokens) child ⟨rootTree runId, 0, []⟩
        ⟨rfl, Nat.zero_le _, by simp⟩
      generalize runActs ⟨share, roster⟩ _ child ⟨rootTree runId, 0, []⟩ = run at hrun ⊢
      obtain ⟨hrun, hrecords⟩ := hrun
      have hdelegated : tree.delegated.delegations.val = tree.delegations.val + 1 :=
        delegated_val (by omega)
      have ih := startCalls_spec agent tokens left count rest admitted (index + 1) tree.delegated
        (by omega) (by omega)
      generalize startCalls agent tokens left count rest admitted (index + 1) tree.delegated
        = after at ih ⊢
      have hcap : run.ran + spent left.val count.val index
          ≤ spent left.val count.val (index + 1) := by
        have hbound : run.ran ≤ (siblingCap left count (U32.ofNatSat index)).val := hrun.bound
        rw [siblingCap_val (by omega) (by omega)] at hbound
        have := spent_succ left.val count.val index
        omega
      have hreport : run.tree.ranRecords = run.ran := by
        simpa [rootTree, RunTree.ranRecords] using hrecords
      have hcounter := ih.counter
      have hchildren := ih.children
      have hshares := ih.shares
      refine ⟨?_, ih.records, ?_, ?_, ?_, ?_⟩
      · simp only [List.length_cons]
        omega
      · simp only [List.length_cons, List.countP_cons, Option.isSome_some, ↓reduceIte]
        omega
      · simp only [List.map_cons, List.sum_cons]
        omega
      · intro other hother
        rcases List.mem_cons.mp hother with rfl | hother
        · exact hreport
        · exact ih.reports other hother
      · intro other hother
        rcases List.mem_cons.mp hother with rfl | hother
        · exact hrun.points
        · exact ih.points other hother

end

/-- **The delegation bound holds for the whole run tree.** However the agents of a run
delegate inline and fan out, to any depth, no more delegations run in the tree than the
root mandate allows, and at every moment with no batch in flight the counter of a run is
the number of delegations that ran below it. -/
theorem delegation_bound (runId : String) (agent : Member) (cap : Option U32) (acts : Acts) :
    let run := runActs agent cap acts ⟨rootTree runId, 0, []⟩
    run.ran ≤ agent.mandate.maxDelegations.val ∧
    ∀ moment ∈ run.points, moment.1.val = moment.2 := by
  intro run
  have hstart : Accounted agent.mandate.maxDelegations.val ⟨rootTree runId, 0, []⟩ :=
    ⟨rfl, Nat.zero_le _, by simp⟩
  have hrun := (runActs_spec agent cap acts _ hstart).1
  exact ⟨hrun.bound, hrun.points⟩

end Harvest.Mesh
