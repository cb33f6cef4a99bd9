import Harvest.Dag.Walk

/-!
# The unwind of a failed DAG

Model of the second half of `run_unified_dag` and of `unwind_dag_compensations` in `dag.rs`, with
the compensation loop of `saga.rs`. How a list of texts is printed in an error is a parameter.

Proved here:
* `runCompensations_eq`: every compensation is attempted, the last pushed first.
* `mem_toCompensate`: which nodes are compensated.
* `toCompensate_order`: a node that depends on another is compensated first.
* `failed_dag_is_compensated`: a failed DAG is compensated in reverse dependency order.
-/

namespace Harvest.Dag

open Harvest.Lib

/-- `Saga`'s stack: what was pushed last is at the end. -/
abbrev Compensations := List (Nat × ActivityCall)

/-- One compensation of the loop of `run_compensations`: the calls so far and the errors. -/
def attempt (engine : Engine) (acc : Compensations × List String) (top : Nat × ActivityCall) :
    Compensations × List String :=
  (acc.1 ++ [top],
    match engine.compensation top.1 top.2 with
    | .ok _ => acc.2
    | .error error => acc.2 ++ [error.toText])

/-- `run_compensations`: pop until the stack is empty. -/
def runCompensations (engine : Engine) (stack : Compensations) : Compensations × List String :=
  stack.reverse.foldl (attempt engine) ([], [])

/-- The text of `HarvestError::SagaCompensationFailed`. -/
def sagaCompensationFailed (debug : List String → String) (original : String)
    (compensationErrors : List String) : String :=
  "saga compensation failed after original error: " ++ original ++ "; compensation errors: " ++
    debug compensationErrors

/-- What a run returns, and the compensators it dispatched, in their order. -/
structure RunOutcome where
  result : Except String Json
  compensators : Compensations

def compensationCall (task : DagTask) (compensator : String) (input output : Json) :
    ActivityCall where
  name := compensator
  input := .obj (Json.ofPairs
    [("dag_compensate", .str task.activityName), ("input", input), ("output", output)])
  queue := task.queue.getD ""
  startToClose := none

/-- The compensation that is pushed for a node, if one is. -/
def pushFor (tasks : List DagTask) (st : WalkState) (i : Nat) : Option (Nat × ActivityCall) :=
  if st.statuses i ≠ .succeeded then none
  else if ! st.dispatchedForward i then none
  else
    tasks[i]?.bind fun task => task.compensate.map fun compensator =>
      (i, compensationCall task compensator (st.inputs i) (st.outputs i))

def unwindDagCompensations (debug : List String → String) (engine : Engine) (dag : DagDefinition)
    (st : WalkState) (original : String) : RunOutcome :=
  let stack := dag.executionLevels.flatten.filterMap (pushFor dag.tasks st)
  let ran := runCompensations engine stack
  ⟨.error (if ran.2.isEmpty then original else sagaCompensationFailed debug original ran.2), ran.1⟩

def runUnifiedDag (debug : List String → String) (engine : Engine) (dag : DagDefinition)
    (input : Json) : RunOutcome :=
  match walk engine dag input with
  | .error error => ⟨.error error, []⟩
  | .ok st =>
    if (List.range dag.tasks.length).any fun i => st.statuses i = .failed then
      let original := st.shapeFailure.getD "one or more DAG tasks failed"
      if engine.isCancelled then ⟨.error original, []⟩
      else unwindDagCompensations debug engine dag st original
    else ⟨.ok .null, []⟩

/-! ## The compensation loop -/

theorem foldl_attempt (engine : Engine) (stack : Compensations) :
    ∀ acc : Compensations × List String, (stack.foldl (attempt engine) acc).1 = acc.1 ++ stack ∧
      ((stack.foldl (attempt engine) acc).2 = [] ↔
        acc.2 = [] ∧ ∀ top ∈ stack, (engine.compensation top.1 top.2).isOk) := by
  induction stack with
  | nil =>
    intro acc
    simp
  | cons top stack ih =>
    intro acc
    obtain ⟨hcalls, herrors⟩ := ih (attempt engine acc top)
    rw [List.foldl_cons]
    constructor
    · rw [hcalls, attempt, List.append_assoc, List.singleton_append]
    · rw [herrors, List.forall_mem_cons, ← and_assoc]
      refine and_congr_left fun _ => ?_
      unfold attempt
      cases engine.compensation top.1 top.2 with
      | ok v => simp [Except.isOk, Except.toBool]
      | error error => simp [Except.isOk, Except.toBool]

/-- **Every compensation is attempted, the last pushed first**, and there is no error exactly if all
succeed. -/
theorem runCompensations_eq (engine : Engine) (stack : Compensations) :
    (runCompensations engine stack).1 = stack.reverse ∧
      ((runCompensations engine stack).2 = [] ↔
        ∀ top ∈ stack, (engine.compensation top.1 top.2).isOk) := by
  obtain ⟨hcalls, herrors⟩ := foldl_attempt engine stack.reverse ([], [])
  refine ⟨hcalls, herrors.trans ?_⟩
  simp

theorem sagaCompensationFailed_ne (debug : List String → String) (original : String)
    (errors : List String) : sagaCompensationFailed debug original errors ≠ original := by
  intro heq
  have hlength := congrArg String.length heq
  unfold sagaCompensationFailed at hlength
  simp only [String.length_append] at hlength
  have hpositive : 0 < "saga compensation failed after original error: ".length := by decide
  omega

/-! ## Which nodes are compensated, and in which order -/

section Nodes

variable {tasks : List DagTask} {st : WalkState} {i : Nat}

theorem pushFor_eq_some {c : Nat × ActivityCall} : pushFor tasks st i = some c ↔
    ∃ task compensator, tasks[i]? = some task ∧ task.compensate = some compensator ∧
      st.statuses i = .succeeded ∧ st.dispatchedForward i = true ∧
      c = (i, compensationCall task compensator (st.inputs i) (st.outputs i)) := by
  unfold pushFor
  by_cases hstatus : st.statuses i = .succeeded
  · rw [if_neg (not_not.mpr hstatus)]
    cases hdispatched : st.dispatchedForward i with
    | false => simp
    | true =>
      simp only [Bool.not_true, Bool.false_eq_true, if_false, Option.bind_eq_some_iff,
        Option.map_eq_some_iff, hstatus, true_and]
      constructor
      · rintro ⟨task, htask, compensator, hcompensator, rfl⟩
        exact ⟨task, compensator, htask, hcompensator, rfl⟩
      · rintro ⟨task, compensator, htask, hcompensator, rfl⟩
        exact ⟨task, htask, compensator, hcompensator, rfl⟩
  · rw [if_pos hstatus]
    simp [hstatus]

theorem map_fst_pushFor (order : List Nat) : (order.filterMap (pushFor tasks st)).map Prod.fst =
    order.filter fun i => (pushFor tasks st i).isSome := by
  induction order with
  | nil => rfl
  | cons i order ih =>
    cases hpush : pushFor tasks st i with
    | none => rw [List.filterMap_cons_none hpush, ih, List.filter_cons_of_neg (by simp [hpush])]
    | some c =>
      obtain ⟨task, compensator, -, -, -, -, rfl⟩ := pushFor_eq_some.mp hpush
      rw [List.filterMap_cons_some hpush, List.map_cons, ih,
        List.filter_cons_of_pos (by simp [hpush])]

/-- A pushed compensator carries its own node. -/
theorem mem_filterMap_pushFor {order : List Nat} (horder : ∀ i < tasks.length, i ∈ order)
    {call : ActivityCall} : (i, call) ∈ order.filterMap (pushFor tasks st) ↔
      pushFor tasks st i = some (i, call) := by
  rw [List.mem_filterMap]
  constructor
  · rintro ⟨j, -, hpush⟩
    obtain ⟨task, compensator, -, -, -, -, heq⟩ := pushFor_eq_some.mp hpush
    rw [Prod.mk.injEq] at heq
    rwa [← heq.1] at hpush
  · intro hpush
    obtain ⟨task, compensator, htask, -⟩ := pushFor_eq_some.mp hpush
    exact ⟨i, horder i (List.getElem?_eq_some_iff.mp htask).1, hpush⟩

/-- **A node that depends on another is compensated first.** -/
theorem reverse_filter_order {preds : Nat → List Nat} {order : List Nat} {p : Nat → Bool}
    (h : Sequenced preds order) {i j : Nat} (hi : i ∈ (order.filter p).reverse)
    (hj : j ∈ (order.filter p).reverse)
    (hreach : Relation.TransGen (fun u t => u ∈ preds t) j i) :
    ∃ x y z, (order.filter p).reverse = x ++ i :: y ++ j :: z := by
  rw [List.mem_reverse, List.mem_filter] at hi hj
  obtain ⟨before, after, hsplit⟩ := List.append_of_mem hi.1
  obtain ⟨first, second, rfl⟩ :=
    List.append_of_mem (h.before_of_transGen hsplit hreach)
  refine ⟨(after.filter p).reverse, (second.filter p).reverse, (first.filter p).reverse, ?_⟩
  rw [hsplit]
  simp [List.filter_append, hi.2, hj.2]

end Nodes

/-- What the run of a failed DAG that is not cancelled amounts to. -/
theorem runUnifiedDag_eq {debug : List String → String} {engine : Engine} {dag : DagDefinition}
    {input : Json} {st : WalkState} (hwalk : walk engine dag input = .ok st)
    (hfailed : ∃ i < dag.tasks.length, st.statuses i = .failed)
    (hrunning : engine.isCancelled = false) :
    runUnifiedDag debug engine dag input = unwindDagCompensations debug engine dag st
      (st.shapeFailure.getD "one or more DAG tasks failed") := by
  have hany : ((List.range dag.tasks.length).any fun i => st.statuses i = .failed) = true := by
    obtain ⟨i, hi, hstatus⟩ := hfailed
    exact List.any_eq_true.mpr ⟨i, List.mem_range.mpr hi, decide_eq_true hstatus⟩
  rw [runUnifiedDag, hwalk]
  dsimp only
  rw [if_pos hany, hrunning, if_neg Bool.false_ne_true]

/-- The unwind runs the pushed compensators last to first, and returns the error it was given
exactly if all of them succeed. -/
theorem unwindDagCompensations_spec (debug : List String → String) (engine : Engine)
    (dag : DagDefinition) (st : WalkState) (original : String) :
    let outcome := unwindDagCompensations debug engine dag st original
    outcome.compensators =
      (dag.executionLevels.flatten.filterMap (pushFor dag.tasks st)).reverse ∧
    ∃ error, outcome.result = .error error ∧
      (error = original ↔ ∀ c ∈ outcome.compensators, (engine.compensation c.1 c.2).isOk) := by
  obtain ⟨hcalls, herrors⟩ := runCompensations_eq engine
    (dag.executionLevels.flatten.filterMap (pushFor dag.tasks st))
  intro outcome
  have hcompensators : outcome.compensators =
      (dag.executionLevels.flatten.filterMap (pushFor dag.tasks st)).reverse := hcalls
  refine ⟨hcompensators, _, rfl, ?_⟩
  rw [hcompensators]
  simp only [List.mem_reverse]
  rw [← herrors]
  constructor
  · intro heq
    by_contra hne
    rw [if_neg fun hempty => hne (List.isEmpty_iff.mp hempty)] at heq
    exact sagaCompensationFailed_ne debug _ _ heq
  · intro hnone
    rw [if_pos (List.isEmpty_iff.mpr hnone)]

/-- **A failed DAG is compensated in reverse dependency order.** The compensators are those of the
nodes that succeeded and made forward calls, each once, with what the node was called with and its
output; which they are does not depend on what compensators answer; and the original error is
returned exactly if all of them succeed. -/
theorem failed_dag_is_compensated (debug : List String → String) (engine : Engine)
    (tasks : List DagTask) (dag : DagDefinition) (input : Json) (st : WalkState)
    (hbuild : build tasks = some (.ok dag)) (hwalk : walk engine dag input = .ok st)
    (hfailed : ∃ i < tasks.length, st.statuses i = .failed)
    (hrunning : engine.isCancelled = false) :
    let outcome := runUnifiedDag debug engine dag input
    (outcome.compensators.map Prod.fst).Nodup ∧
    (∀ i call, (i, call) ∈ outcome.compensators ↔
      ∃ task compensator, tasks[i]? = some task ∧ task.compensate = some compensator ∧
        st.statuses i = .succeeded ∧ st.forward i ≠ [] ∧
        call = compensationCall task compensator (st.inputs i) (st.outputs i)) ∧
    (∀ i ∈ outcome.compensators.map Prod.fst, InputKept engine tasks st i (st.outputs i)) ∧
    (∀ i ∈ outcome.compensators.map Prod.fst, ∀ j ∈ outcome.compensators.map Prod.fst,
      Relation.TransGen (fun u t => u ∈ upstreamsOf tasks t) j i →
        ∃ x y z, outcome.compensators.map Prod.fst = x ++ i :: y ++ j :: z) ∧
    (∀ other, (runUnifiedDag debug { engine with compensation := other } dag input).compensators =
      outcome.compensators) ∧
    ∃ error, outcome.result = .error error ∧
      (error = st.shapeFailure.getD "one or more DAG tasks failed" ↔
        ∀ c ∈ outcome.compensators, (engine.compensation c.1 c.2).isOk) := by
  obtain ⟨htasks, -, hschedule⟩ := build_schedule hbuild
  subst htasks
  have hseq := hschedule.sequenced
  have hrecorded := walk_recorded hseq.nodup hwalk
  intro outcome
  have hrun : outcome = unwindDagCompensations debug engine dag st
      (st.shapeFailure.getD "one or more DAG tasks failed") :=
    runUnifiedDag_eq hwalk hfailed hrunning
  obtain ⟨hcompensators, herror⟩ := unwindDagCompensations_spec debug engine dag st
    (st.shapeFailure.getD "one or more DAG tasks failed")
  rw [← hrun] at hcompensators herror
  have hkeys : outcome.compensators.map Prod.fst =
      (dag.executionLevels.flatten.filter fun i =>
        (pushFor dag.tasks st i).isSome).reverse := by
    rw [hcompensators, List.map_reverse, map_fst_pushFor]
  have hmem : ∀ i call, (i, call) ∈ outcome.compensators ↔
      pushFor dag.tasks st i = some (i, call) := by
    intro i call
    rw [hcompensators, List.mem_reverse]
    exact mem_filterMap_pushFor fun i hi => hschedule.perm.symm.subset (List.mem_range.mpr hi)
  refine ⟨?_, ?_, ?_, ?_, ?_, herror⟩
  · rw [hkeys, List.nodup_reverse]
    exact hseq.nodup.filter _
  · intro i call
    rw [hmem, pushFor_eq_some]
    refine exists₂_congr fun task compensator => ?_
    refine and_congr_right fun _ => and_congr_right fun _ => and_congr_right fun hstatus => ?_
    rw [(hrecorded i hstatus).1, Prod.mk.injEq, and_iff_right rfl]
  · intro i hi
    obtain ⟨⟨j, call⟩, hc, rfl⟩ := List.mem_map.mp hi
    obtain ⟨task, compensator, htask, hcompensate, hstatus, hdispatched, -⟩ :=
      pushFor_eq_some.mp ((hmem j call).mp hc)
    refine (hrecorded j hstatus).2 hdispatched ?_
    rw [compensateOf, htask, Option.bind_some, hcompensate]
    rfl
  · intro i hi j hj hreach
    rw [hkeys] at hi hj ⊢
    exact reverse_filter_order hseq hi hj hreach
  · intro other
    have hsame : walk { engine with compensation := other } dag input = .ok st := hwalk
    rw [runUnifiedDag_eq hsame hfailed hrunning, hcompensators]
    exact (runCompensations_eq _ _).1

/-- A charge that succeeds, a shipment that fails, and a refund that succeeds. -/
def shipEngine : Engine where
  activity t _ := if t = 0 then .ok (.str "receipt") else .error (.activityFailed "failed" "lost")
  instance_ _ _ _ := .ok .null
  arrivals _ n := List.range n
  arrivals_perm _ _ := List.Perm.refl _
  compensation _ _ := .ok .null
  waitForSignal _ := .ok .null
  waitForSignalTimeout _ := .ok none
  dagSkipMarker _ := .ok ()
  isCancelled := false

theorem refund_of_failed_shipment :
    let tasks : List DagTask :=
      [{ DagTask.activity "charge" [] with compensate := some "refund" }, .activity "ship" [0]]
    let dag : DagDefinition := ⟨tasks, [[0], [1]]⟩
    ∃ st, build tasks = some (.ok dag) ∧ walk shipEngine dag .null = .ok st ∧
      st.statuses 1 = .failed ∧
      (runUnifiedDag (fun _ => "") shipEngine dag .null).compensators.map (fun c => c.2.name) =
        ["refund"] ∧
      ∃ error, (runUnifiedDag (fun _ => "") shipEngine dag .null).result = .error error ∧
        (error = st.shapeFailure.getD "one or more DAG tasks failed" ↔
          ∀ c ∈ (runUnifiedDag (fun _ => "") shipEngine dag .null).compensators,
            (shipEngine.compensation c.1 c.2).isOk) := by
  intro tasks dag
  have hbuild : build tasks = some (.ok dag) := rfl
  refine ⟨_, hbuild, rfl, rfl, rfl, ?_⟩
  exact (failed_dag_is_compensated (fun _ => "") shipEngine tasks dag .null _ hbuild rfl
    ⟨1, by decide, rfl⟩ rfl).2.2.2.2.2

end Harvest.Dag
