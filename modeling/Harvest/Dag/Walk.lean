import Harvest.Lib.Run
import Harvest.Dag.Build

/-!
# The walk over a DAG's levels

Model of the forward half of `run_unified_dag` in `dag.rs`. What the engine answers to a call is a
parameter of the run; an error that the walk does not handle ends it.

Proved here:
* `runMapped_launch`, `runActivity_launch`: what a node reports about the calls it made.
* `prepare_step`, `settle_step`, `runGate_step`: what one step records, and that it records nothing
  about other nodes.
* `walk_recorded`: after the walk, a node that succeeded has dispatched exactly if it made a call,
  and its kept input is what it was called with.
-/

namespace Harvest.Dag

open Harvest.Lib

/-- The errors that the walk tells apart, with their texts. -/
inductive HarvestError
  | activityFailed (text source : String)
  | timeout (text : String)
  | payloadTooLarge (text : String)
  | payloadTooDeep (text : String)
  | other (text : String)
deriving DecidableEq, Repr

namespace HarvestError

def toText : HarvestError → String
  | .activityFailed text _ => text
  | .timeout text => text
  | .payloadTooLarge text => text
  | .payloadTooDeep text => text
  | .other text => text

/-- `is_deterministic_dispatch_rejection` -/
def isDeterministicDispatchRejection : HarvestError → Bool
  | .payloadTooLarge _ => true
  | .payloadTooDeep _ => true
  | _ => false

end HarvestError

/-- The arguments of `execute_activity_raw_with_opts`. -/
structure ActivityCall where
  name : String
  input : Json
  queue : String
  startToClose : Option Duration

/-- What the engine answers. A node is named by its index, an instance of a mapped node by its
number. `arrivals` is the order in which the instances of a mapped node finish. -/
structure Engine where
  activity : Nat → ActivityCall → Except HarvestError Json
  instance_ : Nat → Nat → ActivityCall → Except HarvestError Json
  arrivals : Nat → Nat → List Nat
  arrivals_perm : ∀ t n, (arrivals t n).Perm (List.range n)
  compensation : Nat → ActivityCall → Except HarvestError Json
  waitForSignal : Nat → Except HarvestError Json
  waitForSignalTimeout : Nat → Except HarvestError (Option Json)
  dagSkipMarker : Nat → Except HarvestError Unit
  isCancelled : Bool

/-- The result of one node of a level. -/
structure NodeRun where
  status : TaskStatus
  output : Json
  dispatchedForward : Bool
  shapeFailureReason : Option String

/-- What the walk keeps of each node. `forward` lists the calls that a node made to the engine. -/
structure WalkState where
  statuses : Nat → TaskStatus
  outputs : Nat → Json
  inputs : Nat → Json
  dispatchedForward : Nat → Bool
  shapeFailure : Option String
  forward : Nat → List ActivityCall

def WalkState.init : WalkState where
  statuses _ := .skipped
  outputs _ := .null
  inputs _ := .null
  dispatchedForward _ := false
  shapeFailure := none
  forward _ := []

/-! ## Inputs -/

def bindActivityInput (outputs : Nat → Json) : DagInputBinding → Json
  | .single index => outputs index
  | .merged sources =>
    .obj (sources.foldl (fun fields source =>
      Json.insertField source.key (outputs source.upstreamIndex) fields) [])

def isMappedAt (tasks : List DagTask) (t : Nat) : Bool :=
  (tasks[t]?.map (·.mapUpstream.isSome)).getD false

/-- The input of a node that is not mapped: its binding, else the output of its first mapped
upstream, else the input of the run with the node's name. -/
def resolveInput (tasks : List DagTask) (input : Json) (outputs : Nat → Json) (task : DagTask) :
    Json :=
  match task.inputFrom with
  | some binding => bindActivityInput outputs binding
  | none =>
    match task.upstreams.find? (isMappedAt tasks) with
    | some up => outputs up
    | none =>
      match input with
      | .obj fields => .obj (Json.insertField "dag_task" (.str task.activityName) fields)
      | conf => .obj (Json.ofPairs [("conf", conf), ("dag_task", .str task.activityName)])

def DagTask.call (task : DagTask) (input : Json) : ActivityCall :=
  ⟨task.activityName, input, task.queue.getD "", task.startToClose⟩

/-! ## One node -/

def runActivity (engine : Engine) (t : Nat) (call : ActivityCall) : Except String NodeRun :=
  match engine.activity t call with
  | .ok v => .ok ⟨.succeeded, v, true, none⟩
  | .error (.activityFailed _ _) => .ok ⟨.failed, .null, true, none⟩
  | .error (.timeout _) => .ok ⟨.failed, .null, true, none⟩
  | .error error =>
    if error.isDeterministicDispatchRejection then
      .ok ⟨.failed, .null, false, some error.toText⟩
    else .error error.toText

/-- What the instances of a mapped node have reported so far. -/
structure MapProgress where
  results : List Json
  status : TaskStatus
  shapeReason : Option String

/-- An instance of a fail-fast node has finished. -/
def takeFailFast (engine : Engine) (t : Nat) (calls : List ActivityCall) (progress : MapProgress)
    (i : Nat) : Except String MapProgress :=
  match calls[i]? with
  | none => .ok progress
  | some call =>
    match engine.instance_ t i call with
    | .ok v => .ok { progress with results := progress.results.set i v }
    | .error (.activityFailed _ _) => .ok { progress with status := .failed }
    | .error (.timeout _) => .ok { progress with status := .failed }
    | .error error =>
      if error.isDeterministicDispatchRejection then
        .ok { progress with
          status := .failed
          shapeReason := progress.shapeReason.or (some error.toText) }
      else .error error.toText

def cellSucceeded (v : Json) : Json :=
  .obj (Json.ofPairs [("status", .str "succeeded"), ("value", v)])

def cellFailed (error : String) : Json :=
  .obj (Json.ofPairs [("status", .str "failed"), ("error", .str error)])

/-- An instance of a collecting node, in the order of the instances. -/
def takeCollect (engine : Engine) (t : Nat) (calls : List ActivityCall) (progress : MapProgress)
    (i : Nat) : Except String MapProgress :=
  match calls[i]? with
  | none => .ok progress
  | some call =>
    match engine.instance_ t i call with
    | .ok v => .ok { progress with results := progress.results.set i (cellSucceeded v) }
    | .error (.activityFailed _ source) =>
      .ok { progress with results := progress.results.set i (cellFailed source) }
    | .error (.timeout text) =>
      .ok { progress with results := progress.results.set i (cellFailed text) }
    | .error error =>
      if error.isDeterministicDispatchRejection then
        .ok { progress with
          status := .failed
          shapeReason := progress.shapeReason.or (some error.toText) }
      else .error error.toText

def runInstances (engine : Engine) (t : Nat) (policy : MapFailurePolicy)
    (calls : List ActivityCall) : Except String MapProgress :=
  let start : MapProgress := ⟨calls.map fun _ => .null, .succeeded, none⟩
  match policy with
  | .failFast => (engine.arrivals t calls.length).foldlM (takeFailFast engine t calls) start
  | .collectAll => (List.range calls.length).foldlM (takeCollect engine t calls) start

/-- A mapped node over the output of its upstream, and the calls of its instances. -/
def mappedCalls (task : DagTask) : Json → List ActivityCall
  | .arr items => items.map task.call
  | _ => []

def runMapped (engine : Engine) (t : Nat) (task : DagTask) (upstreamVal : Json) :
    Except String NodeRun :=
  match upstreamVal with
  | .arr [] => .ok ⟨.succeeded, .arr [], false, none⟩
  | .arr (item :: items) => do
    let progress ← runInstances engine t task.mapFailurePolicy ((item :: items).map task.call)
    let output := if progress.status = .succeeded then .arr progress.results else .null
    .ok ⟨progress.status, output, true, progress.shapeReason⟩
  | _ => .ok ⟨.failed, .null, false, some "mapped upstream output is not a JSON array"⟩

/-! ## One level -/

def WalkState.setStatus (st : WalkState) (t : Nat) (status : TaskStatus) : WalkState :=
  { st with statuses := Function.update st.statuses t status }

/-- The kept input of a node, which only a node with a compensator has, and its calls. -/
def WalkState.launch (st : WalkState) (t : Nat) (task : DagTask) (input : Json)
    (calls : List ActivityCall) : WalkState :=
  { st with
    inputs := if task.compensate.isSome then Function.update st.inputs t input else st.inputs
    forward := Function.update st.forward t calls }

/-- The first pass over a level: decide, resolve the input, and start the node. -/
def prepare (engine : Engine) (tasks : List DagTask) (input : Json)
    (acc : WalkState × List (Nat × Except String NodeRun)) (t : Nat) :
    Except String (WalkState × List (Nat × Except String NodeRun)) :=
  match tasks[t]? with
  | none => .ok acc
  | some task =>
    match task.dispatchDecision acc.1.statuses acc.1.outputs with
    | .skipByTriggerRule => .ok (acc.1.setStatus t .skipped, acc.2)
    | .skipByCondition =>
      match engine.dagSkipMarker t with
      | .error error => .error error.toText
      | .ok () => .ok (acc.1.setStatus t .skipped, acc.2)
    | .run =>
      match task.mapUpstream with
      | some up =>
        let upstreamVal := acc.1.outputs up
        .ok (acc.1.launch t task upstreamVal (mappedCalls task upstreamVal),
          acc.2 ++ [(t, runMapped engine t task upstreamVal)])
      | none =>
        let activityInput := resolveInput tasks input acc.1.outputs task
        .ok (acc.1.launch t task activityInput [task.call activityInput],
          acc.2 ++ [(t, runActivity engine t (task.call activityInput))])

/-- The second pass: record the results in the order of the level. -/
def settle (st : WalkState) (result : Nat × Except String NodeRun) : Except String WalkState :=
  match result.2 with
  | .error error => .error error
  | .ok run =>
    .ok { st with
      statuses := Function.update st.statuses result.1 run.status
      outputs := Function.update st.outputs result.1 run.output
      dispatchedForward := Function.update st.dispatchedForward result.1 run.dispatchedForward
      shapeFailure := st.shapeFailure.or run.shapeFailureReason }

def waitGate (engine : Engine) (t : Nat) (gate : DagSignalGate) :
    Except HarvestError (TaskStatus × Json) :=
  match gate.timeout with
  | some _ =>
    match engine.waitForSignalTimeout t with
    | .error error => .error error
    | .ok (some payload) => .ok (.succeeded, payload)
    | .ok none =>
      match gate.onTimeout with
      | .failRun => .ok (.failed, .null)
      | .continue => .ok (.succeeded, .null)
  | none =>
    match engine.waitForSignal t with
    | .error error => .error error
    | .ok payload => .ok (.succeeded, payload)

def runGate (engine : Engine) (task : DagTask) (gate : DagSignalGate) (st : WalkState) (t : Nat) :
    Except String WalkState :=
  match task.dispatchDecision st.statuses st.outputs with
  | .skipByTriggerRule => .ok (st.setStatus t .skipped)
  | .skipByCondition =>
    match engine.dagSkipMarker t with
    | .error error => .error error.toText
    | .ok () => .ok (st.setStatus t .skipped)
  | .run =>
    match waitGate engine t gate with
    | .error error => .error error.toText
    | .ok (status, val) =>
      .ok { st with
        statuses := Function.update st.statuses t status
        outputs := Function.update st.outputs t val }

/-- The first gate of a level, with its task. -/
def gateOf (tasks : List DagTask) (level : List Nat) : Option (Nat × DagTask × DagSignalGate) :=
  level.findSome? fun t =>
    tasks[t]?.bind fun task => task.signal.map fun gate => (t, task, gate)

def runLevel (engine : Engine) (tasks : List DagTask) (input : Json) (st : WalkState)
    (level : List Nat) : Except String WalkState :=
  match gateOf tasks level with
  | some (t, task, gate) => runGate engine task gate st t
  | none =>
    match level.foldlM (prepare engine tasks input) (st, []) with
    | .error error => .error error
    | .ok (st, results) => results.foldlM settle st

/-- The walk. An error is one that escapes it. -/
def walk (engine : Engine) (dag : DagDefinition) (input : Json) : Except String WalkState :=
  dag.executionLevels.foldlM (runLevel engine dag.tasks input) WalkState.init

/-! ## What is kept of a node -/

def compensateOf (tasks : List DagTask) (t : Nat) : Option String :=
  tasks[t]?.bind (·.compensate)

/-- The kept input of a node is what it was called with, and the output of a node that is not
mapped is the answer. -/
def InputKept (engine : Engine) (tasks : List DagTask) (st : WalkState) (t : Nat) (output : Json) :
    Prop :=
  if isMappedAt tasks t then st.inputs t = .arr ((st.forward t).map (·.input))
  else ∃ call, st.forward t = [call] ∧ call.input = st.inputs t ∧
    engine.activity t call = .ok output

/-- A success that reports forward work has made a call, and no other has. -/
def Reported (engine : Engine) (tasks : List DagTask) (st : WalkState) (t : Nat)
    (dispatched : Bool) (output : Json) : Prop :=
  (dispatched = true ↔ st.forward t ≠ []) ∧
    (dispatched = true → (compensateOf tasks t).isSome → InputKept engine tasks st t output)

def Recorded (engine : Engine) (tasks : List DagTask) (st : WalkState) (t : Nat) : Prop :=
  st.statuses t = .succeeded →
    Reported engine tasks st t (st.dispatchedForward t) (st.outputs t)

structure Untouched (st : WalkState) (t : Nat) : Prop where
  status : st.statuses t = .skipped
  dispatched : st.dispatchedForward t = false
  forward : st.forward t = []

/-- Two states keep the same of a node. -/
structure SameAt (st st' : WalkState) (t : Nat) : Prop where
  status : st'.statuses t = st.statuses t
  output : st'.outputs t = st.outputs t
  input : st'.inputs t = st.inputs t
  dispatched : st'.dispatchedForward t = st.dispatchedForward t
  forward : st'.forward t = st.forward t

section Kept

variable {engine : Engine} {tasks : List DagTask} {st st' st'' : WalkState} {t : Nat}

theorem SameAt.refl (st : WalkState) (t : Nat) : SameAt st st t := ⟨rfl, rfl, rfl, rfl, rfl⟩

theorem SameAt.trans (h : SameAt st st' t) (h' : SameAt st' st'' t) : SameAt st st'' t where
  status := h'.status.trans h.status
  output := h'.output.trans h.output
  input := h'.input.trans h.input
  dispatched := h'.dispatched.trans h.dispatched
  forward := h'.forward.trans h.forward

theorem SameAt.untouched (h : SameAt st st' t) (hst : Untouched st t) : Untouched st' t where
  status := h.status.trans hst.status
  dispatched := h.dispatched.trans hst.dispatched
  forward := h.forward.trans hst.forward

theorem Reported.congr {dispatched : Bool} {output : Json}
    (h : Reported engine tasks st t dispatched output) (hinput : st'.inputs t = st.inputs t)
    (hforward : st'.forward t = st.forward t) :
    Reported engine tasks st' t dispatched output := by
  unfold Reported InputKept at *
  rw [hinput, hforward]
  exact h

theorem SameAt.recorded (h : SameAt st st' t) (hst : Recorded engine tasks st t) :
    Recorded engine tasks st' t := by
  intro hstatus
  rw [h.status] at hstatus
  rw [h.dispatched, h.output]
  exact (hst hstatus).congr h.input h.forward

theorem Untouched.recorded (h : Untouched st t) : Recorded engine tasks st t := by
  intro hstatus
  rw [h.status] at hstatus
  cases hstatus

/-- A node that made no call reports no forward work. -/
theorem Untouched.reported (h : Untouched st t) (output : Json) :
    Reported engine tasks st t (st.dispatchedForward t) output := by
  rw [Reported, h.dispatched, h.forward]
  exact ⟨⟨fun hfalse => absurd hfalse Bool.false_ne_true, fun hne => absurd rfl hne⟩,
    fun hfalse => absurd hfalse Bool.false_ne_true⟩

theorem setStatus_sameAt (st : WalkState) {t s : Nat} (status : TaskStatus) (h : s ≠ t) :
    SameAt st (st.setStatus t status) s :=
  ⟨Function.update_of_ne h _ _, rfl, rfl, rfl, rfl⟩

theorem launch_sameAt (st : WalkState) {t s : Nat} (task : DagTask) (input : Json)
    (calls : List ActivityCall) (h : s ≠ t) : SameAt st (st.launch t task input calls) s := by
  refine ⟨rfl, rfl, ?_, rfl, Function.update_of_ne h _ _⟩
  rw [WalkState.launch]
  split_ifs
  · exact Function.update_of_ne h _ _
  · rfl

end Kept

/-! ## One node reports its calls -/

section Node

variable {engine : Engine} {tasks : List DagTask} {st : WalkState} {t : Nat} {task : DagTask}
  {run : NodeRun}

theorem launch_inputs {input : Json} {calls : List ActivityCall} (htask : tasks[t]? = some task)
    (hcompensate : (compensateOf tasks t).isSome) :
    (st.launch t task input calls).inputs t = input := by
  rw [compensateOf, htask, Option.bind_some] at hcompensate
  rw [WalkState.launch]
  dsimp only
  rw [if_pos hcompensate]
  exact Function.update_self t _ _

theorem launch_forward (input : Json) (calls : List ActivityCall) :
    (st.launch t task input calls).forward t = calls := Function.update_self t _ _

/-- A success of an activity is the engine's answer. -/
theorem runActivity_succeeded {call : ActivityCall} (h : runActivity engine t call = .ok run)
    (hstatus : run.status = .succeeded) :
    engine.activity t call = .ok run.output ∧ run.dispatchedForward = true := by
  unfold runActivity at h
  split at h
  · rename_i v hanswer
    cases h
    exact ⟨hanswer, rfl⟩
  · cases h
    cases hstatus
  · cases h
    cases hstatus
  · split_ifs at h
    · cases h
      cases hstatus

theorem runActivity_reported {input : Json} (htask : tasks[t]? = some task)
    (hmap : task.mapUpstream = none) (h : runActivity engine t (task.call input) = .ok run)
    (hstatus : run.status = .succeeded) :
    Reported engine tasks (st.launch t task input [task.call input]) t run.dispatchedForward
      run.output := by
  obtain ⟨hanswer, hdispatched⟩ := runActivity_succeeded h hstatus
  have hforward := @launch_forward st t task input [task.call input]
  refine ⟨⟨fun _ => ?_, fun _ => hdispatched⟩, fun _ hcompensate => ?_⟩
  · rw [hforward]
    exact List.cons_ne_nil _ _
  · have hnot : isMappedAt tasks t = false := by
      rw [isMappedAt, htask, Option.map_some, hmap]
      rfl
    rw [InputKept, if_neg (by rw [hnot]; exact Bool.false_ne_true)]
    refine ⟨task.call input, hforward, ?_, hanswer⟩
    rw [launch_inputs htask hcompensate]
    rfl

theorem runMapped_reported {up : Nat} {upstreamVal : Json} (htask : tasks[t]? = some task)
    (hmap : task.mapUpstream = some up) (h : runMapped engine t task upstreamVal = .ok run)
    (hstatus : run.status = .succeeded) :
    Reported engine tasks (st.launch t task upstreamVal (mappedCalls task upstreamVal)) t
      run.dispatchedForward run.output := by
  have hforward := @launch_forward st t task upstreamVal (mappedCalls task upstreamVal)
  have hmapped : isMappedAt tasks t = true := by
    rw [isMappedAt, htask, Option.map_some, hmap]
    rfl
  rw [Reported, hforward]
  unfold runMapped at h
  split at h
  · -- no instances, so no call and no forward work
    cases h
    exact ⟨⟨fun hfalse => absurd hfalse Bool.false_ne_true, fun hne => absurd rfl hne⟩,
      fun hfalse => absurd hfalse Bool.false_ne_true⟩
  · rename_i item items
    have hdispatched : run.dispatchedForward = true := by
      cases hprogress : runInstances engine t task.mapFailurePolicy
          ((item :: items).map task.call) with
      | error error =>
        rw [hprogress] at h
        cases h
      | ok progress =>
        rw [hprogress] at h
        cases h
        rfl
    refine ⟨⟨fun _ => List.cons_ne_nil _ _, fun _ => hdispatched⟩, fun _ hcompensate => ?_⟩
    rw [InputKept, if_pos hmapped, launch_inputs htask hcompensate, hforward, mappedCalls,
      List.map_map]
    exact congrArg Json.arr (List.map_id' (item :: items)).symm
  · cases h
    cases hstatus

/-- **What one step of the first pass does**: it leaves the other nodes, and skips its own or starts
it. -/
theorem prepare_step {input : Json} {results : List (Nat × Except String NodeRun)}
    {acc : WalkState × List (Nat × Except String NodeRun)} (hskipped : st.statuses t = .skipped)
    (h : prepare engine tasks input (st, results) t = .ok acc) :
    (∀ s, s ≠ t → SameAt st acc.1 s) ∧
      ((acc.2 = results ∧ acc.1.statuses t = .skipped) ∨
        ∃ result, acc.2 = results ++ [(t, result)] ∧
          ∀ run, result = .ok run → run.status = .succeeded →
            Reported engine tasks acc.1 t run.dispatchedForward run.output) := by
  unfold prepare at h
  split at h
  · cases h
    exact ⟨fun s _ => SameAt.refl st s, Or.inl ⟨rfl, hskipped⟩⟩
  · rename_i task htask
    split at h
    · cases h
      exact ⟨fun s hs => setStatus_sameAt st .skipped hs,
        Or.inl ⟨rfl, Function.update_self t _ _⟩⟩
    · split at h
      · cases h
      · cases h
        exact ⟨fun s hs => setStatus_sameAt st .skipped hs,
          Or.inl ⟨rfl, Function.update_self t _ _⟩⟩
    · split at h
      · rename_i up hmap
        cases h
        refine ⟨fun s hs => launch_sameAt st task _ _ hs, Or.inr ⟨_, rfl, ?_⟩⟩
        intro run hrun hstatus
        exact runMapped_reported htask hmap hrun hstatus
      · rename_i hmap
        cases h
        refine ⟨fun s hs => launch_sameAt st task _ _ hs, Or.inr ⟨_, rfl, ?_⟩⟩
        intro run hrun hstatus
        exact runActivity_reported htask hmap hrun hstatus

end Node

/-! ## One level -/

section Level

variable {engine : Engine} {tasks : List DagTask} {input : Json} {st st' : WalkState}
  {level : List Nat}

/-- The first pass over the part of a level that is done. -/
structure Prepared (engine : Engine) (tasks : List DagTask) (st : WalkState) (done : List Nat)
    (acc : WalkState × List (Nat × Except String NodeRun)) : Prop where
  nodup : (acc.2.map Prod.fst).Nodup
  inside : ∀ result ∈ acc.2, result.1 ∈ done
  same : ∀ s, s ∉ done → SameAt st acc.1 s
  skipped : ∀ s ∈ done, s ∉ acc.2.map Prod.fst → acc.1.statuses s = .skipped
  reported : ∀ result ∈ acc.2, ∀ run, result.2 = .ok run → run.status = .succeeded →
    Reported engine tasks acc.1 result.1 run.dispatchedForward run.output

theorem prepared_step {done : List Nat} {t : Nat}
    {acc acc' : WalkState × List (Nat × Except String NodeRun)} (ht : t ∉ done)
    (hskipped : st.statuses t = .skipped) (h : Prepared engine tasks st done acc)
    (hstep : prepare engine tasks input acc t = .ok acc') :
    Prepared engine tasks st (done ++ [t]) acc' := by
  have hnow : acc.1.statuses t = .skipped := (h.same t ht).status.trans hskipped
  obtain ⟨hother, hself⟩ := prepare_step hnow hstep
  have hkey : t ∉ acc.2.map Prod.fst := by
    intro hmem
    obtain ⟨result, hresult, rfl⟩ := List.mem_map.mp hmem
    exact ht (h.inside result hresult)
  have hne : ∀ {s}, s ∈ done → s ≠ t := by
    rintro s hs rfl
    exact ht hs
  have hsame : ∀ s, s ∉ done ++ [t] → SameAt st acc'.1 s := by
    intro s hs
    rw [List.mem_append, List.mem_singleton, not_or] at hs
    exact (h.same s hs.1).trans (hother s hs.2)
  have hreported : ∀ result ∈ acc.2, ∀ run, result.2 = .ok run → run.status = .succeeded →
      Reported engine tasks acc'.1 result.1 run.dispatchedForward run.output := by
    intro result hresult run hrun hstatus
    have hkept := hother result.1 (hne (h.inside result hresult))
    exact (h.reported result hresult run hrun hstatus).congr hkept.input hkept.forward
  rcases hself with ⟨hresults, hskip⟩ | ⟨result, hresults, hreport⟩
  · refine ⟨hresults ▸ h.nodup, ?_, hsame, ?_, ?_⟩
    · intro result hresult
      rw [hresults] at hresult
      exact List.mem_append_left _ (h.inside result hresult)
    · intro s hs hnotkey
      rw [hresults] at hnotkey
      rcases List.mem_append.mp hs with hs | hs
      · rw [(hother s (hne hs)).status]
        exact h.skipped s hs hnotkey
      · rw [List.mem_singleton.mp hs]
        exact hskip
    · intro result hresult
      rw [hresults] at hresult
      exact hreported result hresult
  · refine ⟨?_, ?_, hsame, ?_, ?_⟩
    · rw [hresults, List.map_append, List.map_singleton, List.nodup_append]
      refine ⟨h.nodup, List.nodup_singleton t, ?_⟩
      rintro s hs - (_ | ⟨_, ⟨⟩⟩) rfl
      exact hkey hs
    · intro other hmem
      rw [hresults] at hmem
      rcases List.mem_append.mp hmem with hmem | hmem
      · exact List.mem_append_left _ (h.inside other hmem)
      · rw [List.mem_singleton.mp hmem]
        exact List.mem_append_right _ List.mem_cons_self
    · intro s hs hnotkey
      rw [hresults, List.map_append, List.map_singleton, List.mem_append, List.mem_singleton,
        not_or] at hnotkey
      rcases List.mem_append.mp hs with hs | hs
      · rw [(hother s (hne hs)).status]
        exact h.skipped s hs hnotkey.1
      · exact absurd (List.mem_singleton.mp hs) hnotkey.2
    · intro other hmem
      rw [hresults] at hmem
      rcases List.mem_append.mp hmem with hmem | hmem
      · exact hreported other hmem
      · rw [List.mem_singleton.mp hmem]
        exact hreport

/-- The second pass over the results that are recorded. -/
structure Noted (st : WalkState) (done : List (Nat × Except String NodeRun)) (st' : WalkState) :
    Prop where
  same : ∀ s, s ∉ done.map Prod.fst → SameAt st st' s
  input : ∀ s, st'.inputs s = st.inputs s
  forward : ∀ s, st'.forward s = st.forward s
  noted : ∀ result ∈ done, ∃ run, result.2 = .ok run ∧ st'.statuses result.1 = run.status ∧
    st'.outputs result.1 = run.output ∧ st'.dispatchedForward result.1 = run.dispatchedForward

theorem settle_step {result : Nat × Except String NodeRun} (h : settle st result = .ok st') :
    (∀ s, s ≠ result.1 → SameAt st st' s) ∧ (∀ s, st'.inputs s = st.inputs s) ∧
      (∀ s, st'.forward s = st.forward s) ∧
      ∃ run, result.2 = .ok run ∧ st'.statuses result.1 = run.status ∧
        st'.outputs result.1 = run.output ∧
        st'.dispatchedForward result.1 = run.dispatchedForward := by
  unfold settle at h
  split at h
  · cases h
  · rename_i run hrun
    cases h
    refine ⟨fun s hs => ?_, fun s => rfl, fun s => rfl, run, hrun, ?_, ?_, ?_⟩
    · exact ⟨Function.update_of_ne hs _ _, Function.update_of_ne hs _ _, rfl,
        Function.update_of_ne hs _ _, rfl⟩
    · exact Function.update_self _ _ _
    · exact Function.update_self _ _ _
    · exact Function.update_self _ _ _

theorem settle_noted {results : List (Nat × Except String NodeRun)}
    (hnodup : (results.map Prod.fst).Nodup) (h : results.foldlM settle st = .ok st') :
    Noted st results st' := by
  refine foldlM_invariant ?_ ?_ h
  · exact ⟨fun s _ => SameAt.refl st s, fun _ => rfl, fun _ => rfl,
      fun result hresult => absurd hresult List.not_mem_nil⟩
  · intro done result rest now next hsplit hnoted hstep
    obtain ⟨hother, hinput, hforward, hself⟩ := settle_step hstep
    have hfresh : result.1 ∉ done.map Prod.fst := by
      rw [hsplit, List.map_append, List.map_cons, List.nodup_append] at hnodup
      exact fun hmem => hnodup.2.2 _ hmem _ List.mem_cons_self rfl
    refine ⟨fun s hs => ?_, fun s => (hinput s).trans (hnoted.input s),
      fun s => (hforward s).trans (hnoted.forward s), ?_⟩
    · rw [List.map_append, List.map_singleton, List.mem_append, List.mem_singleton, not_or] at hs
      exact (hnoted.same s hs.1).trans (hother s hs.2)
    · intro other hmem
      rcases List.mem_append.mp hmem with hmem | hmem
      · have hne : other.1 ≠ result.1 := by
          intro heq
          exact hfresh (heq ▸ List.mem_map_of_mem hmem)
        obtain ⟨run, hrun, hstatus, houtput, hdispatched⟩ := hnoted.noted other hmem
        have hsame := hother other.1 hne
        exact ⟨run, hrun, hsame.status.trans hstatus, hsame.output.trans houtput,
          hsame.dispatched.trans hdispatched⟩
      · rw [List.mem_singleton.mp hmem]
        exact hself

/-- A gate makes no call. -/
theorem runGate_step {task : DagTask} {gate : DagSignalGate} {t : Nat}
    (h : runGate engine task gate st t = .ok st') :
    (∀ s, s ≠ t → SameAt st st' s) ∧
      (Untouched st t → Recorded engine tasks st' t) := by
  have hskip : (∀ s, s ≠ t → SameAt st (st.setStatus t .skipped) s) ∧
      (Untouched st t → Recorded engine tasks (st.setStatus t .skipped) t) := by
    refine ⟨fun s hs => setStatus_sameAt st .skipped hs, fun hst => ?_⟩
    exact Untouched.recorded ⟨Function.update_self t _ _, hst.dispatched, hst.forward⟩
  unfold runGate at h
  split at h
  · cases h
    exact hskip
  · split at h
    · cases h
    · cases h
      exact hskip
  · split at h
    · cases h
    · cases h
      refine ⟨fun s hs => ?_, fun hst _ => ?_⟩
      · exact ⟨Function.update_of_ne hs _ _, Function.update_of_ne hs _ _, rfl, rfl, rfl⟩
      · exact (hst.reported _).congr rfl rfl

theorem gateOf_mem {t : Nat} {task : DagTask} {gate : DagSignalGate}
    (h : gateOf tasks level = some (t, task, gate)) : t ∈ level := by
  obtain ⟨s, hs, hfound⟩ := List.exists_of_findSome?_eq_some h
  obtain ⟨found, -, hmap⟩ := Option.bind_eq_some_iff.mp hfound
  obtain ⟨signal, -, heq⟩ := Option.map_eq_some_iff.mp hmap
  rw [Prod.mk.injEq] at heq
  rwa [← heq.1]

/-- **One level** records its nodes and leaves the others. -/
theorem runLevel_step (hnodup : level.Nodup) (huntouched : ∀ t ∈ level, Untouched st t)
    (h : runLevel engine tasks input st level = .ok st') :
    (∀ s, s ∉ level → SameAt st st' s) ∧ ∀ t ∈ level, Recorded engine tasks st' t := by
  unfold runLevel at h
  split at h
  · rename_i t task gate hgate
    obtain ⟨hother, hself⟩ := @runGate_step engine tasks st st' task gate t h
    have ht := gateOf_mem hgate
    refine ⟨fun s hs => hother s ?_, fun s hs => ?_⟩
    · rintro rfl
      exact hs ht
    · by_cases hst : s = t
      · rw [hst]
        exact hself (huntouched t ht)
      · exact ((hother s hst).untouched (huntouched s hs)).recorded
  · split at h
    · cases h
    · rename_i mid results hprepare
      have hprepared : Prepared engine tasks st level (mid, results) := by
        refine foldlM_invariant ?_ ?_ hprepare
        · exact ⟨List.nodup_nil, fun r hr => absurd hr List.not_mem_nil,
            fun s _ => SameAt.refl st s, fun s hs => absurd hs List.not_mem_nil,
            fun r hr => absurd hr List.not_mem_nil⟩
        · intro done t rest acc acc' hsplit hdone hstep
          have ht : t ∉ done := by
            rw [hsplit, List.nodup_append] at hnodup
            exact fun hmem => hnodup.2.2 t hmem t List.mem_cons_self rfl
          have hin : t ∈ level := by
            rw [hsplit]
            exact List.mem_append_right _ List.mem_cons_self
          exact prepared_step ht (huntouched t hin).status hdone hstep
      have hnoted := settle_noted hprepared.nodup h
      constructor
      · intro s hs
        refine (hprepared.same s hs).trans (hnoted.same s ?_)
        intro hkey
        obtain ⟨result, hresult, rfl⟩ := List.mem_map.mp hkey
        exact hs (hprepared.inside result hresult)
      · intro t ht
        by_cases hkey : t ∈ results.map Prod.fst
        · obtain ⟨result, hresult, rfl⟩ := List.mem_map.mp hkey
          obtain ⟨run, hrun, hstatus, houtput, hdispatched⟩ := hnoted.noted result hresult
          intro hsucceeded
          rw [hdispatched, houtput]
          rw [hstatus] at hsucceeded
          exact (hprepared.reported result hresult run hrun hsucceeded).congr
            (hnoted.input result.1) (hnoted.forward result.1)
        · intro hsucceeded
          rw [(hnoted.same t hkey).status, hprepared.skipped t ht hkey] at hsucceeded
          cases hsucceeded

end Level

/-- **After the walk** every node is recorded: the induction is over the levels, and carries that
the nodes of the levels to come are untouched. -/
theorem walk_recorded {engine : Engine} {dag : DagDefinition} {input : Json} {st : WalkState}
    (hnodup : dag.executionLevels.flatten.Nodup) (h : walk engine dag input = .ok st) (t : Nat) :
    Recorded engine dag.tasks st t := by
  have hall : (∀ s ∈ dag.executionLevels.flatten, Recorded engine dag.tasks st s) ∧
      ∀ s, s ∉ dag.executionLevels.flatten → Untouched st s := by
    refine foldlM_invariant (P := fun done st =>
      (∀ s ∈ done.flatten, Recorded engine dag.tasks st s) ∧
        ∀ s, s ∉ done.flatten → Untouched st s) ?_ ?_ h
    · exact ⟨fun s hs => absurd hs List.not_mem_nil, fun s _ => ⟨rfl, rfl, rfl⟩⟩
    · intro done level rest now next hsplit hdone hstep
      rw [hsplit, List.flatten_append, List.flatten_cons, List.nodup_append,
        List.nodup_append] at hnodup
      have hapart : ∀ s ∈ done.flatten, s ∉ level := fun s hs hin =>
        hnodup.2.2 s hs s (List.mem_append_left _ hin) rfl
      have hfresh : ∀ s ∈ level, Untouched now s := fun s hs =>
        hdone.2 s fun hin => hapart s hin hs
      obtain ⟨hother, hself⟩ := runLevel_step hnodup.2.1.1 hfresh hstep
      rw [List.flatten_append, List.flatten_singleton]
      constructor
      · intro s hs
        rcases List.mem_append.mp hs with hs | hs
        · exact (hother s (hapart s hs)).recorded (hdone.1 s hs)
        · exact hself s hs
      · intro s hs
        rw [List.mem_append, not_or] at hs
        exact (hother s hs.2).untouched (hdone.2 s hs.1)
  by_cases ht : t ∈ dag.executionLevels.flatten
  · exact hall.1 t ht
  · exact (hall.2 t ht).recorded

end Harvest.Dag
