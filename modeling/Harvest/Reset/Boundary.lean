import Harvest.Event
import Harvest.Lib.Ledger

/-!
# Reset boundaries

Model of `validate_reset_point` in `reset.rs`: one pass over the history that keeps what is in
flight, the boundaries that pass finds, and the searches for the nearest one.

Event ids are the positions in the history. A slice has fewer than `2 ^ 63` elements, so the
conversions of an index to `i64` and of an id in range to `usize` do not fail.

Proved here:
* `keeps_pendingAfter`: the map of the pass is the ledger of the events so far.
* `accepted_iff`: a target is accepted iff it is in range and nothing is open at it.
* `mem_unresolved_iff`: a refused target in range lists exactly what is open at it.
* `nearestValidBefore_spec`, `nearestValidAfter_spec`: what the suggestions are.
-/

namespace Harvest.Reset

open Std (TreeMap)

/-! ## Texts of ids -/

/-- The last `width` hexadecimal digits of `n`. -/
def hexDigits : ℕ → ℕ → List Char
  | 0, _ => []
  | width + 1, n => hexDigits width (n / 16) ++ [Nat.digitChar (n % 16)]

/-- `Uuid` displays as its hexadecimal digits in groups of 8, 4, 4, 4 and 12. -/
def uuidText (id : Uuid) : String :=
  let digits := hexDigits 32 id.toNat
  String.ofList (digits.take 8 ++ '-' :: ((digits.drop 8).take 4 ++ '-' ::
    ((digits.drop 12).take 4 ++ '-' :: ((digits.drop 16).take 4 ++ '-' :: digits.drop 20))))

/-! ## What is in flight -/

structure ResetUnresolvedSideEffect where
  kind : String
  sideEffectId : String
  name : Option String
  scheduledEventId : Int
deriving DecidableEq, Repr

abbrev Pending := TreeMap String ResetUnresolvedSideEffect

def pendingKey (kind id : String) : String := kind ++ ":" ++ id

def insertPending (pending : Pending) (kind sideEffectId : String) (name : Option String)
    (scheduledEventId : Int) : Pending :=
  pending.insert (pendingKey kind sideEffectId) { kind, sideEffectId, name, scheduledEventId }

def removePending (pending : Pending) (kind id : String) : Pending :=
  pending.erase (pendingKey kind id)

def applyEventToPending (eventId : Int) (event : WorkflowEvent) (pending : Pending) : Pending :=
  match event with
  | .activityScheduled activityId name .. =>
    insertPending pending "ActivityScheduled" (uuidText activityId.uuid) (some name) eventId
  | .activityCompleted activityId ..
  | .activityFailed activityId ..
  | .activityTimedOut activityId .. =>
    let pending := removePending pending "ActivityScheduled" (uuidText activityId.uuid)
    removePending pending "ActivityAwaitingExternal" (uuidText activityId.uuid)
  | .timerStarted timerId _ =>
    insertPending pending "TimerStarted" timerId.name (some timerId.name) eventId
  | .timerFired timerId
  | .timerCancelled timerId =>
    removePending pending "TimerStarted" timerId.name
  | .childWorkflowStarted childId workflowName _ =>
    insertPending pending "ChildWorkflowStarted" (uuidText childId.uuid) (some workflowName) eventId
  | .childWorkflowSpawnedDetached childId workflowName .. =>
    insertPending pending "ChildWorkflowSpawnedDetached" (uuidText childId.uuid) (some workflowName)
      eventId
  | .childWorkflowCompleted childId _
  | .childWorkflowFailed childId .. =>
    removePending pending "ChildWorkflowStarted" (uuidText childId.uuid)
  | .localActivityScheduled activityId name .. =>
    insertPending pending "LocalActivityScheduled" (uuidText activityId.uuid) (some name) eventId
  -- a failed attempt may be retried, so it leaves the local activity open
  | .localActivityCompleted activityId _
  | .localActivityExhausted activityId .. =>
    removePending pending "LocalActivityScheduled" (uuidText activityId.uuid)
  | .activityAwaitingExternal activityId _ name .. =>
    insertPending pending "ActivityAwaitingExternal" (uuidText activityId.uuid) (some name) eventId
  | .activityCompletedExternally activityId ..
  | .activityFailedExternally activityId .. =>
    removePending pending "ActivityAwaitingExternal" (uuidText activityId.uuid)
  | .updateAdmitted updateId name .. =>
    insertPending pending "UpdateAdmitted" (uuidText updateId.uuid) (some name) eventId
  | .updateCompleted updateId _
  | .updateFailed updateId _ =>
    removePending pending "UpdateAdmitted" (uuidText updateId.uuid)
  | .externalSignalRequested signalId _ signalName .. =>
    insertPending pending "ExternalSignalRequested" (uuidText signalId.uuid) (some signalName)
      eventId
  | .externalSignalDelivered signalId
  | .externalSignalFailed signalId _ =>
    removePending pending "ExternalSignalRequested" (uuidText signalId.uuid)
  | .externalCancelRequested cancelId _ =>
    insertPending pending "ExternalCancelRequested" (uuidText cancelId.uuid) none eventId
  | .externalCancelDelivered cancelId
  | .externalCancelFailed cancelId _ =>
    removePending pending "ExternalCancelRequested" (uuidText cancelId.uuid)
  | _ => pending

/-! ## Boundaries -/

def isWorkflowStarted : WorkflowEvent → Bool
  | .workflowStarted .. => true
  | _ => false

def isContinuedAsNew : WorkflowEvent → Bool
  | .workflowContinuedAsNew .. => true
  | _ => false

/-- The variables of the loop in `boundary_validity`. -/
structure BoundaryScan where
  pending : Pending
  valid : List Bool
  unresolvedAtTarget : List ResetUnresolvedSideEffect

def BoundaryScan.visit (target : ℕ) (scan : BoundaryScan) (point : WorkflowEvent × ℕ) :
    BoundaryScan :=
  let (event, idx) := point
  let pending := applyEventToPending idx event scan.pending
  let boundaryIsValid := (idx = 0 && isWorkflowStarted event) || pending.isEmpty
  { pending
    valid := scan.valid ++ [boundaryIsValid]
    unresolvedAtTarget :=
      if idx = target then pending.toList.map (·.2) else scan.unresolvedAtTarget }

def boundaryValidity (events : List WorkflowEvent) (target : ℕ) :
    List Bool × List ResetUnresolvedSideEffect :=
  let scan := events.zipIdx.foldl (BoundaryScan.visit target) ⟨∅, [], []⟩
  (scan.valid, scan.unresolvedAtTarget)

/-- `find_map` over numbered boundaries: the first valid one. -/
def firstValid (points : List (Bool × ℕ)) : Option Int :=
  points.findSome? fun point => if point.1 then some (point.2 : Int) else none

def nearestValidBoundary (events : List WorkflowEvent) (startEventId : Int) (searchBefore : Bool) :
    Option Int :=
  if events.isEmpty then none
  else
    match startEventId with
    | .negSucc _ => none
    | .ofNat start =>
      let valid := (boundaryValidity events (min start (events.length - 1))).1
      if searchBefore then firstValid (valid.take (start + 1)).zipIdx.reverse
      else firstValid (valid.zipIdx.drop start)

structure ResetPlan where
  resetToEventId : Int
  eventsCarriedOver : ℕ
  unresolvedSideEffects : List ResetUnresolvedSideEffect
  nearestValidBefore : Option Int
  nearestValidAfter : Option Int
  sourceTasksToCancel : ℕ
  sourceTimersToRemove : ℕ
  sourceSignalsToDrop : ℕ
  sourceSignalsToBuffer : ℕ
deriving DecidableEq, Repr

def ResetPlan.valid (resetToEventId : Int) (eventsCarriedOver : ℕ) : ResetPlan where
  resetToEventId := resetToEventId
  eventsCarriedOver := eventsCarriedOver
  unresolvedSideEffects := []
  nearestValidBefore := some resetToEventId
  nearestValidAfter := some resetToEventId
  sourceTasksToCancel := 0
  sourceTimersToRemove := 0
  sourceSignalsToDrop := 0
  sourceSignalsToBuffer := 0

structure ResetInvalidPoint where
  message : String
  resetToEventId : Int
  lastEventId : Int
  unresolvedSideEffects : List ResetUnresolvedSideEffect
  nearestValidBefore : Option Int
  nearestValidAfter : Option Int
deriving DecidableEq, Repr

def validateResetPoint (events : List WorkflowEvent) (resetToEventId : Int) :
    Except ResetInvalidPoint ResetPlan :=
  let lastEventId : Int := events.length - 1
  if events.any isContinuedAsNew then
    .error {
      message := "continue-as-new histories cannot be reset in v1"
      resetToEventId, lastEventId
      unresolvedSideEffects := []
      nearestValidBefore := nearestValidBoundary events lastEventId true
      nearestValidAfter := none }
  else if resetToEventId < 0 || lastEventId < resetToEventId then
    .error {
      message :=
        s!"reset_to_event_id {resetToEventId} is outside history range 0..={lastEventId}"
      resetToEventId, lastEventId
      unresolvedSideEffects := []
      nearestValidBefore := nearestValidBoundary events lastEventId true
      nearestValidAfter := none }
  else
    let target := resetToEventId.toNat
    let (validBoundaries, unresolvedAtTarget) := boundaryValidity events target
    if validBoundaries.getD target false then .ok (ResetPlan.valid resetToEventId (target + 1))
    else
      let count := unresolvedAtTarget.length
      .error {
        message :=
          s!"event {resetToEventId} is not a valid reset boundary; " ++
            s!"{count} side effect(s) are unresolved"
        resetToEventId, lastEventId
        unresolvedSideEffects := unresolvedAtTarget
        nearestValidBefore := firstValid (validBoundaries.take target).zipIdx.reverse
        nearestValidAfter := firstValid (validBoundaries.zipIdx.drop (target + 1)) }

/-! ## Work and the events that open and close it -/

/-- What a history can have in flight. -/
inductive Work
  | activity (id : ActivityExecId)
  | externalActivity (id : ActivityExecId)
  | timer (id : TimerId)
  | child (id : ExecutionId)
  | detachedChild (id : ExecutionId)
  | localActivity (id : ActivityExecId)
  | update (id : UpdateId)
  | externalSignal (id : ExternalSignalId)
  | externalCancel (id : ExternalCancelId)
deriving DecidableEq, Repr

/-- The work that an event opens, with the name it gives it. -/
def opened : WorkflowEvent → Option (Work × Option String)
  | .activityScheduled id name .. => some (.activity id, some name)
  | .activityAwaitingExternal id _ name .. => some (.externalActivity id, some name)
  | .timerStarted id _ => some (.timer id, some id.name)
  | .childWorkflowStarted id name _ => some (.child id, some name)
  | .childWorkflowSpawnedDetached id name .. => some (.detachedChild id, some name)
  | .localActivityScheduled id name .. => some (.localActivity id, some name)
  | .updateAdmitted id name .. => some (.update id, some name)
  | .externalSignalRequested id _ name .. => some (.externalSignal id, some name)
  | .externalCancelRequested id _ => some (.externalCancel id, none)
  | _ => none

/-- The work that an event closes. Nothing closes a detached child. -/
def closed : WorkflowEvent → List Work
  | .activityCompleted id _ | .activityFailed id .. | .activityTimedOut id _ =>
    [.activity id, .externalActivity id]
  | .activityCompletedExternally id .. | .activityFailedExternally id .. => [.externalActivity id]
  | .timerFired id | .timerCancelled id => [.timer id]
  | .childWorkflowCompleted id _ | .childWorkflowFailed id .. => [.child id]
  | .localActivityCompleted id _ | .localActivityExhausted id .. => [.localActivity id]
  | .updateCompleted id _ | .updateFailed id _ => [.update id]
  | .externalSignalDelivered id | .externalSignalFailed id _ => [.externalSignal id]
  | .externalCancelDelivered id | .externalCancelFailed id _ => [.externalCancel id]
  | _ => []

def opens (event : WorkflowEvent) (work : Work) : Option (Option String) :=
  match opened event with
  | some (work', name) => if work' = work then some name else none
  | none => none

def closes (event : WorkflowEvent) (work : Work) : Bool := (closed event).contains work

/-- The events at or before the target. -/
def eventsUpTo (events : List WorkflowEvent) (target : Int) : List WorkflowEvent :=
  events.take (target + 1).toNat

/-- The work was opened at or before the target and is not closed at it. -/
def OpenAt (events : List WorkflowEvent) (target : Int) (work : Work) : Prop :=
  Lib.Open opens closes (eventsUpTo events target) work

/-- The work is open at the target, and `scheduledEventId` is the event that opened it last. -/
def LastOpenedAt (events : List WorkflowEvent) (target : Int) (work : Work) (name : Option String)
    (scheduledEventId : ℕ) : Prop :=
  Lib.LastOpened opens closes (eventsUpTo events target) work name scheduledEventId

/-! ## Keys of the pending map -/

namespace Work

def kind : Work → String
  | activity _ => "ActivityScheduled"
  | externalActivity _ => "ActivityAwaitingExternal"
  | timer _ => "TimerStarted"
  | child _ => "ChildWorkflowStarted"
  | detachedChild _ => "ChildWorkflowSpawnedDetached"
  | localActivity _ => "LocalActivityScheduled"
  | update _ => "UpdateAdmitted"
  | externalSignal _ => "ExternalSignalRequested"
  | externalCancel _ => "ExternalCancelRequested"

def idText : Work → String
  | activity id | externalActivity id | localActivity id => uuidText id.uuid
  | timer id => id.name
  | child id | detachedChild id => uuidText id.uuid
  | update id => uuidText id.uuid
  | externalSignal id => uuidText id.uuid
  | externalCancel id => uuidText id.uuid

def key (work : Work) : String := pendingKey work.kind work.idText

/-- How a refusal lists the work. -/
def listed (work : Work) (name : Option String) (scheduledEventId : ℕ) :
    ResetUnresolvedSideEffect :=
  ⟨work.kind, work.idText, name, scheduledEventId⟩

end Work

theorem digitChar_inj {m n : ℕ} (hm : m < 16) (hn : n < 16)
    (h : Nat.digitChar m = Nat.digitChar n) : m = n := by
  have hall : ∀ m < 16, ∀ n < 16, Nat.digitChar m = Nat.digitChar n → m = n := by decide
  exact hall m hm n hn h

theorem hexDigits_inj {width m n : ℕ} (hm : m < 16 ^ width) (hn : n < 16 ^ width)
    (h : hexDigits width m = hexDigits width n) : m = n := by
  induction width generalizing m n with
  | zero =>
    rw [Nat.pow_zero] at hm hn
    omega
  | succ width ih =>
    rw [Nat.pow_succ] at hm hn
    obtain ⟨hfront, hlast⟩ := List.append_inj' h rfl
    have hdiv : m / 16 = n / 16 :=
      ih ((Nat.div_lt_iff_lt_mul (by decide)).mpr hm) ((Nat.div_lt_iff_lt_mul (by decide)).mpr hn)
        hfront
    have hmod : m % 16 = n % 16 :=
      digitChar_inj (Nat.mod_lt m (by decide)) (Nat.mod_lt n (by decide))
        (List.head_eq_of_cons_eq hlast)
    omega

theorem dash_notMem_hexDigits (width n : ℕ) : '-' ∉ hexDigits width n := by
  induction width generalizing n with
  | zero => exact List.not_mem_nil
  | succ width ih =>
    have hdigit : ∀ d < 16, '-' ≠ Nat.digitChar d := by decide
    rw [hexDigits, List.mem_append, List.mem_singleton]
    exact not_or.mpr ⟨ih _, hdigit _ (Nat.mod_lt n (by decide))⟩

/-- The digits without the hyphens between the groups. -/
theorem filter_uuidText (id : Uuid) :
    (uuidText id).toList.filter (· ≠ '-') = hexDigits 32 id.toNat := by
  have hdash := dash_notMem_hexDigits 32 id.toNat
  generalize hdigits : hexDigits 32 id.toNat = digits at hdash
  have hkeep {l : List Char} (hl : l ⊆ digits) : l.filter (· ≠ '-') = l := by
    refine List.filter_eq_self.mpr fun c hc => decide_eq_true ?_
    rintro rfl
    exact hdash (hl hc)
  have hgroup (n k : ℕ) : (digits.drop n).take k ⊆ digits := fun c hc =>
    List.mem_of_mem_drop (List.mem_of_mem_take hc)
  have hskip (l : List Char) : ('-' :: l).filter (· ≠ '-') = l.filter (· ≠ '-') := rfl
  have hjoin (n k : ℕ) : (digits.drop n).take k ++ digits.drop (n + k) = digits.drop n := by
    rw [← List.drop_drop]
    exact List.take_append_drop k _
  rw [uuidText, hdigits, String.toList_ofList]
  simp only [List.filter_append, hskip]
  rw [hkeep (List.take_subset _ _), hkeep (hgroup 8 4), hkeep (hgroup 12 4), hkeep (hgroup 16 4),
    hkeep (List.drop_subset _ _), hjoin 16 4, hjoin 12 4, hjoin 8 4, List.take_append_drop]

theorem uuidText_inj {a b : Uuid} (h : uuidText a = uuidText b) : a = b := by
  have hdigits : hexDigits 32 a.toNat = hexDigits 32 b.toNat := by
    rw [← filter_uuidText, ← filter_uuidText, h]
  exact BitVec.eq_of_toNat_eq (hexDigits_inj a.isLt b.isLt hdigits)

theorem colon_notMem_kind (work : Work) : ':' ∉ work.kind.toList := by
  cases work <;> simp only [Work.kind] <;> decide

theorem pendingKey_inj {kind kind' id id' : String} (hkind : ':' ∉ kind.toList)
    (hkind' : ':' ∉ kind'.toList) (h : pendingKey kind id = pendingKey kind' id') :
    kind = kind' ∧ id = id' := by
  have hlist : kind.toList ++ ':' :: id.toList = kind'.toList ++ ':' :: id'.toList := by
    have := congrArg String.toList h
    simpa [pendingKey] using this
  -- the kind is what stands before the first colon
  have hbefore {k i : String} (hk : ':' ∉ k.toList) :
      (k.toList ++ ':' :: i.toList).takeWhile (· ≠ ':') = k.toList := by
    rw [List.takeWhile_append_of_pos]
    · simp
    · intro c hc
      refine decide_eq_true ?_
      rintro rfl
      exact hk hc
  have heq : kind.toList = kind'.toList := by
    rw [← hbefore (i := id) hkind, hlist, hbefore hkind']
  rw [heq] at hlist
  have hrest := List.append_cancel_left hlist
  exact ⟨String.toList_injective heq, String.toList_injective (List.cons.inj hrest).2⟩

namespace Work

theorem eq_of_kind_of_idText {a b : Work} (hkind : a.kind = b.kind) (hid : a.idText = b.idText) :
    a = b := by
  -- work of two kinds has two kind texts, work of one kind has two id texts
  cases a <;> cases b <;> simp only [kind, String.reduceEq] at hkind <;>
    rename_i i j <;> obtain ⟨i⟩ := i <;> obtain ⟨j⟩ := j
  case timer.timer => exact congrArg (timer ⟨·⟩) hid
  all_goals
    have hij : i = j := uuidText_inj hid
    rw [hij]

theorem key_inj {a b : Work} : a.key = b.key ↔ a = b := by
  refine ⟨fun h => ?_, congrArg key⟩
  obtain ⟨hkind, hid⟩ := pendingKey_inj (colon_notMem_kind a) (colon_notMem_kind b) h
  exact eq_of_kind_of_idText hkind hid

end Work

/-! ## The pass keeps the ledger -/

theorem applyEventToPending_eq (eventId : ℕ) (event : WorkflowEvent) (pending : Pending) :
    applyEventToPending eventId event pending =
      match opened event with
      | some (work, name) => pending.insert work.key (work.listed name eventId)
      | none => (closed event).foldl (fun pending work => pending.erase work.key) pending := by
  cases event <;> rfl

theorem getElem?_foldl_erase (works : List Work) (pending : Pending) (work : Work) :
    (works.foldl (fun pending work => pending.erase work.key) pending)[work.key]? =
      if works.contains work then none else pending[work.key]? := by
  induction works generalizing pending with
  | nil => rfl
  | cons other works ih =>
    rw [List.foldl_cons, ih, TreeMap.getElem?_erase]
    by_cases h : other = work
    · subst h
      simp
    · have hkey : ¬ other.key = work.key := fun hkey => h (Work.key_inj.mp hkey)
      simp [hkey, Ne.symm h]

/-- The map holds the ledger's entries under their keys, and nothing else. -/
structure Keeps (pending : Pending) (book : Work → Option (Option String × ℕ)) : Prop where
  get (work : Work) : pending[work.key]? = (book work).map fun entry => work.listed entry.1 entry.2
  keyed {key : String} : key ∈ pending → ∃ work : Work, key = work.key

theorem mem_of_mem_foldl_erase {works : List Work} {pending : Pending} {key : String}
    (h : key ∈ works.foldl (fun pending work => pending.erase work.key) pending) :
    key ∈ pending := by
  induction works generalizing pending with
  | nil => exact h
  | cons other works ih => exact (TreeMap.mem_erase.mp (ih h)).2

theorem Keeps.apply {pending : Pending} {book : Work → Option (Option String × ℕ)}
    (h : Keeps pending book) (eventId : ℕ) (event : WorkflowEvent) :
    Keeps (applyEventToPending eventId event pending)
      (Lib.post opens closes book eventId event) := by
  rw [applyEventToPending_eq]
  cases hopened : opened event with
  | none =>
    refine ⟨fun work => ?_, fun hkey => h.keyed (mem_of_mem_foldl_erase hkey)⟩
    rw [getElem?_foldl_erase, h.get, Lib.post, opens, hopened, closes]
    cases (closed event).contains work <;> rfl
  | some entry =>
    obtain ⟨other, name⟩ := entry
    refine ⟨fun work => ?_, fun hkey => ?_⟩
    · have hclosed : closed event = [] := by
        cases event <;> first | rfl | cases hopened
      rw [TreeMap.getElem?_insert, h.get, Lib.post, opens, hopened, closes, hclosed]
      by_cases hwork : other = work
      · subst hwork
        simp
      · have hne : ¬ other.key = work.key := fun hkey => hwork (Work.key_inj.mp hkey)
        simp [hne, hwork]
    · rcases TreeMap.mem_insert.mp hkey with hkey | hkey
      · exact ⟨other, (compare_eq_iff_eq.mp hkey).symm⟩
      · exact h.keyed hkey

/-- The map after the events so far. -/
def pendingAfter (events : List WorkflowEvent) : Pending :=
  events.zipIdx.foldl (fun pending point => applyEventToPending point.2 point.1 pending) ∅

theorem pendingAfter_concat (events : List WorkflowEvent) (event : WorkflowEvent) :
    pendingAfter (events ++ [event]) =
      applyEventToPending events.length event (pendingAfter events) := by
  simp only [pendingAfter, List.zipIdx_append, List.foldl_append]
  rw [Nat.zero_add]
  rfl

theorem keeps_pendingAfter (events : List WorkflowEvent) :
    Keeps (pendingAfter events) (Lib.ledger opens closes events) := by
  induction events using List.reverseRecOn with
  | nil => exact ⟨fun _ => rfl, fun hkey => absurd hkey TreeMap.not_mem_emptyc⟩
  | append_singleton events event ih =>
    rw [pendingAfter_concat, Lib.ledger_concat]
    exact ih.apply events.length event

theorem pendingAfter_isEmpty {events : List WorkflowEvent} :
    (pendingAfter events).isEmpty = true ↔ ∀ work, ¬ Lib.Open opens closes events work := by
  have hkeeps := keeps_pendingAfter events
  rw [TreeMap.isEmpty_iff_forall_not_mem]
  constructor
  · intro hempty work hopen
    obtain ⟨name, i, hentry⟩ := Lib.exists_ledger_iff.mpr hopen
    refine hempty work.key (TreeMap.mem_iff_isSome_getElem?.mpr ?_)
    rw [hkeeps.get, hentry]
    rfl
  · intro hclosed key hkey
    obtain ⟨work, rfl⟩ := hkeeps.keyed hkey
    obtain ⟨side, hside⟩ := Option.isSome_iff_exists.mp (TreeMap.mem_iff_isSome_getElem?.mp hkey)
    rw [hkeeps.get, Option.map_eq_some_iff] at hside
    obtain ⟨⟨name, i⟩, hentry, -⟩ := hside
    exact hclosed work (Lib.exists_ledger_iff.mp ⟨name, i, hentry⟩)

/-- `pending.values()` -/
def pendingValues (events : List WorkflowEvent) : List ResetUnresolvedSideEffect :=
  (pendingAfter events).toList.map (·.2)

theorem pendingAfter_eq_some {events : List WorkflowEvent} {key : String}
    {side : ResetUnresolvedSideEffect} (h : (key, side) ∈ (pendingAfter events).toList) :
    ∃ work name i, key = work.key ∧ side = work.listed name i ∧
      Lib.LastOpened opens closes events work name i := by
  have hkeeps := keeps_pendingAfter events
  have hget := TreeMap.mem_toList_iff_getElem?_eq_some.mp h
  obtain ⟨work, rfl⟩ := hkeeps.keyed (TreeMap.mem_iff_isSome_getElem?.mpr (by rw [hget]; rfl))
  rw [hkeeps.get, Option.map_eq_some_iff] at hget
  obtain ⟨⟨name, i⟩, hentry, heq⟩ := hget
  exact ⟨work, name, i, rfl, heq.symm, Lib.ledger_eq_some.mp hentry⟩

theorem mem_pendingValues {events : List WorkflowEvent} {side : ResetUnresolvedSideEffect} :
    side ∈ pendingValues events ↔ ∃ work name i,
      Lib.LastOpened opens closes events work name i ∧ side = work.listed name i := by
  constructor
  · intro hside
    obtain ⟨⟨key, _⟩, hmem, rfl⟩ := List.mem_map.mp hside
    obtain ⟨work, name, i, -, hlisted, hlast⟩ := pendingAfter_eq_some hmem
    exact ⟨work, name, i, hlast, hlisted⟩
  · rintro ⟨work, name, i, hlast, rfl⟩
    refine List.mem_map.mpr ⟨(work.key, work.listed name i), ?_, rfl⟩
    rw [TreeMap.mem_toList_iff_getElem?_eq_some, (keeps_pendingAfter events).get,
      Lib.ledger_eq_some.mpr hlast]
    rfl

/-- No work is listed twice. -/
theorem nodup_pendingValues (events : List WorkflowEvent) :
    ((pendingValues events).map fun side => (side.kind, side.sideEffectId)).Nodup := by
  rw [pendingValues, List.map_map, List.Nodup, List.pairwise_map]
  refine List.Pairwise.imp_of_mem ?_ (TreeMap.distinct_keys_toList (t := pendingAfter events))
  rintro ⟨key, side⟩ ⟨key', side'⟩ hmem hmem' hne heq
  obtain ⟨work, name, i, rfl, rfl, -⟩ := pendingAfter_eq_some hmem
  obtain ⟨work', name', i', rfl, rfl, -⟩ := pendingAfter_eq_some hmem'
  obtain ⟨hkind, hid⟩ := Prod.mk.inj heq
  exact hne (compare_eq_iff_eq.mpr (congrArg₂ pendingKey hkind hid))

/-! ## The boundaries that the pass finds -/

/-- Whether the pass takes event `i` as a boundary. -/
def isBoundary (events : List WorkflowEvent) (i : ℕ) : Bool :=
  (i = 0 && events.head?.any isWorkflowStarted) || (pendingAfter (events.take (i + 1))).isEmpty

theorem isBoundary_concat {events : List WorkflowEvent} {event : WorkflowEvent} {i : ℕ}
    (hi : i < events.length) : isBoundary (events ++ [event]) i = isBoundary events i := by
  have hhead : (events ++ [event]).head? = events.head? :=
    List.head?_append_of_ne_nil _ (List.ne_nil_of_length_pos (Nat.zero_lt_of_lt hi))
  rw [isBoundary, isBoundary, hhead, List.take_append_of_le_length hi]

theorem isBoundary_last (events : List WorkflowEvent) (event : WorkflowEvent) :
    isBoundary (events ++ [event]) events.length =
      ((events.length = 0 && isWorkflowStarted event) ||
        (pendingAfter (events ++ [event])).isEmpty) := by
  have htake : (events ++ [event]).take (events.length + 1) = events ++ [event] :=
    List.take_of_length_le (by rw [List.length_append, List.length_singleton])
  rw [isBoundary, htake]
  cases events with
  | nil => rfl
  | cons first rest => rfl

theorem scan_eq (events : List WorkflowEvent) (target : ℕ) :
    events.zipIdx.foldl (BoundaryScan.visit target) ⟨∅, [], []⟩ =
      ⟨pendingAfter events, (List.range events.length).map (isBoundary events),
        if target < events.length then pendingValues (events.take (target + 1)) else []⟩ := by
  induction events using List.reverseRecOn with
  | nil => rfl
  | append_singleton events event ih =>
    rw [List.zipIdx_append, List.foldl_append, ih]
    rw [Nat.zero_add]
    show BoundaryScan.visit target _ (event, events.length) = _
    rw [BoundaryScan.visit]
    simp only
    rw [← pendingAfter_concat]
    have hvalid : (List.range (events ++ [event]).length).map (isBoundary (events ++ [event])) =
        (List.range events.length).map (isBoundary events) ++
          [(events.length = 0 && isWorkflowStarted event) ||
            (pendingAfter (events ++ [event])).isEmpty] := by
      rw [List.length_append, List.length_singleton, List.range_succ, List.map_append,
        List.map_singleton, isBoundary_last]
      congr 1
      exact List.map_congr_left fun i hi => isBoundary_concat (List.mem_range.mp hi)
    rw [hvalid]
    congr 1
    rw [List.length_append, List.length_singleton]
    rcases Nat.lt_trichotomy target events.length with h | h | h
    · rw [if_neg (Nat.ne_of_gt h), if_pos h, if_pos (Nat.lt_succ_of_lt h),
        List.take_append_of_le_length h]
    · subst h
      rw [if_pos rfl, if_pos (Nat.lt_succ_self _), List.take_of_length_le (by simp)]
      rfl
    · rw [if_neg (Nat.ne_of_lt h), if_neg (Nat.lt_asymm h), if_neg (by omega)]

theorem boundaryValidity_eq {events : List WorkflowEvent} {target : ℕ}
    (h : target < events.length) : boundaryValidity events target =
      ((List.range events.length).map (isBoundary events),
        pendingValues (events.take (target + 1))) := by
  rw [boundaryValidity, scan_eq]
  simp only [if_pos h]

/-- A history that starts with its start event has a boundary exactly where nothing is open. -/
theorem isBoundary_iff {events : List WorkflowEvent} (hstart : events.head?.any isWorkflowStarted)
    (i : ℕ) : isBoundary events i = true ↔ ∀ work, ¬ OpenAt events i work := by
  rw [isBoundary, hstart]
  cases i with
  | succ i => exact pendingAfter_isEmpty
  | zero =>
    refine ⟨fun _ work hopen => ?_, fun _ => rfl⟩
    obtain ⟨first, rest, rfl⟩ : ∃ first rest, events = first :: rest := by
      cases events with
      | nil => cases hstart
      | cons first rest => exact ⟨first, rest, rfl⟩
    -- the start event opens nothing
    obtain ⟨j, name, ⟨event, hevent, hopens⟩, -⟩ := hopen
    change [first][j]? = some event at hevent
    rw [List.getElem?_singleton] at hevent
    split at hevent
    · cases hevent
      cases first with
      | workflowStarted => cases hopens
      | _ => cases hstart
    · cases hevent

/-! ## The nearest boundaries -/

/-- The search ends at a valid point that stands before every other valid point. -/
theorem firstValid_spec {points : List (Bool × ℕ)} {R : ℕ → ℕ → Prop} {found : Int}
    (hsorted : points.Pairwise fun p q => R p.2 q.2) (h : firstValid points = some found) :
    ∃ i, (true, i) ∈ points ∧ found = i ∧ ∀ j, (true, j) ∈ points → j = i ∨ R i j := by
  induction points with
  | nil => cases h
  | cons point points ih =>
    obtain ⟨hfirst, hrest⟩ := List.pairwise_cons.mp hsorted
    obtain ⟨ok, i⟩ := point
    cases ok with
    | true =>
      refine ⟨i, List.mem_cons_self, (Option.some.inj h).symm, fun j hj => ?_⟩
      rcases List.mem_cons.mp hj with hj | hj
      · exact .inl (Prod.mk.inj hj).2
      · exact .inr (hfirst _ hj)
    | false =>
      obtain ⟨k, hmem, hfound, hall⟩ := ih hrest h
      refine ⟨k, List.mem_cons_of_mem _ hmem, hfound, fun j hj => ?_⟩
      rcases List.mem_cons.mp hj with hj | hj
      · exact absurd (Prod.mk.inj hj).1 Bool.noConfusion
      · exact hall j hj

theorem pairwise_zipIdx (valid : List Bool) : valid.zipIdx.Pairwise fun p q => p.2 < q.2 := by
  rw [← List.pairwise_map (f := Prod.snd) (R := (· < ·)), List.zipIdx_map_snd]
  exact List.pairwise_lt_range'

/-- The last of the boundaries before position `n`. -/
theorem firstValid_before {valid : List Bool} {n : ℕ} {found : Int}
    (h : firstValid (valid.take n).zipIdx.reverse = some found) :
    ∃ i < n, found = i ∧ valid[i]? = some true ∧ ∀ j < n, valid[j]? = some true → j ≤ i := by
  have hsorted : (valid.take n).zipIdx.reverse.Pairwise fun p q => q.2 < p.2 :=
    List.pairwise_reverse.mpr (pairwise_zipIdx _)
  have hmem (i : ℕ) :
      (true, i) ∈ (valid.take n).zipIdx.reverse ↔ i < n ∧ valid[i]? = some true := by
    rw [List.mem_reverse, List.mk_mem_zipIdx_iff_getElem?, List.getElem?_take]
    split <;> simp_all
  obtain ⟨i, hi, hfound, hall⟩ := firstValid_spec (R := fun i j => j < i) hsorted h
  obtain ⟨hlt, hvalid⟩ := (hmem i).mp hi
  refine ⟨i, hlt, hfound, hvalid, fun j hj hvalidj => ?_⟩
  rcases hall j ((hmem j).mpr ⟨hj, hvalidj⟩) with rfl | hji
  · exact Nat.le_refl _
  · exact Nat.le_of_lt hji

/-- The first of the boundaries from position `n` on. -/
theorem firstValid_after {valid : List Bool} {n : ℕ} {found : Int}
    (h : firstValid (valid.zipIdx.drop n) = some found) :
    ∃ i, n ≤ i ∧ found = i ∧ valid[i]? = some true ∧ ∀ j, n ≤ j → valid[j]? = some true → i ≤ j := by
  have hsorted : (valid.zipIdx.drop n).Pairwise fun p q => p.2 < q.2 :=
    (pairwise_zipIdx valid).sublist (List.drop_sublist _ _)
  have hmem (i : ℕ) : (true, i) ∈ valid.zipIdx.drop n ↔ n ≤ i ∧ valid[i]? = some true := by
    rw [List.mem_iff_getElem?]
    constructor
    · rintro ⟨k, hk⟩
      rw [List.getElem?_drop, List.getElem?_zipIdx, Option.map_eq_some_iff] at hk
      obtain ⟨ok, hok, heq⟩ := hk
      obtain ⟨rfl, rfl⟩ := Prod.mk.inj heq
      rw [Nat.zero_add]
      exact ⟨Nat.le_add_right n k, hok⟩
    · rintro ⟨hle, hvalid⟩
      refine ⟨i - n, ?_⟩
      rw [List.getElem?_drop, List.getElem?_zipIdx, Nat.add_sub_of_le hle, hvalid, Nat.zero_add]
      rfl
  obtain ⟨i, hi, hfound, hall⟩ := firstValid_spec (R := fun i j => i < j) hsorted h
  obtain ⟨hle, hvalid⟩ := (hmem i).mp hi
  refine ⟨i, hle, hfound, hvalid, fun j hj hvalidj => ?_⟩
  rcases hall j ((hmem j).mpr ⟨hj, hvalidj⟩) with rfl | hij
  · exact Nat.le_refl _
  · exact Nat.le_of_lt hij

/-! ## The answers of `validate_reset_point` -/

def Accepted (events : List WorkflowEvent) (target : Int) : Prop :=
  ∃ plan, validateResetPoint events target = .ok plan

def ResetInvalidPoint.Suggests (invalid : ResetInvalidPoint) (point : Int) : Prop :=
  invalid.nearestValidBefore = some point ∨ invalid.nearestValidAfter = some point

section Answers

variable {events : List WorkflowEvent} (hnew : events.any isContinuedAsNew = false)
include hnew

theorem validateResetPoint_inRange {target : ℕ} (h : target < events.length) :
    validateResetPoint events target =
      if isBoundary events target then .ok (ResetPlan.valid target (target + 1))
      else
        let valid := (List.range events.length).map (isBoundary events)
        let unresolved := pendingValues (events.take (target + 1))
        .error {
          message :=
            s!"event {(target : Int)} is not a valid reset boundary; " ++
              s!"{unresolved.length} side effect(s) are unresolved"
          resetToEventId := target
          lastEventId := events.length - 1
          unresolvedSideEffects := unresolved
          nearestValidBefore := firstValid (valid.take target).zipIdx.reverse
          nearestValidAfter := firstValid (valid.zipIdx.drop (target + 1)) } := by
  have hrange : ((target : Int) < 0 || (events.length : Int) - 1 < target) = false := by
    rw [Bool.or_eq_false_iff, decide_eq_false_iff_not, decide_eq_false_iff_not]
    omega
  have hget : ((List.range events.length).map (isBoundary events)).getD target false =
      isBoundary events target := by
    simp [List.getD, h]
  rw [validateResetPoint]
  simp only [hnew, hrange, Bool.false_eq_true, if_false, Int.toNat_natCast, boundaryValidity_eq h,
    hget]

theorem validateResetPoint_outOfRange {target : Int}
    (h : target < 0 ∨ (events.length : Int) ≤ target) :
    ∃ message, validateResetPoint events target = .error {
      message, resetToEventId := target, lastEventId := events.length - 1
      unresolvedSideEffects := []
      nearestValidBefore := nearestValidBoundary events (events.length - 1) true
      nearestValidAfter := none } := by
  have hrange : (target < 0 || (events.length : Int) - 1 < target) = true := by
    rw [Bool.or_eq_true, decide_eq_true_eq, decide_eq_true_eq]
    omega
  rw [validateResetPoint]
  simp only [hnew, hrange, Bool.false_eq_true, if_false, if_true]
  exact ⟨_, rfl⟩

theorem validateResetPoint_ok {target : Int} {plan : ResetPlan}
    (h : validateResetPoint events target = .ok plan) :
    ∃ i : ℕ, target = i ∧ i < events.length ∧ isBoundary events i = true ∧
      plan = ResetPlan.valid i (i + 1) := by
  by_cases hrange : target < 0 ∨ (events.length : Int) ≤ target
  · obtain ⟨message, herror⟩ := validateResetPoint_outOfRange hnew hrange
    rw [herror] at h
    cases h
  · obtain ⟨i, rfl⟩ : ∃ i : ℕ, target = i := ⟨target.toNat, by omega⟩
    have hi : i < events.length := by omega
    rw [validateResetPoint_inRange hnew hi] at h
    split at h
    · rename_i hboundary
      exact ⟨i, rfl, hi, hboundary, (Except.ok.inj h).symm⟩
    · cases h

theorem accepted_iff_isBoundary {target : Int} : Accepted events target ↔
    ∃ i : ℕ, target = i ∧ i < events.length ∧ isBoundary events i = true := by
  constructor
  · rintro ⟨plan, hplan⟩
    obtain ⟨i, htarget, hi, hboundary, -⟩ := validateResetPoint_ok hnew hplan
    exact ⟨i, htarget, hi, hboundary⟩
  · rintro ⟨i, rfl, hi, hboundary⟩
    exact ⟨_, by rw [validateResetPoint_inRange hnew hi, if_pos hboundary]⟩

omit hnew in
theorem getElem?_boundaries {i : ℕ} :
    ((List.range events.length).map (isBoundary events))[i]? = some true ↔
      i < events.length ∧ isBoundary events i = true := by
  by_cases h : i < events.length <;> simp [h]

/-- A boundary before a refused target that is in range: the last one there is. -/
theorem nearestValidBefore_spec {target : ℕ} {invalid : ResetInvalidPoint} {point : Int}
    (h : target < events.length) (herror : validateResetPoint events target = .error invalid)
    (hpoint : invalid.nearestValidBefore = some point) :
    Accepted events point ∧ point < target ∧
      ∀ other, Accepted events other → other < target → other ≤ point := by
  rw [validateResetPoint_inRange hnew h] at herror
  split at herror
  · cases herror
  · cases herror
    obtain ⟨i, hlt, rfl, hvalid, hlast⟩ := firstValid_before hpoint
    obtain ⟨hi, hboundary⟩ := getElem?_boundaries.mp hvalid
    refine ⟨(accepted_iff_isBoundary hnew).mpr ⟨i, rfl, hi, hboundary⟩, by omega, ?_⟩
    intro other hother hbefore
    obtain ⟨j, rfl, hj, hboundary'⟩ := (accepted_iff_isBoundary hnew).mp hother
    have := hlast j (by omega) (getElem?_boundaries.mpr ⟨hj, hboundary'⟩)
    omega

/-- A boundary after a refused target that is in range: the first one there is. -/
theorem nearestValidAfter_spec {target : ℕ} {invalid : ResetInvalidPoint} {point : Int}
    (h : target < events.length) (herror : validateResetPoint events target = .error invalid)
    (hpoint : invalid.nearestValidAfter = some point) :
    Accepted events point ∧ target < point ∧
      ∀ other, Accepted events other → target < other → point ≤ other := by
  rw [validateResetPoint_inRange hnew h] at herror
  split at herror
  · cases herror
  · cases herror
    obtain ⟨i, hle, rfl, hvalid, hfirst⟩ := firstValid_after hpoint
    obtain ⟨hi, hboundary⟩ := getElem?_boundaries.mp hvalid
    refine ⟨(accepted_iff_isBoundary hnew).mpr ⟨i, rfl, hi, hboundary⟩, by omega, ?_⟩
    intro other hother hafter
    obtain ⟨j, rfl, hj, hboundary'⟩ := (accepted_iff_isBoundary hnew).mp hother
    have := hfirst j (by omega) (getElem?_boundaries.mpr ⟨hj, hboundary'⟩)
    omega

/-- A target out of range is answered with the last boundary of the history. -/
theorem outOfRange_spec {target : Int} {invalid : ResetInvalidPoint}
    (h : target < 0 ∨ (events.length : Int) ≤ target)
    (herror : validateResetPoint events target = .error invalid) :
    invalid.unresolvedSideEffects = [] ∧ invalid.nearestValidAfter = none ∧
      ∀ point, invalid.nearestValidBefore = some point → Accepted events point ∧
        ∀ other, Accepted events other → other ≤ point := by
  obtain ⟨message, hanswer⟩ := validateResetPoint_outOfRange hnew h
  rw [hanswer] at herror
  cases herror
  refine ⟨rfl, rfl, fun point hpoint => ?_⟩
  cases events with
  | nil => cases hpoint
  | cons first rest =>
    have hlast : ((first :: rest).length : Int) - 1 = Int.ofNat rest.length := by simp
    rw [hlast] at hpoint
    have hmin : min rest.length ((first :: rest).length - 1) < (first :: rest).length := by simp
    simp only [nearestValidBoundary, List.isEmpty_cons, Bool.false_eq_true, if_false, if_true,
      boundaryValidity_eq hmin] at hpoint
    obtain ⟨i, -, rfl, hvalid, hall⟩ := firstValid_before hpoint
    obtain ⟨hi, hboundary⟩ := getElem?_boundaries.mp hvalid
    refine ⟨(accepted_iff_isBoundary hnew).mpr ⟨i, rfl, hi, hboundary⟩, fun other hother => ?_⟩
    obtain ⟨j, rfl, hj, hboundary'⟩ := (accepted_iff_isBoundary hnew).mp hother
    have := hall j hj (getElem?_boundaries.mpr ⟨hj, hboundary'⟩)
    omega

/-- **A target is accepted iff it is in range and nothing is open at it.** -/
theorem accepted_iff (hstart : events.head?.any isWorkflowStarted) {target : Int} :
    Accepted events target ↔
      (0 ≤ target ∧ target < events.length) ∧ ∀ work, ¬ OpenAt events target work := by
  rw [accepted_iff_isBoundary hnew]
  constructor
  · rintro ⟨i, rfl, hi, hboundary⟩
    exact ⟨⟨by omega, by omega⟩, (isBoundary_iff hstart i).mp hboundary⟩
  · rintro ⟨⟨hlow, hhigh⟩, hclear⟩
    obtain ⟨i, rfl⟩ : ∃ i : ℕ, target = i := ⟨target.toNat, by omega⟩
    exact ⟨i, rfl, by omega, (isBoundary_iff hstart i).mpr hclear⟩

/-- **A refused target in range lists exactly the open work**, each with the event that opened it
last. -/
theorem mem_unresolved_iff {target : ℕ} {invalid : ResetInvalidPoint} (h : target < events.length)
    (herror : validateResetPoint events target = .error invalid)
    (side : ResetUnresolvedSideEffect) : side ∈ invalid.unresolvedSideEffects ↔
      ∃ work name i, LastOpenedAt events target work name i ∧ side = work.listed name i := by
  rw [validateResetPoint_inRange hnew h] at herror
  split at herror
  · cases herror
  · cases herror
    exact mem_pendingValues

theorem nodup_unresolved {target : ℕ} {invalid : ResetInvalidPoint} (h : target < events.length)
    (herror : validateResetPoint events target = .error invalid) :
    (invalid.unresolvedSideEffects.map fun side => (side.kind, side.sideEffectId)).Nodup := by
  rw [validateResetPoint_inRange hnew h] at herror
  split at herror
  · cases herror
  · cases herror
    exact nodup_pendingValues _

end Answers

end Harvest.Reset
