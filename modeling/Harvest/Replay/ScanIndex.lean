import Harvest.Lib.SkipList
import Harvest.Replay.Roles

/-!
# The position indexes of the terminal scans

Model of `activity_scan_index.rs`: the positions that can change the result of a scan, kept
per key while the history grows.

Proved here:
* `Indexes.extend`, `Indexes.mono`: an index of the roles of a history stays one while the
  history is indexed further and more of it is consumed.
* `Indexes.firstStop`, `Indexes.firstBarrier`, `Indexes.firstInterleaved`: a query finds the
  first position with that role, as a search of the history does.
* `TerminalsIndexed.first`, `TerminalsIndexed.firstOf`: the same for the external terminals.
-/

namespace Harvest.Replay

open Lib

/-! ## Positions in a history -/

/-- The positions below `n` whose entry in `xs` has the property. -/
def positionsOf {β : Type*} (xs : List β) (n : Nat) (p : β → Bool) : List Nat :=
  (List.range n).filter fun i => (xs[i]?).any p

section Positions

variable {β : Type*} {xs : List β} {n : Nat} {p : β → Bool}

theorem mem_positionsOf {i : Nat} : i ∈ positionsOf xs n p ↔ i < n ∧ (xs[i]?).any p := by
  simp [positionsOf]

theorem positionsOf_sorted : (positionsOf xs n p).Pairwise (· < ·) :=
  List.Pairwise.filter _ List.pairwise_lt_range

theorem positionsOf_succ :
    positionsOf xs (n + 1) p = positionsOf xs n p ++ if (xs[n]?).any p then [n] else [] := by
  unfold positionsOf
  rw [List.range_succ, List.filter_append]
  congr 1
  cases h : (xs[n]?).any p <;> simp [h]

/-- A search of the positions is a search of the history. -/
theorem find?_positionsOf (q : Nat → Bool) :
    (positionsOf xs n p).find? q = (List.range n).find? fun i => (xs[i]?).any p && q i := by
  unfold positionsOf
  rw [List.find?_filter]
  congr 1
  funext i
  cases (xs[i]?).any p <;> simp

/-- In sorted positions, a search from a bound on may drop what is below it. -/
theorem find?_drop_partitionPoint {l : List Nat} (h : l.Pairwise (· < ·)) (bound : Nat)
    (q : Nat → Bool) :
    (l.drop (partitionPoint (· < bound) l)).find? q = l.find? fun i => decide (bound ≤ i) && q i := by
  rw [drop_partitionPoint, dropWhile_lt_eq_filter h bound, List.find?_filter]
  congr 1
  funext i
  cases hb : decide (bound ≤ i) <;> simp_all

/-- In sorted positions, the partition point is where the bound is reached. -/
theorem getElem_lt_iff {l : List Nat} (h : l.Pairwise (· < ·)) (bound : Nat) {k : Nat} (hk : k < l.length) :
    l[k] < bound ↔ k < partitionPoint (· < bound) l := by
  have hsplit : l[k]? = (l.takeWhile (· < bound) ++ l.dropWhile (· < bound))[k]? := by
    rw [List.takeWhile_append_dropWhile]
  rw [List.getElem?_eq_getElem hk] at hsplit
  constructor
  · intro hlt
    by_contra hge
    rw [List.getElem?_append_right (Nat.not_lt.mp hge)] at hsplit
    have hmem := List.mem_of_getElem? hsplit.symm
    rw [dropWhile_lt_eq_filter h] at hmem
    have := (List.mem_filter.mp hmem).2
    simp only [decide_eq_true_eq] at this
    omega
  · intro hlt
    rw [List.getElem?_append_left hlt] at hsplit
    have hall := List.all_eq_true.mp (List.all_takeWhile (p := (· < bound)) (l := l)) _
      (List.mem_of_getElem? hsplit.symm)
    simpa using hall

/-- The part of sorted positions between two partition points. -/
theorem mem_slice {l : List Nat} (h : l.Pairwise (· < ·)) {start stop i : Nat} :
    i ∈ (l.drop (partitionPoint (· < start) l)).take
        (max (partitionPoint (· < stop) l) (partitionPoint (· < start) l) -
          partitionPoint (· < start) l) ↔ i ∈ l ∧ start ≤ i ∧ i < stop := by
  rw [List.mem_iff_getElem?]
  constructor
  · rintro ⟨k, hk⟩
    obtain ⟨hlt, hget⟩ := List.getElem?_eq_some_iff.mp hk
    simp only [List.length_take, List.length_drop] at hlt
    simp only [List.getElem_take, List.getElem_drop] at hget
    have hstart := getElem_lt_iff h start
      (k := partitionPoint (· < start) l + k) (by omega)
    have hstop := getElem_lt_iff h stop
      (k := partitionPoint (· < start) l + k) (by omega)
    rw [hget] at hstart hstop
    exact ⟨hget ▸ List.getElem_mem _, by omega, by omega⟩
  · rintro ⟨hmem, hstart, hstop⟩
    obtain ⟨k, hk, rfl⟩ := List.getElem_of_mem hmem
    have hlow := getElem_lt_iff h start hk
    have hhigh := getElem_lt_iff h stop hk
    refine ⟨k - partitionPoint (· < start) l, ?_⟩
    rw [List.getElem?_take_of_lt (by omega), List.getElem?_drop,
      show partitionPoint (· < start) l + (k - partitionPoint (· < start) l) = k by omega,
      List.getElem?_eq_getElem hk]

end Positions

/-! ## The activity scan index -/

def buildCostInWalkSteps : Nat := 16

structure ActivityPositions where
  /-- The schedule and terminal events, in history order. -/
  stops : List Nat
  /-- The start and heartbeat events, in history order. -/
  progress : List Nat
deriving DecidableEq, Repr

/-- A key that a map does not hold reads as an empty list. -/
structure ActivityScanIndex where
  /-- The length of the history that the index holds. -/
  indexed : Nat
  /-- The events that scans and settles walked one by one. -/
  walked : Nat
  activities : ActivityExecId → ActivityPositions
  fires : String → SkipList Nat
  children : ExecutionId → List Nat
  interleaved : SkipList Nat
  barriers : SkipList Nat

namespace ActivityScanIndex

def empty : ActivityScanIndex where
  indexed := 0
  walked := 0
  activities := fun _ => ⟨[], []⟩
  fires := fun _ => .empty
  children := fun _ => []
  interleaved := .empty
  barriers := .empty

/-- Files the position of an event under its role. -/
def add (index : ActivityScanIndex) (position : Nat) : ScanRole → ActivityScanIndex
  | .scheduled id =>
    { index with
      activities := Function.update index.activities id
        { index.activities id with stops := (index.activities id).stops ++ [position] }
      interleaved := index.interleaved.push position }
  | .terminal id =>
    { index with
      activities := Function.update index.activities id
        { index.activities id with stops := (index.activities id).stops ++ [position] } }
  | .progress id =>
    { index with
      activities := Function.update index.activities id
        { index.activities id with progress := (index.activities id).progress ++ [position] } }
  | .fired id =>
    { index with fires := Function.update index.fires id.name ((index.fires id.name).push position) }
  | .childTerminal id =>
    { index with children := Function.update index.children id (index.children id ++ [position]) }
  | .interleaved => { index with interleaved := index.interleaved.push position }
  | .externalTerminal | .barrier => { index with barriers := index.barriers.push position }
  | .pass => index

/-- Files the events from `position` on. -/
def addAll (index : ActivityScanIndex) (position : Nat) : List WorkflowEvent → ActivityScanIndex
  | [] => index
  | event :: rest => (index.add position (activityScanRole event)).addAll (position + 1) rest

/-- Adds the events after the indexed part. -/
def extend (index : ActivityScanIndex) (events : List WorkflowEvent) : ActivityScanIndex :=
  { index.addAll index.indexed (events.drop index.indexed) with
    indexed := max index.indexed events.length }

/-- A `usize` counter that saturates; its top is out of reach. -/
def noteWalk (index : ActivityScanIndex) (events : Nat) : ActivityScanIndex :=
  { index with walked := index.walked + events }

def isBuilt (index : ActivityScanIndex) : Bool := 0 < index.indexed

/-- Whether the index pays off for a history of `len` events. -/
def paysOff (index : ActivityScanIndex) (len : Nat) : Bool :=
  index.isBuilt || decide (len * buildCostInWalkSteps ≤ index.walked)

/-- The first unconsumed stop of the target from `bound` on. -/
def firstStop (index : ActivityScanIndex) (target : ScanTarget) (bound : Nat)
    (consumed : Nat → Bool) : Option Nat × ActivityScanIndex :=
  match target with
  | .activity id =>
    let stops := (index.activities id).stops
    ((stops.drop (partitionPoint (· < bound) stops)).find? fun p => ! consumed p, index)
  | .timer id =>
    let (found, fires) := (index.fires id).firstUnconsumed bound consumed
    (found, { index with fires := Function.update index.fires id fires })

/-- The first terminal event of the child from `bound` on, consumed or not. -/
def firstChildTerminal (index : ActivityScanIndex) (child : ExecutionId) (bound : Nat) :
    Option Nat :=
  (index.children child)[partitionPoint (· < bound) (index.children child)]?

def firstInterleaved (index : ActivityScanIndex) (bound : Nat) (consumed : Nat → Bool) :
    Option Nat × ActivityScanIndex :=
  let (found, interleaved) := index.interleaved.firstUnconsumed bound consumed
  (found, { index with interleaved := interleaved })

def firstBarrier (index : ActivityScanIndex) (bound : Nat) (consumed : Nat → Bool) :
    Option Nat × ActivityScanIndex :=
  let (found, barriers) := index.barriers.firstUnconsumed bound consumed
  (found, { index with barriers := barriers })

/-- The progress events of an activity in the range from `start` to before `stop`. -/
def progressIn (index : ActivityScanIndex) (id : ActivityExecId) (start stop : Nat) : List Nat :=
  let progress := (index.activities id).progress
  let first := partitionPoint (· < start) progress
  let last := partitionPoint (· < stop) progress
  (progress.drop first).take (max last first - first)

end ActivityScanIndex

/-! ## What an index holds -/

/-- A schedule or a terminal event of the activity. -/
def ScanRole.isStopOf (id : ActivityExecId) : ScanRole → Bool
  | .scheduled other | .terminal other => other = id
  | _ => false

def ScanRole.isProgressOf (id : ActivityExecId) : ScanRole → Bool
  | .progress other => other = id
  | _ => false

def ScanRole.isFireOf (id : String) : ScanRole → Bool
  | .fired other => other.name = id
  | _ => false

def ScanRole.isTerminalOfChild (id : ExecutionId) : ScanRole → Bool
  | .childTerminal other => other = id
  | _ => false

/-- A command that a scan steps over. -/
def ScanRole.isCommand : ScanRole → Bool
  | .scheduled _ | .interleaved => true
  | _ => false

/-- An event that a scan stashes or stops at. -/
def ScanRole.isBarrier : ScanRole → Bool
  | .externalTerminal | .barrier => true
  | _ => false

namespace ActivityScanIndex

/-! What filing one event adds to each list. -/

variable (index : ActivityScanIndex) (n : Nat) (role : ScanRole)

theorem add_stops (id : ActivityExecId) : ((index.add n role).activities id).stops =
    (index.activities id).stops ++ if role.isStopOf id then [n] else [] := by
  cases role with
  | scheduled other | terminal other | progress other =>
    by_cases hid : id = other
    · subst hid
      simp [add, ScanRole.isStopOf]
    · simp [add, ScanRole.isStopOf, Function.update_of_ne hid, Ne.symm hid]
  | _ => simp [add, ScanRole.isStopOf]

theorem add_progress (id : ActivityExecId) : ((index.add n role).activities id).progress =
    (index.activities id).progress ++ if role.isProgressOf id then [n] else [] := by
  cases role with
  | scheduled other | terminal other | progress other =>
    by_cases hid : id = other
    · subst hid
      simp [add, ScanRole.isProgressOf]
    · simp [add, ScanRole.isProgressOf, Function.update_of_ne hid, Ne.symm hid]
  | _ => simp [add, ScanRole.isProgressOf]

theorem add_fires (id : String) : (index.add n role).fires id =
    if role.isFireOf id then (index.fires id).push n else index.fires id := by
  cases role with
  | fired other =>
    by_cases hid : id = other.name
    · subst hid
      simp [add, ScanRole.isFireOf]
    · simp [add, ScanRole.isFireOf, Function.update_of_ne hid, Ne.symm hid]
  | _ => simp [add, ScanRole.isFireOf]

theorem add_children (id : ExecutionId) : (index.add n role).children id =
    index.children id ++ if role.isTerminalOfChild id then [n] else [] := by
  cases role with
  | childTerminal other =>
    by_cases hid : id = other
    · subst hid
      simp [add, ScanRole.isTerminalOfChild]
    · simp [add, ScanRole.isTerminalOfChild, Function.update_of_ne hid, Ne.symm hid]
  | _ => simp [add, ScanRole.isTerminalOfChild]

theorem add_interleaved : (index.add n role).interleaved =
    if role.isCommand then index.interleaved.push n else index.interleaved := by
  cases role <;> simp [add, ScanRole.isCommand]

theorem add_barriers : (index.add n role).barriers =
    if role.isBarrier then index.barriers.push n else index.barriers := by
  cases role <;> simp [add, ScanRole.isBarrier]

end ActivityScanIndex

/-- The lists hold the positions of the first `n` roles, and the links of the skip lists are
sound for what is consumed. -/
structure IndexedTo (roles : List ScanRole) (consumed : Nat → Bool) (n : Nat)
    (index : ActivityScanIndex) : Prop where
  bound : n ≤ roles.length
  stops : ∀ id, (index.activities id).stops = positionsOf roles n (·.isStopOf id)
  progress : ∀ id, (index.activities id).progress = positionsOf roles n (·.isProgressOf id)
  fires : ∀ id, (index.fires id).positions = positionsOf roles n (·.isFireOf id)
  firesSound : ∀ id, (index.fires id).Sound consumed
  children : ∀ id, index.children id = positionsOf roles n (·.isTerminalOfChild id)
  interleaved : index.interleaved.positions = positionsOf roles n (·.isCommand)
  interleavedSound : index.interleaved.Sound consumed
  barriers : index.barriers.positions = positionsOf roles n (·.isBarrier)
  barriersSound : index.barriers.Sound consumed

/-- The index of a history with these roles. -/
def Indexes (roles : List ScanRole) (consumed : Nat → Bool) (index : ActivityScanIndex) : Prop :=
  IndexedTo roles consumed index.indexed index

section Indexes

variable {roles : List ScanRole} {consumed consumed' : Nat → Bool} {n : Nat}
  {index : ActivityScanIndex}

theorem indexes_empty (roles : List ScanRole) (consumed : Nat → Bool) :
    Indexes roles consumed .empty where
  bound := Nat.zero_le _
  stops := fun _ => rfl
  progress := fun _ => rfl
  fires := fun _ => rfl
  firesSound := fun _ => SkipList.sound_empty
  children := fun _ => rfl
  interleaved := rfl
  interleavedSound := SkipList.sound_empty
  barriers := rfl
  barriersSound := SkipList.sound_empty

/-- More may be consumed, and the history may grow. -/
theorem IndexedTo.mono (h : IndexedTo roles consumed n index) (hle : ∀ p, consumed p → consumed' p)
    (more : List ScanRole) : IndexedTo (roles ++ more) consumed' n index := by
  have hsame : ∀ p : ScanRole → Bool,
      positionsOf (roles ++ more) n p = positionsOf roles n p := by
    intro p
    unfold positionsOf
    apply List.filter_congr
    intro i hi
    have hlt := List.mem_range.mp hi
    rw [List.getElem?_append_left (hlt.trans_le h.bound)]
  exact {
    bound := by simpa using h.bound.trans (Nat.le_add_right _ _)
    stops := fun id => by rw [hsame, h.stops id]
    progress := fun id => by rw [hsame, h.progress id]
    fires := fun id => by rw [hsame, h.fires id]
    firesSound := fun id => (h.firesSound id).mono hle
    children := fun id => by rw [hsame, h.children id]
    interleaved := by rw [hsame, h.interleaved]
    interleavedSound := h.interleavedSound.mono hle
    barriers := by rw [hsame, h.barriers]
    barriersSound := h.barriersSound.mono hle }

theorem Indexes.mono (h : Indexes roles consumed index) (hle : ∀ p, consumed p → consumed' p) :
    Indexes roles consumed' index := by
  simpa [Indexes] using IndexedTo.mono h hle []

/-- The next position in a skip list. -/
theorem pushed_positionsOf {l : SkipList Nat} {p : ScanRole → Bool} {role : ScanRole}
    (hrole : roles[n]? = some role) (hpos : l.positions = positionsOf roles n p)
    (hsound : l.Sound consumed) :
    (if p role then l.push n else l).positions = positionsOf roles (n + 1) p ∧
      (if p role then l.push n else l).Sound consumed := by
  rw [positionsOf_succ, hrole, ← hpos, Option.any_some]
  cases p role with
  | false => exact ⟨by simp, hsound⟩
  | true =>
    refine ⟨rfl, hsound.push fun i hi => ?_⟩
    rw [hpos] at hi
    exact (mem_positionsOf.mp hi).1

/-- **Step.** Filing the next event keeps the index. -/
theorem IndexedTo.add (h : IndexedTo roles consumed n index) {role : ScanRole}
    (hrole : roles[n]? = some role) : IndexedTo roles consumed (n + 1) (index.add n role) := by
  obtain ⟨hlt, -⟩ := List.getElem?_eq_some_iff.mp hrole
  have hcommand := pushed_positionsOf hrole h.interleaved h.interleavedSound
  have hbarrier := pushed_positionsOf hrole h.barriers h.barriersSound
  refine ⟨hlt, fun id => ?_, fun id => ?_, fun id => ?_, fun id => ?_, fun id => ?_, ?_, ?_, ?_, ?_⟩
  · rw [ActivityScanIndex.add_stops, h.stops, positionsOf_succ, hrole, Option.any_some]
  · rw [ActivityScanIndex.add_progress, h.progress, positionsOf_succ, hrole, Option.any_some]
  · rw [ActivityScanIndex.add_fires]
    exact (pushed_positionsOf hrole (h.fires id) (h.firesSound id)).1
  · rw [ActivityScanIndex.add_fires]
    exact (pushed_positionsOf hrole (h.fires id) (h.firesSound id)).2
  · rw [ActivityScanIndex.add_children, h.children, positionsOf_succ, hrole, Option.any_some]
  · rw [ActivityScanIndex.add_interleaved]
    exact hcommand.1
  · rw [ActivityScanIndex.add_interleaved]
    exact hcommand.2
  · rw [ActivityScanIndex.add_barriers]
    exact hbarrier.1
  · rw [ActivityScanIndex.add_barriers]
    exact hbarrier.2

theorem IndexedTo.addAll {events : List WorkflowEvent} (h : IndexedTo roles consumed n index)
    (hroles : events.map activityScanRole = (roles.drop n).take events.length) :
    IndexedTo roles consumed (n + events.length) (index.addAll n events) := by
  induction events generalizing n index with
  | nil => exact h
  | cons event rest ih =>
    have hhead : roles[n]? = some (activityScanRole event) := by
      have := congrArg (·[0]?) hroles
      simpa using this.symm
    have htail : rest.map activityScanRole = (roles.drop (n + 1)).take rest.length := by
      have := congrArg (List.drop 1) hroles
      simpa [List.drop_take, List.drop_drop, Nat.add_comm] using this
    have := ih (h.add hhead) htail
    rwa [show n + 1 + rest.length = n + (event :: rest).length by simp; omega] at this

/-- **Run.** Indexing a longer part of the history keeps the index. -/
theorem Indexes.extend {events : List WorkflowEvent} (h : Indexes roles consumed index)
    (hroles : events.map activityScanRole = roles.take events.length) :
    Indexes roles consumed (index.extend events) := by
  have hdrop : (events.drop index.indexed).map activityScanRole =
      (roles.drop index.indexed).take (events.drop index.indexed).length := by
    rw [List.map_drop, hroles, List.drop_take, List.length_drop]
  have hall := IndexedTo.addAll h hdrop
  have hlen : index.indexed + (events.drop index.indexed).length =
      max index.indexed events.length := by
    rw [List.length_drop]
    omega
  rw [hlen] at hall
  exact ⟨hall.bound, hall.stops, hall.progress, hall.fires, hall.firesSound, hall.children,
    hall.interleaved, hall.interleavedSound, hall.barriers, hall.barriersSound⟩

/-! ### Queries -/

/-- The first position from `bound` to before `n` whose entry has the property and that is not
consumed. -/
def firstRole {β : Type*} (roles : List β) (consumed : Nat → Bool) (n bound : Nat)
    (p : β → Bool) : Option Nat :=
  (List.range n).find? fun i => (roles[i]?).any p && (decide (bound ≤ i) && ! consumed i)

theorem ScanTarget.isStopOf_eq_stopsAt (id : ActivityExecId) :
    (ScanRole.isStopOf id) = ScanTarget.stopsAt (.activity id) := by
  funext role
  cases role <;> rfl

theorem ScanTarget.isFireOf_eq_stopsAt (id : String) :
    (ScanRole.isFireOf id) = ScanTarget.stopsAt (.timer id) := by
  funext role
  cases role <;> rfl

theorem Indexes.firstStop (h : Indexes roles consumed index) (target : ScanTarget) (bound : Nat) :
    (index.firstStop target bound consumed).1 =
        firstRole roles consumed index.indexed bound target.stopsAt ∧
      (index.firstStop target bound consumed).2.indexed = index.indexed ∧
      Indexes roles consumed (index.firstStop target bound consumed).2 := by
  cases target with
  | activity id =>
    refine ⟨?_, rfl, h⟩
    simp only [ActivityScanIndex.firstStop]
    rw [h.stops id, find?_drop_partitionPoint positionsOf_sorted, find?_positionsOf]
    simp only [ScanTarget.isStopOf_eq_stopsAt]
    rfl
  | timer id =>
    obtain ⟨hfound, hpos, hsound⟩ := (h.firesSound id).query bound
    simp only [ActivityScanIndex.firstStop]
    refine ⟨?_, trivial, h.bound, h.stops, h.progress, fun other => ?_, fun other => ?_, h.children,
      h.interleaved, h.interleavedSound, h.barriers, h.barriersSound⟩
    · rw [hfound, h.fires id, find?_positionsOf]
      simp only [ScanTarget.isFireOf_eq_stopsAt]
      rfl
    · by_cases hid : other = id
      · subst hid
        simpa [hpos] using h.fires other
      · simpa [Function.update_of_ne hid] using h.fires other
    · by_cases hid : other = id
      · subst hid
        simpa using hsound
      · simpa [Function.update_of_ne hid] using h.firesSound other

theorem Indexes.firstBarrier (h : Indexes roles consumed index) (bound : Nat) :
    (index.firstBarrier bound consumed).1 =
        firstRole roles consumed index.indexed bound ScanRole.isBarrier ∧
      (index.firstBarrier bound consumed).2.indexed = index.indexed ∧
      Indexes roles consumed (index.firstBarrier bound consumed).2 := by
  obtain ⟨hfound, hpos, hsound⟩ := h.barriersSound.query bound
  simp only [ActivityScanIndex.firstBarrier]
  refine ⟨?_, trivial, h.bound, h.stops, h.progress, h.fires, h.firesSound, h.children,
    h.interleaved, h.interleavedSound, hpos.trans h.barriers, hsound⟩
  rw [hfound, h.barriers, find?_positionsOf]
  rfl

theorem Indexes.firstInterleaved (h : Indexes roles consumed index) (bound : Nat) :
    (index.firstInterleaved bound consumed).1 =
        firstRole roles consumed index.indexed bound ScanRole.isCommand ∧
      (index.firstInterleaved bound consumed).2.indexed = index.indexed ∧
      Indexes roles consumed (index.firstInterleaved bound consumed).2 := by
  obtain ⟨hfound, hpos, hsound⟩ := h.interleavedSound.query bound
  simp only [ActivityScanIndex.firstInterleaved]
  refine ⟨?_, trivial, h.bound, h.stops, h.progress, h.fires, h.firesSound, h.children,
    hpos.trans h.interleaved, hsound, h.barriers, h.barriersSound⟩
  rw [hfound, h.interleaved, find?_positionsOf]
  rfl

theorem Indexes.firstChildTerminal (h : Indexes roles consumed index) (child : ExecutionId)
    (bound : Nat) : index.firstChildTerminal child bound =
      (List.range index.indexed).find? fun i =>
        (roles[i]?).any (·.isTerminalOfChild child) && decide (bound ≤ i) := by
  unfold ActivityScanIndex.firstChildTerminal
  rw [h.children child, ← List.head?_drop, ← find?_positionsOf, drop_partitionPoint,
    dropWhile_lt_eq_filter positionsOf_sorted, List.head?_filter]

/-- The progress events that a settle reads are those of the range. -/
theorem Indexes.mem_progressIn (h : Indexes roles consumed index) {id : ActivityExecId}
    {start stop i : Nat} (hstop : stop ≤ index.indexed) :
    i ∈ index.progressIn id start stop ↔
      start ≤ i ∧ i < stop ∧ (roles[i]?).any (·.isProgressOf id) := by
  unfold ActivityScanIndex.progressIn
  rw [h.progress id, mem_slice positionsOf_sorted, mem_positionsOf]
  constructor
  · rintro ⟨⟨-, hrole⟩, hstart, hlt⟩
    exact ⟨hstart, hlt, hrole⟩
  · rintro ⟨hstart, hlt, hrole⟩
    exact ⟨⟨by omega, hrole⟩, hstart, hlt⟩

theorem Indexes.noteWalk (h : Indexes roles consumed index) (events : Nat) :
    Indexes roles consumed (index.noteWalk events) :=
  ⟨h.bound, h.stops, h.progress, h.fires, h.firesSound, h.children, h.interleaved,
    h.interleavedSound, h.barriers, h.barriersSound⟩

end Indexes

/-! ## The external terminal index -/

/-- The terminal positions of one key. A history can repeat an id. -/
inductive KeyPositions
  | one (position : Nat)
  | many (positions : List Nat)
deriving DecidableEq, Repr

def KeyPositions.toList : KeyPositions → List Nat
  | .one position => [position]
  | .many positions => positions

structure ExternalTerminalIndex where
  indexed : Nat
  /-- Every external terminal event, in history order. -/
  terminals : SkipList Nat
  byKey : ExternalKey → Option KeyPositions

namespace ExternalTerminalIndex

def empty : ExternalTerminalIndex := ⟨0, .empty, fun _ => none⟩

def add (index : ExternalTerminalIndex) (position : Nat) : Option ExternalKey → ExternalTerminalIndex
  | none => index
  | some key =>
    { index with
      terminals := index.terminals.push position
      byKey := Function.update index.byKey key <| some <|
        match index.byKey key with
        | none => .one position
        | some (.one first) => .many [first, position]
        | some (.many all) => .many (all ++ [position]) }

def addAll (index : ExternalTerminalIndex) (position : Nat) :
    List WorkflowEvent → ExternalTerminalIndex
  | [] => index
  | event :: rest => (index.add position (ExternalKey.ofTerminal event)).addAll (position + 1) rest

def extend (index : ExternalTerminalIndex) (events : List WorkflowEvent) : ExternalTerminalIndex :=
  { index.addAll index.indexed (events.drop index.indexed) with
    indexed := max index.indexed events.length }

/-- The first unconsumed external terminal event from `bound` on. -/
def first (index : ExternalTerminalIndex) (bound : Nat) (consumed : Nat → Bool) :
    Option Nat × ExternalTerminalIndex :=
  let (found, terminals) := index.terminals.firstUnconsumed bound consumed
  (found, { index with terminals := terminals })

/-- The first unconsumed terminal event of the key from `bound` on. -/
def firstOf (index : ExternalTerminalIndex) (key : ExternalKey) (bound : Nat)
    (consumed : Nat → Bool) : Option Nat :=
  match index.byKey key with
  | none => none
  | some (.one position) => if bound ≤ position ∧ ! consumed position then some position else none
  | some (.many all) => (all.drop (partitionPoint (· < bound) all)).find? fun p => ! consumed p

/-- The positions of a key. -/
def positions (index : ExternalTerminalIndex) (key : ExternalKey) : List Nat :=
  (index.byKey key).elim [] KeyPositions.toList

theorem add_positions (index : ExternalTerminalIndex) (n : Nat) (found : Option ExternalKey)
    (key : ExternalKey) : (index.add n found).positions key =
      index.positions key ++ if found = some key then [n] else [] := by
  cases found with
  | none => simp [add]
  | some other =>
    by_cases hkey : key = other
    · subst hkey
      simp only [positions, add, Function.update_self, if_true, Option.elim_some]
      cases index.byKey key with
      | none => rfl
      | some held => cases held <;> rfl
    · simp [positions, add, Function.update_of_ne hkey, Ne.symm hkey]

theorem add_terminals (index : ExternalTerminalIndex) (n : Nat) (found : Option ExternalKey) :
    (index.add n found).terminals =
      if found.isSome then index.terminals.push n else index.terminals := by
  cases found <;> rfl

end ExternalTerminalIndex

/-- The lists hold the positions of the first `n` entries of a history with these keys. -/
structure TerminalsTo (keys : List (Option ExternalKey)) (consumed : Nat → Bool) (n : Nat)
    (index : ExternalTerminalIndex) : Prop where
  bound : n ≤ keys.length
  terminals : index.terminals.positions = positionsOf keys n (·.isSome)
  sound : index.terminals.Sound consumed
  byKey : ∀ key, index.positions key = positionsOf keys n (· = some key)

def TerminalsIndexed (keys : List (Option ExternalKey)) (consumed : Nat → Bool)
    (index : ExternalTerminalIndex) : Prop :=
  TerminalsTo keys consumed index.indexed index

section TerminalsIndexed

variable {keys : List (Option ExternalKey)} {consumed consumed' : Nat → Bool} {n : Nat}
  {index : ExternalTerminalIndex}

theorem terminalsIndexed_empty (keys : List (Option ExternalKey)) (consumed : Nat → Bool) :
    TerminalsIndexed keys consumed .empty :=
  ⟨Nat.zero_le _, rfl, SkipList.sound_empty, fun _ => rfl⟩

theorem TerminalsTo.mono (h : TerminalsTo keys consumed n index)
    (hle : ∀ p, consumed p → consumed' p) (more : List (Option ExternalKey)) :
    TerminalsTo (keys ++ more) consumed' n index := by
  have hsame : ∀ p : Option ExternalKey → Bool,
      positionsOf (keys ++ more) n p = positionsOf keys n p := by
    intro p
    unfold positionsOf
    apply List.filter_congr
    intro i hi
    have hlt := List.mem_range.mp hi
    rw [List.getElem?_append_left (hlt.trans_le h.bound)]
  exact ⟨by simpa using h.bound.trans (Nat.le_add_right _ _), by rw [hsame, h.terminals],
    h.sound.mono hle, fun key => by rw [hsame, h.byKey key]⟩

theorem TerminalsIndexed.mono (h : TerminalsIndexed keys consumed index)
    (hle : ∀ p, consumed p → consumed' p) : TerminalsIndexed keys consumed' index := by
  simpa [TerminalsIndexed] using TerminalsTo.mono h hle []

theorem TerminalsTo.add (h : TerminalsTo keys consumed n index) {found : Option ExternalKey}
    (hfound : keys[n]? = some found) : TerminalsTo keys consumed (n + 1) (index.add n found) := by
  obtain ⟨hlt, -⟩ := List.getElem?_eq_some_iff.mp hfound
  refine ⟨hlt, ?_, ?_, fun key => ?_⟩
  · rw [ExternalTerminalIndex.add_terminals, positionsOf_succ, hfound, Option.any_some,
      ← h.terminals]
    cases found.isSome with
    | false => simp
    | true => rfl
  · rw [ExternalTerminalIndex.add_terminals]
    cases found.isSome with
    | false => exact h.sound
    | true =>
      refine h.sound.push fun i hi => ?_
      rw [h.terminals] at hi
      exact (mem_positionsOf.mp hi).1
  · rw [ExternalTerminalIndex.add_positions, h.byKey key, positionsOf_succ, hfound,
      Option.any_some]
    simp

theorem TerminalsTo.addAll {events : List WorkflowEvent} (h : TerminalsTo keys consumed n index)
    (hkeys : events.map ExternalKey.ofTerminal = (keys.drop n).take events.length) :
    TerminalsTo keys consumed (n + events.length) (index.addAll n events) := by
  induction events generalizing n index with
  | nil => exact h
  | cons event rest ih =>
    have hhead : keys[n]? = some (ExternalKey.ofTerminal event) := by
      have := congrArg (·[0]?) hkeys
      simpa using this.symm
    have htail : rest.map ExternalKey.ofTerminal = (keys.drop (n + 1)).take rest.length := by
      have := congrArg (List.drop 1) hkeys
      simpa [List.drop_take, List.drop_drop, Nat.add_comm] using this
    have := ih (h.add hhead) htail
    rwa [show n + 1 + rest.length = n + (event :: rest).length by simp; omega] at this

theorem TerminalsIndexed.extend {events : List WorkflowEvent}
    (h : TerminalsIndexed keys consumed index)
    (hkeys : events.map ExternalKey.ofTerminal = keys.take events.length) :
    TerminalsIndexed keys consumed (index.extend events) := by
  have hdrop : (events.drop index.indexed).map ExternalKey.ofTerminal =
      (keys.drop index.indexed).take (events.drop index.indexed).length := by
    rw [List.map_drop, hkeys, List.drop_take, List.length_drop]
  have hall := TerminalsTo.addAll h hdrop
  have hlen : index.indexed + (events.drop index.indexed).length =
      max index.indexed events.length := by
    rw [List.length_drop]
    omega
  rw [hlen] at hall
  exact ⟨hall.bound, hall.terminals, hall.sound, hall.byKey⟩

theorem TerminalsIndexed.first (h : TerminalsIndexed keys consumed index) (bound : Nat) :
    (index.first bound consumed).1 =
        ((List.range index.indexed).find? fun i =>
          (keys[i]?).any (·.isSome) && (decide (bound ≤ i) && ! consumed i)) ∧
      (index.first bound consumed).2.indexed = index.indexed ∧
      TerminalsIndexed keys consumed (index.first bound consumed).2 := by
  obtain ⟨hfound, hpos, hsound⟩ := h.sound.query bound
  simp only [ExternalTerminalIndex.first]
  refine ⟨?_, trivial, h.bound, hpos.trans h.terminals, hsound, h.byKey⟩
  rw [hfound, h.terminals, find?_positionsOf]

theorem TerminalsIndexed.firstOf (h : TerminalsIndexed keys consumed index) (key : ExternalKey)
    (bound : Nat) : index.firstOf key bound consumed =
      (List.range index.indexed).find? fun i =>
        (keys[i]?).any (· = some key) && (decide (bound ≤ i) && ! consumed i) := by
  have hpos := h.byKey key
  rw [← find?_positionsOf, ← hpos]
  have hsorted : (index.positions key).Pairwise (· < ·) := hpos ▸ positionsOf_sorted
  unfold ExternalTerminalIndex.firstOf
  unfold ExternalTerminalIndex.positions at hsorted ⊢
  cases hk : index.byKey key with
  | none => rfl
  | some held =>
    cases held with
    | one position =>
      simp only [Option.elim_some, KeyPositions.toList, List.find?_singleton]
      simp
    | many all =>
      simp only [hk, Option.elim_some, KeyPositions.toList] at hsorted ⊢
      exact find?_drop_partitionPoint hsorted bound _

end TerminalsIndexed
end Harvest.Replay
