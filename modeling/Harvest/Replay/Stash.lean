import Harvest.Replay.Roles
import Mathlib.Data.List.Sort

/-!
# The stashes of the matcher

Model of `signal_stash.rs`, and of the stashes of external calls in `replay.rs`. A signal stash
is the list of its entries in push order. A stash of external calls keeps a push number with
each entry, and a map from each id to its first entry.

Proved here:
* `ExternalStash.WellFormed.firstMut`: the map finds the entry that a search of the whole
  stash finds.
* `ExternalStash.WellFormed.pushBack`, `.of_firstMut`, `.of_removeFirst`: every operation
  keeps the map in step with the entries.
* `ExternalStash.run_matches_plain_search`: any sequence of calls answers as a plain vector
  searched from the front does.
-/

namespace Harvest.Replay

/-! ## Signals -/

structure StashedSignal where
  name : String
  payload : Json
  /-- The index of its event. -/
  index : Nat
deriving DecidableEq, Repr

/-- The stashed signals in push order. The queues by name, the empty slots and their compaction
do not change which entries there are, nor their order. -/
structure SignalStash where
  entries : List StashedSignal
deriving DecidableEq, Repr

namespace SignalStash

def empty : SignalStash := ⟨[]⟩

def isEmpty (stash : SignalStash) : Bool := stash.entries.isEmpty

def push (stash : SignalStash) (name : String) (payload : Json) (index : Nat) : SignalStash :=
  ⟨stash.entries ++ [⟨name, payload, index⟩]⟩

/-- The entries of a name in push order. -/
def ofName (stash : SignalStash) (name : String) : List StashedSignal :=
  stash.entries.filter fun entry => entry.name = name

/-- Removes the first entry of `name` that `accept` takes. -/
def removeFirst (stash : SignalStash) (name : String) (accept : StashedSignal → Bool) :
    Option (StashedSignal × SignalStash) :=
  (stash.entries.find? fun entry => decide (entry.name = name) && accept entry).map fun entry =>
    (entry, ⟨stash.entries.eraseP fun entry => decide (entry.name = name) && accept entry⟩)

/-- Removes every entry of `name` that `accept` takes. -/
def takeOfName (stash : SignalStash) (name : String) (accept : StashedSignal → Bool) :
    List StashedSignal × SignalStash :=
  (stash.entries.filter fun entry => decide (entry.name = name) && accept entry,
    ⟨stash.entries.filter fun entry => ! (decide (entry.name = name) && accept entry)⟩)

/-- Removes every entry with an event index of `horizon` or more. -/
def splitOffFrom (stash : SignalStash) (horizon : Nat) : List StashedSignal × SignalStash :=
  (stash.entries.filter fun entry => decide (horizon ≤ entry.index),
    ⟨stash.entries.filter fun entry => ! decide (horizon ≤ entry.index)⟩)

/-- The entries by event index, those of one index in the order they had. -/
def sortByIndex (entries : List StashedSignal) : List StashedSignal :=
  entries.insertionSort fun a b => a.index ≤ b.index

/-- Adds `hidden` after the entries, then sorts every entry by event index. A stash that is in
order already is only appended to; the sort would not move an entry. -/
def restore (stash : SignalStash) (hidden : List StashedSignal) : SignalStash :=
  ⟨sortByIndex (stash.entries ++ hidden)⟩

end SignalStash

/-! ## External calls -/

/-- The first entry of one id, and the number of entries with that id. -/
structure IdEntries where
  first : Nat
  count : Nat
deriving DecidableEq, Repr

/-- The stashed calls of one external kind, in push order. -/
structure ExternalStash (ι T : Type*) where
  /-- Each entry with its push number. -/
  entries : List (Nat × T)
  /-- The push number of the next entry. -/
  next : Nat
  ids : ι → Option IdEntries

/-- Changes the first element with `p`, if there is one. -/
def changeFirst {T : Type*} (p : T → Bool) (f : T → T) : List T → Option (List T)
  | [] => none
  | a :: rest => if p a then some (f a :: rest) else (changeFirst p f rest).map (a :: ·)

theorem changeFirst_eq {T : Type*} (p : T → Bool) (f : T → T) (l : List T) :
    changeFirst p f l = (l.findIdx? p).map fun at' => l.modify at' f := by
  induction l with
  | nil => rfl
  | cons a rest ih =>
    unfold changeFirst
    rw [List.findIdx?_cons, ih]
    split_ifs with h
    · rfl
    · cases rest.findIdx? p <;> rfl

namespace ExternalStash

variable {ι T : Type*} [DecidableEq ι]

def empty : ExternalStash ι T := ⟨[], 0, fun _ => none⟩

def isEmpty (stash : ExternalStash ι T) : Bool := stash.entries.isEmpty

/-- The calls in push order. -/
def calls (stash : ExternalStash ι T) : List T := stash.entries.map Prod.snd

section Operations

variable (key : T → ι)

def pushBack (stash : ExternalStash ι T) (entry : T) : ExternalStash ι T where
  entries := stash.entries ++ [(stash.next, entry)]
  next := stash.next + 1
  ids := Function.update stash.ids (key entry) <| some <|
    match stash.ids (key entry) with
    | some ids => { ids with count := ids.count + 1 }
    | none => ⟨stash.next, 1⟩

def contains (stash : ExternalStash ι T) (id : ι) : Bool := (stash.ids id).isSome

/-- The position of the entry with this push number. Without gaps the first guess is right;
otherwise a binary search finds it. -/
def position (stash : ExternalStash ι T) (push : Nat) : Option Nat :=
  stash.entries.head?.bind fun front =>
    if push < front.1 then none
    else if (stash.entries[push - front.1]?).any (·.1 = push) then some (push - front.1)
    else stash.entries.findIdx? (·.1 = push)

/-- The position of the first entry with `id` that `accept` takes. -/
def firstAt (stash : ExternalStash ι T) (id : ι) (accept : T → Bool) : Option Nat :=
  (stash.ids id).bind fun ids =>
    (stash.position ids.first).bind fun start =>
      if ids.count = 1 then
        if (stash.entries[start]?).any fun entry => accept entry.2 then some start else none
      else
        ((stash.entries.drop start).findIdx? fun entry =>
          decide (key entry.2 = id) && accept entry.2).map (· + start)

/-- Changes the first entry with `id` that `accept` takes, if there is one. -/
def firstMut (stash : ExternalStash ι T) (id : ι) (accept : T → Bool) (f : T → T) :
    Option (ExternalStash ι T) :=
  (stash.firstAt key id accept).map fun at' =>
    { stash with entries := stash.entries.modify at' fun entry => (entry.1, f entry.2) }

/-- The ids after the entry `entry` with number `push` is gone from the front of `rest`. -/
def idsWithout (stash : ExternalStash ι T) (push : Nat) (entry : T) (rest : List (Nat × T)) :
    ι → Option IdEntries :=
  Function.update stash.ids (key entry) <|
    match stash.ids (key entry) with
    | some ids =>
      if 1 < ids.count then
        let first :=
          if ids.first = push then (rest.find? fun other => key other.2 = key entry).map Prod.fst
          else some ids.first
        first.map fun first => ⟨first, ids.count - 1⟩
      else none
    | none => none

/-- Removes the first entry that `accept` takes. -/
def removeFirst (stash : ExternalStash ι T) (accept : T → Bool) :
    Option (T × ExternalStash ι T) :=
  (stash.entries.findIdx? fun entry => accept entry.2).bind fun at' =>
    (stash.entries[at']?).map fun (push, entry) =>
      (entry,
        { stash with
          entries := stash.entries.eraseIdx at'
          ids := stash.idsWithout key push entry ((stash.entries.eraseIdx at').drop at') })

end Operations

/-! ### The map of ids -/

variable (key : T → ι)

/-- What the map should hold for `id`. -/
def idEntries (id : ι) (entries : List (Nat × T)) : Option IdEntries :=
  match entries.filter fun entry => decide (key entry.2 = id) with
  | [] => none
  | (push, _) :: rest => some ⟨push, rest.length + 1⟩

structure WellFormed (stash : ExternalStash ι T) : Prop where
  sorted : stash.entries.Pairwise (·.1 < ·.1)
  below : ∀ entry ∈ stash.entries, entry.1 < stash.next
  ids : ∀ id, stash.ids id = idEntries key id stash.entries

variable {key} {stash : ExternalStash ι T}

theorem wellFormed_empty : WellFormed key (empty : ExternalStash ι T) :=
  ⟨List.Pairwise.nil, by simp [empty], fun _ => rfl⟩

theorem WellFormed.contains (h : stash.WellFormed key) {id : ι} :
    stash.contains id ↔ ∃ call ∈ stash.calls, key call = id := by
  unfold ExternalStash.contains calls
  rw [h.ids id, idEntries]
  cases hfilter : stash.entries.filter fun entry => decide (key entry.2 = id) with
  | nil =>
    have hnone := List.filter_eq_nil_iff.mp hfilter
    simp only [Option.isSome_none, Bool.false_eq_true, List.mem_map, false_iff, not_exists, not_and]
    rintro call ⟨entry, hentry, rfl⟩ heq
    exact hnone entry hentry (by simpa using heq)
  | cons first rest =>
    have hmem : first ∈ stash.entries.filter fun entry => decide (key entry.2 = id) := by
      simp [hfilter]
    obtain ⟨hmem, hkey⟩ := List.mem_filter.mp hmem
    simp only [Option.isSome_some, List.mem_map, true_iff]
    exact ⟨first.2, ⟨first, hmem, rfl⟩, by simpa using hkey⟩

/-- A push number names one position. -/
theorem WellFormed.number_injective (h : stash.WellFormed key) {i j : Nat} {a b : Nat × T}
    (ha : stash.entries[i]? = some a) (hb : stash.entries[j]? = some b) (heq : a.1 = b.1) :
    i = j := by
  obtain ⟨hi, rfl⟩ := List.getElem?_eq_some_iff.mp ha
  obtain ⟨hj, rfl⟩ := List.getElem?_eq_some_iff.mp hb
  rcases Nat.lt_trichotomy i j with hlt | rfl | hgt
  · have := List.pairwise_iff_getElem.mp h.sorted i j hi hj hlt
    omega
  · rfl
  · have := List.pairwise_iff_getElem.mp h.sorted j i hj hi hgt
    omega

theorem WellFormed.position_eq (h : stash.WellFormed key) {start : Nat} {entry : Nat × T}
    (hentry : stash.entries[start]? = some entry) : stash.position entry.1 = some start := by
  have hfind : stash.entries.findIdx? (·.1 = entry.1) = some start := by
    obtain ⟨hlt, hget⟩ := List.getElem?_eq_some_iff.mp hentry
    rw [List.findIdx?_eq_some_iff_getElem]
    refine ⟨hlt, by simp [hget], fun j hj => ?_⟩
    intro heq
    have := h.number_injective (List.getElem?_eq_getElem (Nat.lt_trans hj hlt)) hentry
      (by simpa using heq)
    omega
  have hfront : ∃ front, stash.entries[0]? = some front ∧ front.1 ≤ entry.1 := by
    obtain ⟨hlt, hget⟩ := List.getElem?_eq_some_iff.mp hentry
    refine ⟨_, List.getElem?_eq_getElem (Nat.zero_lt_of_lt hlt), ?_⟩
    rcases Nat.eq_zero_or_pos start with rfl | hpos
    · rw [hget]
    · have := List.pairwise_iff_getElem.mp h.sorted 0 start (by omega) hlt hpos
      rw [hget] at this
      exact this.le
  obtain ⟨front, hhead, hle⟩ := hfront
  unfold position
  rw [List.head?_eq_getElem?, hhead, Option.bind_some, if_neg (Nat.not_lt.mpr hle)]
  split_ifs with hguess
  · cases hget : stash.entries[entry.1 - front.1]? with
    | none => simp [hget] at hguess
    | some guessed =>
      rw [hget] at hguess
      rw [h.number_injective hget hentry (by simpa using hguess)]
  · exact hfind

/-- **The map finds what a search of the whole stash finds.** -/
theorem WellFormed.firstAt_eq (h : stash.WellFormed key) (id : ι) (accept : T → Bool) :
    stash.firstAt key id accept =
      stash.entries.findIdx? fun entry => decide (key entry.2 = id) && accept entry.2 := by
  unfold firstAt
  rw [h.ids id]
  cases hfilter : stash.entries.filter fun entry => decide (key entry.2 = id) with
  | nil =>
    have hnone := List.filter_eq_nil_iff.mp hfilter
    simp only [idEntries, hfilter, Option.bind_none]
    symm
    rw [List.findIdx?_eq_none_iff]
    intro entry hentry
    simp [hnone entry hentry]
  | cons first others =>
    obtain ⟨before, after, hentries, hbefore, hkey, hafter⟩ :=
      List.filter_eq_cons_iff.mp hfilter
    have hget : stash.entries[before.length]? = some first := by simp [hentries]
    have hskip : ∀ entry ∈ before, (decide (key entry.2 = id) && accept entry.2) = false := by
      intro entry hentry
      have := hbefore entry hentry
      simp only [decide_eq_true_eq] at this
      simp [this]
    have hsearch : (stash.entries.findIdx? fun entry => decide (key entry.2 = id) && accept entry.2) =
        ((first :: after).findIdx? fun entry =>
          decide (key entry.2 = id) && accept entry.2).map (· + before.length) := by
      rw [hentries, List.findIdx?_append, List.findIdx?_eq_none_iff.mpr hskip, Option.none_or]
    simp only [idEntries, hfilter, Option.bind_some, h.position_eq hget, hsearch]
    split_ifs with hone haccept
    · -- the only entry of the id
      simp only [hget, Option.any_some] at haccept
      simp only [decide_eq_true_eq] at hkey
      simp [List.findIdx?_cons, hkey, haccept]
    · simp only [hget, Option.any_some, Bool.not_eq_true] at haccept
      have hrest : ∀ entry ∈ after, (decide (key entry.2 = id) && accept entry.2) = false := by
        intro entry hentry
        have hothers : others = [] := by simpa using hone
        rw [hothers] at hafter
        have := List.filter_eq_nil_iff.mp hafter entry hentry
        simp only [decide_eq_true_eq] at this
        simp [this]
      rw [List.findIdx?_cons, List.findIdx?_eq_none_iff.mpr hrest]
      simp [haccept]
    · rw [hentries, List.drop_left]

theorem findIdx?_map_snd (p : T → Bool) (entries : List (Nat × T)) :
    (entries.map Prod.snd).findIdx? p = entries.findIdx? fun entry => p entry.2 := by
  rw [List.findIdx?_map]
  rfl

theorem map_snd_modify (f : T → T) (at' : Nat) (entries : List (Nat × T)) :
    (entries.modify at' fun entry => (entry.1, f entry.2)).map Prod.snd =
      (entries.map Prod.snd).modify at' f := by
  apply List.ext_getElem?
  intro i
  simp only [List.getElem?_map, List.getElem?_modify]
  cases entries[i]? <;> split_ifs <;> rfl

theorem WellFormed.firstMut (h : stash.WellFormed key) (id : ι) (accept : T → Bool) (f : T → T) :
    (stash.firstMut key id accept f).map calls =
      changeFirst (fun call => decide (key call = id) && accept call) f stash.calls := by
  unfold ExternalStash.firstMut
  rw [h.firstAt_eq, changeFirst_eq, calls, findIdx?_map_snd, Option.map_map]
  congr 1
  funext at'
  exact map_snd_modify f at' stash.entries

/-! ### Every operation keeps the map -/

theorem idEntries_eq (id : ι) (entries : List (Nat × T)) : idEntries key id entries =
    match (entries.map fun entry => (entry.1, key entry.2)).filter fun entry => decide (entry.2 = id) with
    | [] => none
    | (push, _) :: rest => some ⟨push, rest.length + 1⟩ := by
  rw [List.filter_map]
  unfold idEntries
  simp only [Function.comp_def]
  cases entries.filter fun entry => decide (key entry.2 = id) with
  | nil => rfl
  | cons first rest => simp

theorem WellFormed.pushBack (h : stash.WellFormed key) (entry : T) :
    (stash.pushBack key entry).WellFormed key := by
  constructor
  · exact List.pairwise_append.mpr ⟨h.sorted, by simp, by simpa using h.below⟩
  · intro e he
    simp only [ExternalStash.pushBack, List.mem_append, List.mem_singleton] at he ⊢
    rcases he with he | rfl
    · exact Nat.lt_succ_of_lt (h.below e he)
    · exact Nat.lt_succ_self _
  · intro id
    simp only [ExternalStash.pushBack, idEntries, List.filter_append]
    by_cases hid : id = key entry
    · subst hid
      rw [Function.update_self, h.ids (key entry), idEntries]
      cases stash.entries.filter fun e => decide (key e.2 = key entry) with
      | nil => simp
      | cons first rest => simp
    · rw [Function.update_of_ne hid, h.ids id, idEntries]
      simp [Ne.symm hid]

theorem WellFormed.of_firstMut (h : stash.WellFormed key) {id : ι} {accept : T → Bool} {f : T → T}
    (hkey : ∀ call, key (f call) = key call) {changed : ExternalStash ι T}
    (hchanged : stash.firstMut key id accept f = some changed) : changed.WellFormed key := by
  obtain ⟨at', -, rfl⟩ := Option.map_eq_some_iff.mp hchanged
  have hsame : (stash.entries.modify at' fun entry => (entry.1, f entry.2)).map
      (fun entry => (entry.1, key entry.2)) = stash.entries.map fun entry => (entry.1, key entry.2) := by
    apply List.ext_getElem?
    intro i
    simp only [List.getElem?_map, List.getElem?_modify]
    cases stash.entries[i]? <;> split_ifs <;> simp [hkey]
  have hnumbers : (stash.entries.modify at' fun entry => (entry.1, f entry.2)).map Prod.fst =
      stash.entries.map Prod.fst := by
    simpa [Function.comp_def] using congrArg (List.map Prod.fst) hsame
  constructor
  · have hsorted := List.pairwise_map.mpr h.sorted
    exact List.pairwise_map.mp (hnumbers ▸ hsorted)
  · intro entry hentry
    have hmem : entry.1 ∈ (stash.entries.modify at' fun entry => (entry.1, f entry.2)).map Prod.fst :=
      List.mem_map_of_mem hentry
    rw [hnumbers] at hmem
    obtain ⟨old, hold, heq⟩ := List.mem_map.mp hmem
    exact heq ▸ h.below old hold
  · intro other
    rw [idEntries_eq, hsame, ← idEntries_eq]
    exact h.ids other

/-- The entries around the one that a removal takes. -/
theorem removeFirst_eq_some {accept : T → Bool} {call : T} {rest : ExternalStash ι T}
    (hremoved : stash.removeFirst key accept = some (call, rest)) :
    ∃ before push after, stash.entries = before ++ (push, call) :: after ∧
      (∀ entry ∈ before, ¬ accept entry.2) ∧ accept call ∧
      rest = { stash with
        entries := before ++ after, ids := stash.idsWithout key push call after } := by
  obtain ⟨at', hat, hentry⟩ := Option.bind_eq_some_iff.mp hremoved
  obtain ⟨⟨push, entry⟩, hget, heq⟩ := Option.map_eq_some_iff.mp hentry
  obtain ⟨rfl, rfl⟩ := Prod.mk.inj heq
  obtain ⟨hlt, hgetElem⟩ := List.getElem?_eq_some_iff.mp hget
  obtain ⟨_, haccept, hbefore⟩ := List.findIdx?_eq_some_iff_getElem.mp hat
  have hsplit : stash.entries = stash.entries.take at' ++ (push, entry) :: stash.entries.drop (at' + 1) := by
    rw [← hgetElem, ← List.drop_eq_getElem_cons hlt, List.take_append_drop]
  refine ⟨stash.entries.take at', push, stash.entries.drop (at' + 1), hsplit, ?_, ?_, ?_⟩
  · intro e he
    obtain ⟨k, hk, rfl⟩ := List.getElem_of_mem he
    simp only [List.length_take] at hk
    simpa using hbefore k (by omega)
  · simpa [hgetElem] using haccept
  · have herase : stash.entries.eraseIdx at' = stash.entries.take at' ++ stash.entries.drop (at' + 1) :=
      List.eraseIdx_eq_take_drop_succ _ _
    have hdrop : (stash.entries.take at' ++ stash.entries.drop (at' + 1)).drop at' =
        stash.entries.drop (at' + 1) := by
      rw [List.drop_append_of_le_length (by simp; omega)]
      simp
    simp only [herase, hdrop]

theorem removeFirst_calls {accept : T → Bool} {call : T} {rest : ExternalStash ι T}
    (hremoved : stash.removeFirst key accept = some (call, rest)) :
    rest.calls = stash.calls.eraseP accept ∧ stash.calls.find? accept = some call := by
  obtain ⟨before, push, after, hentries, hbefore, haccept, rfl⟩ := removeFirst_eq_some hremoved
  have hskip : ∀ c ∈ before.map Prod.snd, ¬ accept c := by
    intro c hc
    obtain ⟨entry, hentry, rfl⟩ := List.mem_map.mp hc
    exact hbefore entry hentry
  simp only [calls, hentries, List.map_append, List.map_cons]
  constructor
  · rw [List.eraseP_append_right _ hskip, List.eraseP_cons_of_pos haccept]
  · rw [List.find?_append, List.find?_eq_none.mpr hskip, Option.none_or,
      List.find?_cons_of_pos haccept]

theorem WellFormed.of_removeFirst (h : stash.WellFormed key) {accept : T → Bool} {call : T}
    {rest : ExternalStash ι T} (hremoved : stash.removeFirst key accept = some (call, rest)) :
    rest.WellFormed key := by
  obtain ⟨before, push, after, hentries, -, -, rfl⟩ := removeFirst_eq_some hremoved
  have hsorted := h.sorted
  rw [hentries] at hsorted
  obtain ⟨hsortedBefore, hsortedRest, hcross⟩ := List.pairwise_append.mp hsorted
  obtain ⟨hhead, hsortedAfter⟩ := List.pairwise_cons.mp hsortedRest
  constructor
  · exact List.pairwise_append.mpr ⟨hsortedBefore, hsortedAfter,
      fun a ha b hb => hcross a ha b (List.mem_cons_of_mem _ hb)⟩
  · intro entry hentry
    apply h.below entry
    rw [hentries]
    rcases List.mem_append.mp hentry with hmem | hmem
    · exact List.mem_append_left _ hmem
    · exact List.mem_append_right _ (List.mem_cons_of_mem _ hmem)
  · intro id
    simp only [idsWithout, idEntries, List.filter_append]
    by_cases hid : id = key call
    · subst hid
      rw [Function.update_self, h.ids (key call), idEntries, hentries, List.filter_append,
        List.filter_cons_of_pos (by simp)]
      cases hbefore : before.filter fun entry => decide (key entry.2 = key call) with
      | nil =>
        -- the entry was the first of its id
        cases hafter : after.filter fun entry => decide (key entry.2 = key call) with
        | nil => simp
        | cons next others =>
          have hfind : (after.find? fun other => decide (key other.2 = key call)) = some next := by
            rw [← List.head?_filter, hafter]
            rfl
          simp [hfind]
      | cons first others =>
        have hmem : first ∈ before :=
          (List.mem_filter.mp (hbefore ▸ List.mem_cons_self)).1
        have hne : first.1 ≠ push := (hcross first hmem _ List.mem_cons_self).ne
        simp [hne]
        omega
    · rw [Function.update_of_ne hid, h.ids id, idEntries, hentries, List.filter_append,
        List.filter_cons_of_neg (by simpa using Ne.symm hid)]

/-! ### Runs of calls -/

/-- One call of a stash. A caller changes the entry it gets, never its id. -/
inductive Op {ι T : Type*} (key : T → ι)
  | pushBack (entry : T)
  | firstMut (id : ι) (accept : T → Bool) (f : T → T) (hkey : ∀ call, key (f call) = key call)
  | removeFirst (accept : T → Bool)
  | contains (id : ι)

/-- What a call returns: the entry it found, as it was found, or a Boolean. -/
inductive Answer (T : Type*)
  | unit
  | entry (found : Option T)
  | present (b : Bool)
deriving DecidableEq

/-- One call on the stash. -/
def step (stash : ExternalStash ι T) : Op key → Answer T × ExternalStash ι T
  | .pushBack entry => (.unit, stash.pushBack key entry)
  | .firstMut id accept f _ =>
    (.entry ((stash.firstAt key id accept).bind fun at' => (stash.entries[at']?).map Prod.snd),
      (stash.firstMut key id accept f).getD stash)
  | .removeFirst accept =>
    match stash.removeFirst key accept with
    | some (entry, rest) => (.entry (some entry), rest)
    | none => (.entry none, stash)
  | .contains id => (.present (stash.contains id), stash)

/-- The same call on a plain vector, searched from the front. -/
def plainStep (calls : List T) : Op key → Answer T × List T
  | .pushBack entry => (.unit, calls ++ [entry])
  | .firstMut id accept f _ =>
    let p := fun call => decide (key call = id) && accept call
    (.entry (calls.find? p), (changeFirst p f calls).getD calls)
  | .removeFirst accept => (.entry (calls.find? accept), calls.eraseP accept)
  | .contains id => (.present (calls.any fun call => key call = id), calls)

/-- The answers of a sequence of calls, each with the content it left. -/
def answers (stash : ExternalStash ι T) : List (Op key) → List (Answer T × List T)
  | [] => []
  | op :: rest =>
    ((stash.step op).1, (stash.step op).2.calls) :: answers (stash.step op).2 rest

def plainAnswers (calls : List T) : List (Op key) → List (Answer T × List T)
  | [] => []
  | op :: rest => plainStep calls op :: plainAnswers (plainStep calls op).2 rest

omit [DecidableEq ι] in
theorem find?_eq_bind_findIdx? (p : T → Bool) (entries : List (Nat × T)) :
    ((entries.findIdx? fun entry => p entry.2).bind fun at' => (entries[at']?).map Prod.snd) =
      (entries.map Prod.snd).find? p := by
  induction entries with
  | nil => rfl
  | cons entry rest ih =>
    rw [List.findIdx?_cons, List.map_cons, List.find?_cons, ← ih]
    split_ifs with h
    · simp [h]
    · rw [Option.bind_map]
      simp [h]

theorem removeFirst_eq_none {accept : T → Bool} (hnone : stash.removeFirst key accept = none) :
    stash.calls.find? accept = none ∧ stash.calls.eraseP accept = stash.calls := by
  have hfind : stash.calls.find? accept = none := by
    unfold ExternalStash.removeFirst at hnone
    rw [calls, ← find?_eq_bind_findIdx?]
    rcases Option.bind_eq_none_iff.mp hnone with h
    cases hidx : stash.entries.findIdx? fun entry => accept entry.2 with
    | none => rfl
    | some at' =>
      have := h at' hidx
      simp only [Option.map_eq_none_iff] at this
      simp [this]
  exact ⟨hfind, List.eraseP_of_forall_not (by simpa using hfind)⟩

/-- **One call.** It answers as the plain vector does, leaves the same content, and keeps the
map. -/
theorem WellFormed.step (h : stash.WellFormed key) (op : Op key) :
    (stash.step op).1 = (plainStep stash.calls op).1 ∧
      (stash.step op).2.calls = (plainStep stash.calls op).2 ∧
      (stash.step op).2.WellFormed key := by
  cases op with
  | pushBack entry =>
    refine ⟨rfl, ?_, h.pushBack entry⟩
    simp [ExternalStash.step, plainStep, calls, ExternalStash.pushBack]
  | firstMut id accept f hkey =>
    refine ⟨?_, ?_, ?_⟩
    · show Answer.entry _ = Answer.entry _
      rw [h.firstAt_eq, find?_eq_bind_findIdx? fun call => decide (key call = id) && accept call]
      rfl
    · have hcalls := h.firstMut id accept f
      simp only [ExternalStash.step, plainStep, ← hcalls]
      cases stash.firstMut key id accept f <;> rfl
    · simp only [ExternalStash.step]
      cases hchanged : stash.firstMut key id accept f with
      | none => exact h
      | some changed => exact h.of_firstMut hkey hchanged
  | removeFirst accept =>
    simp only [ExternalStash.step, plainStep]
    cases hremoved : stash.removeFirst key accept with
    | none =>
      obtain ⟨hfind, herase⟩ := removeFirst_eq_none hremoved
      exact ⟨by rw [hfind], herase.symm, h⟩
    | some removed =>
      obtain ⟨entry, rest⟩ := removed
      obtain ⟨hcalls, hfind⟩ := removeFirst_calls hremoved
      exact ⟨by rw [hfind], hcalls, h.of_removeFirst hremoved⟩
  | contains id =>
    refine ⟨?_, rfl, h⟩
    simp only [ExternalStash.step, plainStep, Answer.present.injEq]
    rw [Bool.eq_iff_iff, h.contains]
    simp

theorem WellFormed.answers (h : stash.WellFormed key) (ops : List (Op key)) :
    stash.answers ops = plainAnswers stash.calls ops := by
  induction ops generalizing stash with
  | nil => rfl
  | cons op rest ih =>
    obtain ⟨hanswer, hcalls, hwf⟩ := h.step op
    simp only [ExternalStash.answers, plainAnswers]
    rw [ih hwf, hcalls, hanswer]

/-- **A stash is a plain vector.** For every sequence of calls on a new stash, each call
returns what a search of the plain vector from the front returns, and leaves the same content. -/
theorem run_matches_plain_search (key : T → ι) (ops : List (Op key)) :
    (empty : ExternalStash ι T).answers ops = plainAnswers [] ops :=
  wellFormed_empty.answers ops

end ExternalStash
end Harvest.Replay
