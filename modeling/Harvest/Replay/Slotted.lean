import Harvest.Replay.Stash
import Harvest.Lib.Slots
import Mathlib.Data.Finmap

/-!
# The slots of a signal stash

Model of `SignalStash` in `signal_stash.rs` as it stores its entries: slots that a removal leaves
empty, push numbers that a compaction renews, and for a large stash the push numbers of each
name. `SignalStash` in `Harvest.Replay.Stash` is the plain list of the entries.

The slot count up to which a stash has no name map is a parameter; the code uses `smallStash`.

Proved here:
* `Tidy` and `Tidy.push`, `.remove`, `.removeAll`, `.restore`: the map, the count and the order
  mark stay in step with the slots.
* `run_refines_plain_list`: every run of calls answers as a plain list with push numbers does.
-/

namespace Harvest.Replay

open Lib

def smallStash : Nat := 16

/-- The push numbers of the entries of each name, in push order. -/
abbrev NameQueues := Finmap fun _ : String => List Nat

def queuePush (names : NameQueues) (name : String) (push : Nat) : NameQueues :=
  match names.lookup name with
  | some queue => names.insert name (queue ++ [push])
  | none => names.insert name [push]

/-- The stored form of a signal stash. -/
structure SlottedStash where
  slots : List (Option StashedSignal)
  /-- The push number of the first slot. -/
  front : Nat
  live : Nat
  /-- Whether an entry comes after one with a larger event index. -/
  unsorted : Bool
  names : Option NameQueues

namespace SlottedStash

def empty : SlottedStash := ⟨[], 0, 0, false, none⟩

/-- The entries in push order, each with its push number. -/
def rows (stash : SlottedStash) : List (Nat × StashedSignal) := numbered stash.front stash.slots

/-- The entries in push order. -/
def iter (stash : SlottedStash) : List StashedSignal := stash.slots.filterMap id

def isEmpty (stash : SlottedStash) : Bool := stash.live = 0

section Operations

variable (small : Nat)

/-- Builds the name map from the slots. -/
def buildNames (stash : SlottedStash) : SlottedStash :=
  { stash with
    names := some (stash.rows.foldl (fun names row => queuePush names row.2.name row.1) ∅) }

/-- Adds an entry at the end, with no compaction. -/
def pushEntry (stash : SlottedStash) (entry : StashedSignal) : SlottedStash :=
  let push := stash.front + stash.slots.length
  let behind :=
    match stash.slots.getLast? with
    | some (some back) => decide (entry.index < back.index)
    | _ => false
  let pushed : SlottedStash :=
    { slots := stash.slots ++ [some entry]
      front := stash.front
      live := stash.live + 1
      unsorted := stash.unsorted || behind
      names := stash.names.map fun names => queuePush names entry.name push }
  if pushed.names.isNone && decide (small < pushed.slots.length) then pushed.buildNames else pushed

/-- Whether the empty slots or the empty name keys outnumber the entries. -/
def needsCompaction (stash : SlottedStash) : Bool :=
  let slots := stash.slots.length
  (decide (small ≤ slots) && decide (stash.live < slots - stash.live)) ||
    stash.names.any fun names => decide (2 * stash.live + small < names.keys.card)

/-- Takes every entry out, in push order. The next push number skips every old one. -/
def takeEntries (stash : SlottedStash) : List StashedSignal × SlottedStash :=
  (stash.iter, { stash with front := stash.front + stash.slots.length, slots := [] })

/-- Clears the stash, then pushes the entries in order. -/
def refill (stash : SlottedStash) (entries : List StashedSignal) : SlottedStash :=
  entries.foldl (pushEntry small)
    { stash with slots := [], names := none, live := 0, unsorted := false }

def compact (stash : SlottedStash) : SlottedStash :=
  let (entries, stash) := stash.takeEntries
  stash.refill small entries

def compactIfNeeded (stash : SlottedStash) : SlottedStash :=
  if stash.needsCompaction small then stash.compact small else stash

def push (stash : SlottedStash) (name : String) (payload : Json) (index : Nat) : SlottedStash :=
  (stash.compactIfNeeded small).pushEntry small ⟨name, payload, index⟩

/-- The entry with a push number. -/
def entry (stash : SlottedStash) (push : Nat) : Option StashedSignal :=
  if push < stash.front then none else (stash.slots[push - stash.front]?).join

/-- The entries of the push numbers, up to the first without one. -/
def walkQueue (stash : SlottedStash) : List Nat → List (Nat × StashedSignal)
  | [] => []
  | push :: queue =>
    match stash.entry push with
    | some entry => (push, entry) :: stash.walkQueue queue
    | none => []

/-- The entries of `name` from a push number on, each with its push number. -/
def ofNameFrom (stash : SlottedStash) (name : String) (start : Nat) :
    List (Nat × StashedSignal) :=
  match stash.names with
  | none =>
    let at' := start - stash.front
    (numbered (stash.front + at') (stash.slots.drop at')).filter fun row => row.2.name = name
  | some names =>
    match names.lookup name with
    | none => []
    | some queue => stash.walkQueue (queue.dropWhile (· < start))

def ofName (stash : SlottedStash) (name : String) : List (Nat × StashedSignal) :=
  stash.ofNameFrom name stash.front

/-- Takes a push number out of the queue of a name. -/
def dequeue (names : NameQueues) (name : String) (push : Nat) : NameQueues :=
  match names.lookup name with
  | none => names
  | some queue =>
    names.insert name (if queue.head? = some push then queue.tail else queue.erase push)

/-- Takes the slot at a position out. An end slot pops at once. -/
def popSlot (stash : SlottedStash) (at' : Nat) : Nat × List (Option StashedSignal) :=
  if at' = 0 then (stash.front + 1, stash.slots.tail)
  else if at' + 1 = stash.slots.length then (stash.front, stash.slots.dropLast)
  else (stash.front, stash.slots.set at' none)

/-- The stash without one entry. The empty slots at its ends are dropped, and so is the name map
of a stash that has become small. -/
def without (stash : SlottedStash) (push : Nat) (entry : StashedSignal) : SlottedStash :=
  let popped := stash.popSlot (push - stash.front)
  let trimmed := trimFront popped.1 popped.2
  let slots := trimBack trimmed.2
  { slots := slots
    front := trimmed.1
    live := stash.live - 1
    unsorted := stash.unsorted
    names :=
      if slots.length ≤ small / 2 then none
      else stash.names.map fun names => dequeue names entry.name push }

/-- Removes and returns the entry with a push number. -/
def remove (stash : SlottedStash) (push : Nat) : Option (StashedSignal × SlottedStash) :=
  (stash.entry push).map fun entry => (entry, stash.without small push entry)

/-- Removes and returns the entries with these push numbers, in that order. -/
def removeAll (stash : SlottedStash) : List Nat → List StashedSignal × SlottedStash
  | [] => ([], stash)
  | push :: pushes =>
    match stash.remove small push with
    | some (entry, stash) => ((stash.removeAll pushes).1.cons entry, (stash.removeAll pushes).2)
    | none => stash.removeAll pushes

/-- Removes and returns every entry with an event index of `horizon` or more. -/
def splitOffFrom (stash : SlottedStash) (horizon : Nat) : List StashedSignal × SlottedStash :=
  let stash := stash.compactIfNeeded small
  let hidden := (stash.rows.filter fun row => decide (horizon ≤ row.2.index)).map Prod.fst
  let (taken, stash) := stash.removeAll small hidden.reverse
  (taken.reverse, stash)

/-- Removes and returns every entry of `name` that `take` accepts. -/
def takeOfName (stash : SlottedStash) (name : String) (take : StashedSignal → Bool) :
    List StashedSignal × SlottedStash :=
  stash.removeAll small (((stash.ofName name).filter fun row => take row.2).map Prod.fst)

/-- Adds `hidden` after the entries, then sorts every entry by event index. -/
def restore (stash : SlottedStash) (hidden : List StashedSignal) : SlottedStash :=
  let follows :=
    match stash.slots.getLast?, hidden.head? with
    | some (some back), some first => decide (back.index ≤ first.index)
    | _, _ => true
  if ! stash.unsorted && decide (hidden.Pairwise (·.index ≤ ·.index)) && follows then
    hidden.foldl (pushEntry small) stash
  else
    let (entries, stash) := stash.takeEntries
    stash.refill small (SignalStash.sortByIndex (entries ++ hidden))

end Operations

/-! ## Rows and queues -/

/-- The push numbers of a name. -/
def numbersOf (rows : List (Nat × StashedSignal)) (name : String) : List Nat :=
  (rows.filter fun row => row.2.name = name).map Prod.fst

/-- The map has the push numbers of every name. -/
def Queued (names : NameQueues) (rows : List (Nat × StashedSignal)) : Prop :=
  ∀ name, (names.lookup name).getD [] = numbersOf rows name

theorem numbersOf_append (rows more : List (Nat × StashedSignal)) (name : String) :
    numbersOf (rows ++ more) name = numbersOf rows name ++ numbersOf more name := by
  simp [numbersOf]

theorem numbersOf_pairwise {rows : List (Nat × StashedSignal)} (h : rows.Pairwise (·.1 < ·.1))
    (name : String) : (numbersOf rows name).Pairwise (· < ·) :=
  List.pairwise_map.mpr (h.sublist List.filter_sublist)

theorem Queued.push {names : NameQueues} {rows : List (Nat × StashedSignal)}
    (h : Queued names rows) (row : Nat × StashedSignal) :
    Queued (queuePush names row.2.name row.1) (rows ++ [row]) := by
  intro name
  have hself := h row.2.name
  rw [numbersOf_append]
  by_cases hname : name = row.2.name
  · subst hname
    have hone : numbersOf [row] row.2.name = [row.1] := by simp [numbersOf]
    rw [hone, ← hself]
    unfold queuePush
    cases names.lookup row.2.name with
    | none => simp
    | some queue => simp
  · have hone : numbersOf [row] name = [] := by simp [numbersOf, Ne.symm hname]
    rw [hone, List.append_nil, ← h name]
    unfold queuePush
    cases names.lookup row.2.name with
    | none => simp [Finmap.lookup_insert_of_ne _ hname]
    | some queue => simp [Finmap.lookup_insert_of_ne _ hname]

theorem queued_fold {names : NameQueues} {rows : List (Nat × StashedSignal)}
    (h : Queued names rows) (more : List (Nat × StashedSignal)) :
    Queued (more.foldl (fun names row => queuePush names row.2.name row.1) names)
      (rows ++ more) := by
  induction more generalizing names rows with
  | nil => simpa using h
  | cons row more ih =>
    have := ih (h.push row)
    simpa using this

/-- One push number stands for one row. -/
theorem eq_of_number {rows : List (Nat × StashedSignal)} (h : rows.Pairwise (·.1 < ·.1))
    {row row' : Nat × StashedSignal} (hrow : row ∈ rows) (hrow' : row' ∈ rows)
    (heq : row.1 = row'.1) : row = row' := by
  have hnodup : (rows.map Prod.fst).Nodup := List.pairwise_map.mpr (h.imp fun hlt => hlt.ne)
  exact List.inj_on_of_nodup_map hnodup hrow hrow' heq

theorem Queued.remove {names : NameQueues} {rows : List (Nat × StashedSignal)}
    (h : Queued names rows) (hrows : rows.Pairwise (·.1 < ·.1)) {push : Nat}
    {entry : StashedSignal} (hrow : (push, entry) ∈ rows) :
    Queued (dequeue names entry.name push) (rows.filter (·.1 ≠ push)) := by
  intro name
  have hrest : numbersOf (rows.filter (·.1 ≠ push)) name =
      (numbersOf rows name).filter (· ≠ push) := by
    unfold numbersOf
    rw [List.filter_map, List.filter_filter, List.filter_filter]
    congr 1
    exact List.filter_congr fun row _ => Bool.and_comm _ _
  rw [hrest]
  by_cases hname : name = entry.name
  · subst hname
    have hmem : push ∈ numbersOf rows entry.name :=
      List.mem_map.mpr ⟨(push, entry), List.mem_filter.mpr ⟨hrow, by simp⟩, rfl⟩
    have hqueue := h entry.name
    have hnodup : (numbersOf rows entry.name).Nodup :=
      (numbersOf_pairwise hrows entry.name).imp fun hlt => hlt.ne
    have herase : (numbersOf rows entry.name).filter (· ≠ push) =
        (numbersOf rows entry.name).erase push := by
      rw [hnodup.erase_eq_filter]
      exact List.filter_congr fun number _ => by rw [decide_not]; rfl
    rw [herase]
    unfold dequeue
    cases hlookup : names.lookup entry.name with
    | none =>
      rw [hlookup] at hqueue
      rw [← hqueue] at hmem
      cases hmem
    | some queue =>
      rw [hlookup] at hqueue
      have hqueue : queue = numbersOf rows entry.name := hqueue
      rw [← hqueue]
      simp only [Finmap.lookup_insert, Option.getD_some]
      split_ifs with hhead
      · obtain ⟨rest, rfl⟩ := List.head?_eq_some_iff.mp hhead
        simp
      · rfl
  · -- the row has another name
    have hkeep : (numbersOf rows name).filter (· ≠ push) = numbersOf rows name := by
      refine List.filter_eq_self.mpr fun number hnumber => ?_
      obtain ⟨row, hmem, rfl⟩ := List.mem_map.mp hnumber
      obtain ⟨hmem, hsame⟩ := List.mem_filter.mp hmem
      have hne : row.1 ≠ push := by
        intro heq
        obtain rfl := eq_of_number hrows hmem hrow heq
        exact hname (of_decide_eq_true hsame).symm
      simpa using hne
    rw [hkeep, ← h name]
    unfold dequeue
    cases names.lookup entry.name with
    | none => rfl
    | some queue => rw [Finmap.lookup_insert_of_ne _ hname]

/-- Removing a push number removes one row. -/
theorem length_filter_number {rows : List (Nat × StashedSignal)}
    (hrows : rows.Pairwise (·.1 < ·.1)) {row : Nat × StashedSignal} (hrow : row ∈ rows) :
    (rows.filter (·.1 ≠ row.1)).length = rows.length - 1 := by
  have hnodup : rows.Nodup := hrows.imp fun hlt heq => absurd (congrArg Prod.fst heq) hlt.ne
  have herase : rows.filter (·.1 ≠ row.1) = rows.erase row := by
    rw [hnodup.erase_eq_filter row]
    refine List.filter_congr fun row' hrow' => ?_
    rw [Bool.eq_iff_iff]
    simp only [ne_eq, decide_not, Bool.not_eq_true', decide_eq_false_iff_not, bne_iff_ne]
    exact not_congr ⟨fun heq => eq_of_number hrows hrow' hrow heq, fun heq => by rw [heq]⟩
  rw [herase, List.length_erase_of_mem hrow]

/-! ## The invariant -/

/-- The count, the order mark and the map agree with the slots. -/
structure Tidy (stash : SlottedStash) : Prop where
  live : stash.live = stash.rows.length
  back : stash.slots.getLast? ≠ some none
  sorted : stash.unsorted = false → (stash.rows.map Prod.snd).Pairwise (·.index ≤ ·.index)
  queued : ∀ names, stash.names = some names → Queued names stash.rows

variable {stash : SlottedStash}

theorem tidy_empty : Tidy empty :=
  ⟨rfl, by simp [empty], fun _ => List.Pairwise.nil, by simp [empty]⟩

theorem rows_pairwise (stash : SlottedStash) : stash.rows.Pairwise (·.1 < ·.1) :=
  numbered_pairwise _ _

theorem iter_eq (stash : SlottedStash) : stash.iter = stash.rows.map Prod.snd :=
  (map_snd_numbered _ _).symm

theorem entry_eq_some {push : Nat} {entry : StashedSignal} :
    stash.entry push = some entry ↔ (push, entry) ∈ stash.rows := by
  unfold SlottedStash.entry rows
  rw [mem_numbered]
  by_cases hlt : push < stash.front
  · simp [hlt, Nat.not_le.mpr hlt]
  · rw [if_neg hlt]
    simp [Nat.not_lt.mp hlt, Option.join_eq_some_iff]

/-- The last entry is in the last slot. -/
theorem Tidy.getLast_rows (h : Tidy stash) :
    stash.slots.getLast? = ((stash.rows.map Prod.snd).getLast?).map some := by
  have hback := h.back
  rw [rows, map_snd_numbered]
  cases hlast : stash.slots.getLast? with
  | none =>
    rw [List.getLast?_eq_none_iff] at hlast
    rw [hlast]
    rfl
  | some slot =>
    obtain ⟨init, hinit⟩ := List.getLast?_eq_some_iff.mp hlast
    cases slot with
    | none => exact absurd hlast hback
    | some entry => simp [hinit]

theorem numbered_concat (stash : SlottedStash) (entry : StashedSignal) :
    numbered stash.front (stash.slots ++ [some entry]) =
      stash.rows ++ [(stash.front + stash.slots.length, entry)] := by
  rw [numbered_append]
  rfl

theorem rows_pushEntry (small : Nat) (stash : SlottedStash) (entry : StashedSignal) :
    (stash.pushEntry small entry).rows =
      stash.rows ++ [(stash.front + stash.slots.length, entry)] := by
  unfold pushEntry
  dsimp only
  split_ifs <;> exact numbered_concat stash entry

/-- The last of sorted entries has the largest index. -/
theorem exists_back {entries : List StashedSignal}
    (hsorted : entries.Pairwise (·.index ≤ ·.index)) {entry : StashedSignal}
    (hmem : entry ∈ entries) : ∃ back, entries.getLast? = some back ∧ entry.index ≤ back.index := by
  rcases List.eq_nil_or_concat entries with rfl | ⟨init, back, rfl⟩
  · cases hmem
  · rw [List.concat_eq_append] at hmem hsorted ⊢
    refine ⟨back, by simp, ?_⟩
    rcases List.mem_append.mp hmem with hin | hin
    · exact (List.pairwise_append.mp hsorted).2.2 entry hin back (by simp)
    · obtain rfl : entry = back := by simpa using hin
      exact le_rfl

theorem Tidy.pushEntry (h : Tidy stash) (small : Nat) (entry : StashedSignal) :
    Tidy (stash.pushEntry small entry) := by
  have hrows := rows_pushEntry small stash entry
  have hsorted : (stash.pushEntry small entry).unsorted = false →
      ((stash.pushEntry small entry).rows.map Prod.snd).Pairwise (·.index ≤ ·.index) := by
    intro hmark
    have hmark : (stash.unsorted || match stash.slots.getLast? with
        | some (some back) => decide (entry.index < back.index)
        | _ => false) = false := by
      unfold SlottedStash.pushEntry at hmark
      dsimp only at hmark
      split_ifs at hmark <;> exact hmark
    rw [Bool.or_eq_false_iff, h.getLast_rows] at hmark
    obtain ⟨hold, hbehind⟩ := hmark
    have hold := h.sorted hold
    rw [hrows, List.map_append, List.pairwise_append]
    refine ⟨hold, by simp, fun earlier hearlier later hlater => ?_⟩
    obtain rfl : later = entry := by simpa using hlater
    -- the new entry is not before the last one, and the last is after the others
    obtain ⟨back, hlast, hle⟩ := exists_back hold hearlier
    rw [hlast] at hbehind
    exact hle.trans (by simpa using hbehind)
  have hqueued : ∀ names, (stash.pushEntry small entry).names = some names →
      Queued names (stash.pushEntry small entry).rows := by
    intro names hnames
    rw [hrows]
    unfold SlottedStash.pushEntry at hnames
    dsimp only at hnames
    cases hold : stash.names with
    | some old =>
      simp only [hold, Option.map_some, Option.isNone_some, Bool.false_and, Bool.false_eq_true,
        if_false] at hnames
      cases hnames
      exact (h.queued old hold).push (_, entry)
    | none =>
      simp only [hold, Option.map_none, Option.isNone_none, Bool.true_and] at hnames
      split_ifs at hnames with hlarge
      have hnames := Option.some.inj hnames
      subst hnames
      have hempty : Queued ∅ [] := fun _ => rfl
      rw [← numbered_concat]
      exact queued_fold hempty _
  refine ⟨?_, ?_, hsorted, hqueued⟩
  · rw [hrows, List.length_append, ← h.live]
    unfold SlottedStash.pushEntry
    dsimp only
    split_ifs <;> rfl
  · have hslots : (stash.pushEntry small entry).slots = stash.slots ++ [some entry] := by
      unfold SlottedStash.pushEntry
      dsimp only
      split_ifs <;> rfl
    rw [hslots]
    simp

/-- Pushing entries one by one. -/
theorem Tidy.pushAll (h : Tidy stash) (small : Nat) (entries : List StashedSignal) :
    Tidy (entries.foldl (SlottedStash.pushEntry small) stash) ∧
      (entries.foldl (SlottedStash.pushEntry small) stash).rows.map Prod.snd =
        stash.rows.map Prod.snd ++ entries := by
  induction entries generalizing stash with
  | nil => exact ⟨h, by simp⟩
  | cons entry entries ih =>
    obtain ⟨htidy, hrows⟩ := ih (h.pushEntry small entry)
    refine ⟨htidy, ?_⟩
    rw [List.foldl_cons, hrows, rows_pushEntry]
    simp

/-- A refill holds the given entries. -/
theorem tidy_refill (small : Nat) (stash : SlottedStash) (entries : List StashedSignal) :
    Tidy (stash.refill small entries) ∧ (stash.refill small entries).rows.map Prod.snd = entries := by
  have hclear : Tidy { stash with slots := [], names := none, live := 0, unsorted := false } :=
    ⟨rfl, by simp, fun _ => List.Pairwise.nil, by simp⟩
  obtain ⟨htidy, hrows⟩ := hclear.pushAll small entries
  exact ⟨htidy, hrows⟩

/-- A compaction changes no entry. -/
theorem Tidy.compactIfNeeded (h : Tidy stash) (small : Nat) :
    Tidy (stash.compactIfNeeded small) ∧
      (stash.compactIfNeeded small).rows.map Prod.snd = stash.rows.map Prod.snd := by
  unfold SlottedStash.compactIfNeeded
  split_ifs
  · obtain ⟨htidy, hrows⟩ := tidy_refill small stash.takeEntries.2 stash.takeEntries.1
    exact ⟨htidy, hrows.trans stash.iter_eq⟩
  · exact ⟨h, rfl⟩

theorem Tidy.push (h : Tidy stash) (small : Nat) (name : String) (payload : Json) (index : Nat) :
    Tidy (stash.push small name payload index) ∧
      (stash.push small name payload index).rows.map Prod.snd =
        stash.rows.map Prod.snd ++ [⟨name, payload, index⟩] := by
  obtain ⟨htidy, hrows⟩ := h.compactIfNeeded small
  refine ⟨htidy.pushEntry small _, ?_⟩
  unfold SlottedStash.push
  rw [rows_pushEntry, List.map_append, hrows]
  rfl

/-! ## Removals -/

/-- Popping an end slot is emptying it. -/
theorem numbered_popSlot (stash : SlottedStash) {push : Nat} {entry : StashedSignal}
    (hrow : (push, entry) ∈ stash.rows) :
    numbered (stash.popSlot (push - stash.front)).1 (stash.popSlot (push - stash.front)).2 =
      stash.rows.filter (·.1 ≠ push) := by
  obtain ⟨hfront, hslot⟩ := mem_numbered.mp hrow
  have hlt := (List.getElem?_eq_some_iff.mp hslot).1
  have hfilter : stash.rows.filter (·.1 ≠ push) =
      numbered stash.front (stash.slots.set (push - stash.front) none) := by
    rw [numbered_set_none, Nat.add_sub_cancel' hfront]
    rfl
  rw [hfilter]
  unfold popSlot
  split_ifs with hfirst hlast
  · rw [hfirst]
    cases hslots : stash.slots with
    | nil => simp [hslots] at hlt
    | cons slot slots => rfl
  · rcases List.eq_nil_or_concat stash.slots with hnil | ⟨init, slot, hslots⟩
    · simp [hnil] at hlt
    · have hpos : push - stash.front = init.length := by
        rw [hslots] at hlast
        simpa using hlast
      rw [hpos, hslots]
      simp [numbered_append, numbered]
  · rfl

/-- A removal takes the row with its push number, and no other. -/
theorem Tidy.remove (h : Tidy stash) (small push : Nat) :
    match stash.remove small push with
    | none => ∀ row ∈ stash.rows, row.1 ≠ push
    | some (entry, rest) =>
      (push, entry) ∈ stash.rows ∧ rest.rows = stash.rows.filter (·.1 ≠ push) ∧ Tidy rest := by
  cases hentry : stash.entry push with
  | none =>
    have hremove : stash.remove small push = none := by simp [SlottedStash.remove, hentry]
    rw [hremove]
    rintro ⟨number, entry⟩ hrow rfl
    rw [entry_eq_some.mpr hrow] at hentry
    cases hentry
  | some entry =>
    have hrow := entry_eq_some.mp hentry
    have hremove : stash.remove small push = some (entry, stash.without small push entry) := by
      simp [SlottedStash.remove, hentry]
    have hrows : (stash.without small push entry).rows = stash.rows.filter (·.1 ≠ push) := by
      rw [← stash.numbered_popSlot hrow, ← numbered_trimFront, ← numbered_trimBack]
      rfl
    rw [hremove]
    refine ⟨hrow, hrows, ?_, getLast?_trimBack _, ?_, ?_⟩
    · rw [hrows, length_filter_number stash.rows_pairwise hrow, ← h.live]
      rfl
    · intro hsorted
      rw [hrows]
      exact (h.sorted hsorted).sublist (List.filter_sublist.map _)
    · intro names hnames
      rw [hrows]
      unfold without at hnames
      dsimp only at hnames
      split_ifs at hnames with hsmall
      obtain ⟨old, hold, rfl⟩ := Option.map_eq_some_iff.mp hnames
      exact (h.queued old hold).remove stash.rows_pairwise hrow

/-- Removing the numbers of given rows returns their entries and keeps the other rows. -/
theorem Tidy.removeAll (h : Tidy stash) (small : Nat) (taken : List (Nat × StashedSignal))
    (hmem : ∀ row ∈ taken, row ∈ stash.rows) (hnodup : (taken.map Prod.fst).Nodup) :
    let result := stash.removeAll small (taken.map Prod.fst)
    result.1 = taken.map Prod.snd ∧
      result.2.rows = stash.rows.filter (fun row => row.1 ∉ taken.map Prod.fst) ∧
      Tidy result.2 := by
  induction taken generalizing stash with
  | nil => exact ⟨rfl, by simp [SlottedStash.removeAll], h⟩
  | cons row taken ih =>
    have hfirst := h.remove small row.1
    rw [List.map_cons, List.nodup_cons] at hnodup
    dsimp only
    rw [List.map_cons]
    unfold SlottedStash.removeAll
    cases hremove : stash.remove small row.1 with
    | none =>
      rw [hremove] at hfirst
      exact absurd rfl (hfirst row (hmem row List.mem_cons_self))
    | some found =>
      obtain ⟨entry, rest⟩ := found
      rw [hremove] at hfirst
      obtain ⟨hrow, hrows, htidy⟩ := hfirst
      have hsame := eq_of_number stash.rows_pairwise hrow (hmem row List.mem_cons_self) rfl
      obtain ⟨hanswer, hrest, htidy'⟩ := ih htidy (fun row' hrow' => by
        rw [hrows, List.mem_filter]
        refine ⟨hmem row' (List.mem_cons_of_mem _ hrow'), decide_eq_true fun heq => hnodup.1 ?_⟩
        rw [← heq]
        exact List.mem_map_of_mem hrow') hnodup.2
      refine ⟨?_, ?_, htidy'⟩
      · dsimp only
        rw [hanswer, ← hsame]
        rfl
      · dsimp only
        rw [hrest, hrows, List.filter_filter]
        refine List.filter_congr fun row' _ => ?_
        rw [Bool.eq_iff_iff]
        simp [and_comm]

/-! ## Queries by name -/

theorem dropWhile_eq_filter {numbers : List Nat} (h : numbers.Pairwise (· < ·)) (start : Nat) :
    numbers.dropWhile (· < start) = numbers.filter (start ≤ ·) := by
  induction numbers with
  | nil => rfl
  | cons number numbers ih =>
    obtain ⟨hrest, htail⟩ := List.pairwise_cons.mp h
    by_cases hlt : number < start
    · rw [List.dropWhile_cons_of_pos (by simpa using hlt), ih htail,
        List.filter_cons_of_neg (by simpa using hlt)]
    · rw [List.dropWhile_cons_of_neg (by simpa using hlt)]
      refine (List.filter_eq_self.mpr fun number' hmem => ?_).symm
      rcases List.mem_cons.mp hmem with rfl | hmem
      · simpa using hlt
      · have := hrest number' hmem
        simp
        omega

theorem walkQueue_rows (stash : SlottedStash) (rows : List (Nat × StashedSignal))
    (hmem : ∀ row ∈ rows, row ∈ stash.rows) : stash.walkQueue (rows.map Prod.fst) = rows := by
  induction rows with
  | nil => rfl
  | cons row rows ih =>
    rw [List.map_cons]
    unfold walkQueue
    rw [entry_eq_some.mpr (hmem row List.mem_cons_self)]
    dsimp only
    rw [ih fun row' hrow' => hmem row' (List.mem_cons_of_mem _ hrow')]

/-- A query by name filters the rows, by a scan or by the queue. -/
theorem Tidy.ofNameFrom (h : Tidy stash) (name : String) (start : Nat) :
    stash.ofNameFrom name start =
      stash.rows.filter fun row => decide (row.2.name = name) && decide (start ≤ row.1) := by
  unfold SlottedStash.ofNameFrom
  cases hnames : stash.names with
  | none =>
    dsimp only
    rw [numbered_drop, List.filter_filter]
    refine List.filter_congr fun row hrow => ?_
    have hle := le_of_mem_numbered hrow
    congr 1
    exact decide_eq_decide.mpr (by omega)
  | some names =>
    have hqueued := h.queued names hnames name
    have hrows : (stash.rows.filter fun row => decide (row.2.name = name) && decide (start ≤ row.1)) =
        (stash.rows.filter fun row => row.2.name = name).filter (start ≤ ·.1) := by
      rw [List.filter_filter]
      exact List.filter_congr fun row _ => Bool.and_comm _ _
    rw [hrows]
    dsimp only
    cases hlookup : names.lookup name with
    | none =>
      rw [hlookup] at hqueued
      have hnone : (stash.rows.filter fun row => row.2.name = name) = [] :=
        List.map_eq_nil_iff.mp hqueued.symm
      rw [hnone]
      rfl
    | some queue =>
      rw [hlookup] at hqueued
      have hqueue : queue = numbersOf stash.rows name := hqueued
      have hfilter : (numbersOf stash.rows name).filter (start ≤ ·) =
          ((stash.rows.filter fun row => row.2.name = name).filter (start ≤ ·.1)).map Prod.fst := by
        unfold numbersOf
        rw [List.filter_map]
        rfl
      dsimp only
      rw [hqueue, dropWhile_eq_filter (numbersOf_pairwise stash.rows_pairwise name), hfilter]
      exact stash.walkQueue_rows _ fun row hrow =>
        (List.mem_filter.mp (List.mem_filter.mp hrow).1).1

theorem Tidy.ofName (h : Tidy stash) (name : String) :
    stash.ofName name = stash.rows.filter fun row => row.2.name = name := by
  unfold SlottedStash.ofName
  rw [h.ofNameFrom]
  refine List.filter_congr fun row hrow => ?_
  simp [le_of_mem_numbered hrow]

/-- The rows that a filter takes, removed: the others stay. -/
theorem filter_notMem_filter (rows : List (Nat × StashedSignal)) (hrows : rows.Pairwise (·.1 < ·.1))
    (p : Nat × StashedSignal → Bool) :
    rows.filter (fun row => row.1 ∉ (rows.filter p).map Prod.fst) = rows.filter fun row => ! p row := by
  refine List.filter_congr fun row hrow => ?_
  rw [Bool.eq_iff_iff, decide_eq_true_eq, Bool.not_eq_true', ← Bool.not_eq_true]
  refine not_congr ⟨fun hmem => ?_, fun hp => ?_⟩
  · obtain ⟨row', hrow', heq⟩ := List.mem_map.mp hmem
    obtain ⟨hin, hp⟩ := List.mem_filter.mp hrow'
    rwa [← eq_of_number hrows hin hrow heq]
  · exact List.mem_map_of_mem (List.mem_filter.mpr ⟨hrow, hp⟩)

theorem Tidy.takeOfName (h : Tidy stash) (small : Nat) (name : String)
    (take : StashedSignal → Bool) :
    let result := stash.takeOfName small name take
    result.1 = (stash.rows.filter fun row => decide (row.2.name = name) && take row.2).map Prod.snd ∧
      result.2.rows = stash.rows.filter (fun row => ! (decide (row.2.name = name) && take row.2)) ∧
      Tidy result.2 := by
  have hrows : (stash.ofName name).filter (fun row => take row.2) =
      stash.rows.filter fun row => decide (row.2.name = name) && take row.2 := by
    rw [h.ofName, List.filter_filter]
    exact List.filter_congr fun row _ => Bool.and_comm _ _
  unfold SlottedStash.takeOfName
  rw [hrows, ← filter_notMem_filter _ stash.rows_pairwise]
  refine h.removeAll small _ (fun row hrow => (List.mem_filter.mp hrow).1) ?_
  exact List.pairwise_map.mpr
    ((stash.rows_pairwise.sublist List.filter_sublist).imp fun hlt => hlt.ne)

theorem Tidy.splitOffFrom (h : Tidy stash) (small horizon : Nat) :
    let result := stash.splitOffFrom small horizon
    result.1 = (stash.rows.map Prod.snd).filter (fun entry => decide (horizon ≤ entry.index)) ∧
      result.2.rows.map Prod.snd =
        (stash.rows.map Prod.snd).filter (fun entry => ! decide (horizon ≤ entry.index)) ∧
      Tidy result.2 := by
  obtain ⟨htidy, hsame⟩ := h.compactIfNeeded small
  let taken := (stash.compactIfNeeded small).rows.filter fun row => decide (horizon ≤ row.2.index)
  have hnodup : (taken.reverse.map Prod.fst).Nodup := by
    rw [List.map_reverse, List.nodup_reverse]
    exact List.pairwise_map.mpr
      (((rows_pairwise _).sublist List.filter_sublist).imp fun hlt => hlt.ne)
  obtain ⟨hanswer, hrest, htidy'⟩ := htidy.removeAll small taken.reverse
    (fun row hrow => (List.mem_filter.mp (List.mem_reverse.mp hrow)).1) hnodup
  unfold SlottedStash.splitOffFrom
  dsimp only
  rw [← List.map_reverse]
  refine ⟨?_, ?_, htidy'⟩
  · rw [hanswer, ← List.map_reverse, List.reverse_reverse, ← hsame, List.filter_map]
    rfl
  · rw [hrest]
    have hmem : (fun row : Nat × StashedSignal => decide (row.1 ∉ taken.reverse.map Prod.fst)) =
        fun row => decide (row.1 ∉ taken.map Prod.fst) := by
      funext row
      rw [List.map_reverse]
      simp
    rw [hmem, filter_notMem_filter _ (rows_pairwise _), ← hsame, List.filter_map]
    rfl

theorem Tidy.restore (h : Tidy stash) (small : Nat) (hidden : List StashedSignal) :
    Tidy (stash.restore small hidden) ∧ (stash.restore small hidden).rows.map Prod.snd =
      SignalStash.sortByIndex (stash.rows.map Prod.snd ++ hidden) := by
  unfold SlottedStash.restore
  dsimp only
  split_ifs with horder
  · obtain ⟨htidy, hrows⟩ := h.pushAll small hidden
    refine ⟨htidy, hrows.trans ?_⟩
    obtain ⟨hboth, hfollows⟩ := (Bool.and_eq_true _ _).mp horder
    obtain ⟨hmark, hhidden⟩ := (Bool.and_eq_true _ _).mp hboth
    have hsorted := h.sorted (by simpa using hmark)
    have hhidden := of_decide_eq_true hhidden
    -- every kept entry is at or before the last one, and so before every hidden entry
    have hall : (stash.rows.map Prod.snd ++ hidden).Pairwise (·.index ≤ ·.index) := by
      refine List.pairwise_append.mpr ⟨hsorted, hhidden, fun earlier hearlier later hlater => ?_⟩
      obtain ⟨back, hlast, hle⟩ := exists_back hsorted hearlier
      cases hidden with
      | nil => cases hlater
      | cons first rest =>
        rw [h.getLast_rows, hlast] at hfollows
        have hfirst : back.index ≤ first.index := of_decide_eq_true hfollows
        rcases List.mem_cons.mp hlater with rfl | hin
        · exact hle.trans hfirst
        · exact (hle.trans hfirst).trans ((List.pairwise_cons.mp hhidden).1 later hin)
    exact (hall.insertionSort_eq).symm
  · obtain ⟨htidy, hrows⟩ := tidy_refill small stash.takeEntries.2
      (SignalStash.sortByIndex (stash.takeEntries.1 ++ hidden))
    refine ⟨htidy, hrows.trans ?_⟩
    rw [show stash.takeEntries.1 = stash.rows.map Prod.snd from stash.iter_eq]

end SlottedStash

/-! ## Runs of calls -/

/-- A call on a signal stash. -/
inductive StashCall
  | push (name : String) (payload : Json) (index : Nat)
  | remove (push : Nat)
  | ofNameFrom (name : String) (start : Nat)
  | takeOfName (name : String) (take : StashedSignal → Bool)
  | splitOffFrom (horizon : Nat)
  | restore (hidden : List StashedSignal)
  | isEmpty
  | iter

inductive StashAnswer
  | done
  | entry (entry : Option StashedSignal)
  | rows (rows : List (Nat × StashedSignal))
  | entries (entries : List StashedSignal)
  | flag (flag : Bool)
deriving DecidableEq, Repr

def SlottedStash.call (small : Nat) (stash : SlottedStash) :
    StashCall → StashAnswer × SlottedStash
  | .push name payload index => (.done, stash.push small name payload index)
  | .remove push =>
    match stash.remove small push with
    | some (entry, rest) => (.entry (some entry), rest)
    | none => (.entry none, stash)
  | .ofNameFrom name start => (.rows (stash.ofNameFrom name start), stash)
  | .takeOfName name take =>
    (.entries (stash.takeOfName small name take).1, (stash.takeOfName small name take).2)
  | .splitOffFrom horizon =>
    (.entries (stash.splitOffFrom small horizon).1, (stash.splitOffFrom small horizon).2)
  | .restore hidden => (.done, stash.restore small hidden)
  | .isEmpty => (.flag stash.isEmpty, stash)
  | .iter => (.entries stash.iter, stash)

def SlottedStash.run (small : Nat) (stash : SlottedStash) :
    List StashCall → List StashAnswer × SlottedStash
  | [] => ([], stash)
  | call :: calls =>
    let (answer, stash) := stash.call small call
    ((stash.run small calls).1.cons answer, (stash.run small calls).2)

/-- The plain list of the entries of some rows. -/
def plain (rows : List (Nat × StashedSignal)) : SignalStash := ⟨rows.map Prod.snd⟩

/-- What a call does on a plain list whose entries carry growing push numbers. A push, a cut and
a restore may renew the numbers; a removal and a claim keep those of the other entries. -/
inductive PlainCall (rows : List (Nat × StashedSignal)) :
    StashCall → StashAnswer → List (Nat × StashedSignal) → Prop
  | push (name : String) (payload : Json) (index : Nat) (rows' : List (Nat × StashedSignal))
      (h : plain rows' = (plain rows).push name payload index) :
      PlainCall rows (.push name payload index) .done rows'
  | remove (push : Nat) :
      PlainCall rows (.remove push) (.entry ((rows.find? (·.1 = push)).map Prod.snd))
        (rows.filter (·.1 ≠ push))
  | ofNameFrom (name : String) (start : Nat) :
      PlainCall rows (.ofNameFrom name start)
        (.rows (rows.filter fun row => decide (row.2.name = name) && decide (start ≤ row.1))) rows
  | takeOfName (name : String) (take : StashedSignal → Bool) :
      PlainCall rows (.takeOfName name take)
        (.entries ((plain rows).takeOfName name take).1)
        (rows.filter fun row => ! (decide (row.2.name = name) && take row.2))
  | splitOffFrom (horizon : Nat) (rows' : List (Nat × StashedSignal))
      (h : plain rows' = ((plain rows).splitOffFrom horizon).2) :
      PlainCall rows (.splitOffFrom horizon) (.entries ((plain rows).splitOffFrom horizon).1) rows'
  | restore (hidden : List StashedSignal) (rows' : List (Nat × StashedSignal))
      (h : plain rows' = (plain rows).restore hidden) :
      PlainCall rows (.restore hidden) .done rows'
  | isEmpty : PlainCall rows .isEmpty (.flag (plain rows).isEmpty) rows
  | iter : PlainCall rows .iter (.entries (plain rows).entries) rows

/-- A run of calls on a plain list. The push numbers grow in every state. -/
inductive PlainRun : List (Nat × StashedSignal) → List StashCall → List StashAnswer →
    List (Nat × StashedSignal) → Prop
  | nil (rows : List (Nat × StashedSignal)) : PlainRun rows [] [] rows
  | cons {rows rows' rows'' : List (Nat × StashedSignal)} {call : StashCall} {answer : StashAnswer}
      {calls : List StashCall} {answers : List StashAnswer} (first : PlainCall rows call answer rows')
      (grows : rows'.Pairwise (·.1 < ·.1)) (rest : PlainRun rows' calls answers rows'') :
      PlainRun rows (call :: calls) (answer :: answers) rows''

namespace SlottedStash

variable {stash : SlottedStash}

/-- One call answers as the plain list does, and keeps the invariant. -/
theorem Tidy.call (h : Tidy stash) (small : Nat) (call : StashCall) :
    PlainCall stash.rows call (stash.call small call).1 (stash.call small call).2.rows ∧
      Tidy (stash.call small call).2 := by
  cases call with
  | push name payload index =>
    obtain ⟨htidy, hrows⟩ := h.push small name payload index
    exact ⟨.push name payload index _ (congrArg SignalStash.mk hrows), htidy⟩
  | remove push =>
    have hremove := h.remove small push
    cases hcase : stash.remove small push with
    | none =>
      rw [hcase] at hremove
      have hfind : stash.rows.find? (·.1 = push) = none :=
        List.find?_eq_none.mpr fun row hrow => by simpa using hremove row hrow
      have hkeep : stash.rows.filter (·.1 ≠ push) = stash.rows :=
        List.filter_eq_self.mpr fun row hrow => by simpa using hremove row hrow
      have hcall : stash.call small (.remove push) = (.entry none, stash) := by
        simp only [SlottedStash.call, hcase]
      have hplain := @PlainCall.remove stash.rows push
      rw [hfind, hkeep] at hplain
      rw [hcall]
      exact ⟨hplain, h⟩
    | some found =>
      obtain ⟨entry, rest⟩ := found
      rw [hcase] at hremove
      obtain ⟨hrow, hrows, htidy⟩ := hremove
      have hfind : stash.rows.find? (·.1 = push) = some (push, entry) := by
        cases hfound : stash.rows.find? (·.1 = push) with
        | none => exact absurd (decide_eq_true rfl) (List.find?_eq_none.mp hfound _ hrow)
        | some row =>
          have hnumber : row.1 = push := by simpa using List.find?_some hfound
          rw [eq_of_number stash.rows_pairwise (List.mem_of_find?_eq_some hfound) hrow hnumber]
      have hcall : stash.call small (.remove push) = (.entry (some entry), rest) := by
        simp only [SlottedStash.call, hcase]
      have hplain := @PlainCall.remove stash.rows push
      rw [hfind, ← hrows] at hplain
      rw [hcall]
      exact ⟨hplain, htidy⟩
  | ofNameFrom name start =>
    refine ⟨?_, h⟩
    show PlainCall _ _ (.rows (stash.ofNameFrom name start)) _
    rw [h.ofNameFrom]
    exact .ofNameFrom name start
  | takeOfName name take =>
    obtain ⟨hanswer, hrows, htidy⟩ := h.takeOfName small name take
    refine ⟨?_, htidy⟩
    show PlainCall _ _ (.entries (stash.takeOfName small name take).1)
      (stash.takeOfName small name take).2.rows
    rw [hanswer, hrows]
    have hplain := @PlainCall.takeOfName stash.rows name take
    unfold SignalStash.takeOfName plain at hplain
    rw [List.filter_map] at hplain
    exact hplain
  | splitOffFrom horizon =>
    obtain ⟨hanswer, hrows, htidy⟩ := h.splitOffFrom small horizon
    refine ⟨?_, htidy⟩
    show PlainCall _ _ (.entries (stash.splitOffFrom small horizon).1) _
    rw [hanswer]
    exact .splitOffFrom horizon _ (congrArg SignalStash.mk hrows)
  | restore hidden =>
    obtain ⟨htidy, hrows⟩ := h.restore small hidden
    exact ⟨.restore hidden _ (congrArg SignalStash.mk hrows), htidy⟩
  | isEmpty =>
    refine ⟨?_, h⟩
    have hflag : stash.isEmpty = (plain stash.rows).isEmpty := by
      unfold SlottedStash.isEmpty SignalStash.isEmpty plain
      rw [h.live]
      cases stash.rows <;> simp
    show PlainCall _ _ (.flag stash.isEmpty) _
    rw [hflag]
    exact .isEmpty
  | iter =>
    refine ⟨?_, h⟩
    show PlainCall _ _ (.entries stash.iter) _
    rw [iter_eq]
    exact .iter

theorem Tidy.run (h : Tidy stash) (small : Nat) (calls : List StashCall) :
    PlainRun stash.rows calls (stash.run small calls).1 (stash.run small calls).2.rows ∧
      Tidy (stash.run small calls).2 := by
  induction calls generalizing stash with
  | nil => exact ⟨.nil _, h⟩
  | cons call calls ih =>
    obtain ⟨hfirst, htidy⟩ := h.call small call
    obtain ⟨hrest, htidy'⟩ := ih htidy
    exact ⟨.cons hfirst (rows_pairwise _) hrest, htidy'⟩

/-- **The stash refines a plain list.** Every run of calls from an empty stash answers as a plain
list does, and holds what the plain list holds. -/
theorem run_refines_plain_list (small : Nat) (calls : List StashCall) :
    PlainRun [] calls (empty.run small calls).1 (empty.run small calls).2.rows :=
  (tidy_empty.run small calls).1

end SlottedStash
end Harvest.Replay
