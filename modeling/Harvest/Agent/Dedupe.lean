import Harvest.Lib.Select
import Mathlib.Data.Finset.Max
import Mathlib.Data.List.AList
import Mathlib.Data.String.Basic

/-!
# The applied set of peer messages

Model of `agent/dedupe.rs`. A receiver keeps, for each sender, the numbers that it applied: each
number up to a floor, and a set above it. The set is bounded and forgets its least number; the table
of senders is bounded and forgets the sender that was heard of longest ago.

Proved here:
* `contains_advance`, `contains_apply`: moving the floor changes no applied number.
* `Tracks.step`: what the table says about the messages that were applied.
* `dedupe_never_loses_a_message`: what `apply` answers, over every sequence of messages.
-/

namespace Harvest.Agent.Dedupe

open Lib (minBy minBy_mem minBy_isSome)

def maxSenders : ℕ := 1024
def maxAbove : ℕ := 256
def u64Max : ℕ := 2 ^ 64 - 1

/-! ## One sender -/

def isNew (floor seq : ℕ) (inAbove : Bool) : Bool := floor < seq && ! inAbove

def nextFloor (floor : ℕ) (nextInAbove : Bool) : ℕ :=
  if nextInAbove && floor < u64Max then floor + 1 else floor

/-- The applied numbers of one sender. -/
structure Applied where
  floor : ℕ
  above : Finset ℕ
  /-- The op count at the last message, for eviction. -/
  seen : ℕ
deriving DecidableEq

namespace Applied

def default : Applied := ⟨0, ∅, 0⟩

def contains (self : Applied) (seq : ℕ) : Bool := ! isNew self.floor seq (seq ∈ self.above)

/-- Moves the floor over the numbers that follow it. Each turn takes one of them out of the set, so
the size of the set bounds the turns. -/
def advance : ℕ → Applied → Applied
  | 0, self => self
  | fuel + 1, self =>
    -- a floor at the top of the range has no next number
    let hasNext := self.floor < u64Max && self.floor + 1 ∈ self.above
    let next := nextFloor self.floor hasNext
    if next = self.floor then self
    else advance fuel { self with above := self.above.erase next, floor := next }

/-- `pop_first`: all but the least number. -/
def popFirst (above : Finset ℕ) : Finset ℕ := above.filter fun n => ∃ m ∈ above, m < n

/-- The set after the number was put in and the floor was moved. -/
def marked (self : Applied) (seq : ℕ) : Applied :=
  advance (insert seq self.above).card { self with above := insert seq self.above }

/-- Whether the number is new, and the set with it. -/
def apply (self : Applied) (seq : ℕ) : Bool × Applied :=
  if self.contains seq then (false, self)
  else
    let self := self.marked seq
    if maxAbove < self.above.card then (true, { self with above := popFirst self.above })
    else (true, self)

end Applied

/-! ## All senders -/

/-- The applied sets of every sender of one receiver. -/
structure Inbound where
  senders : AList fun _ : String => Applied
  /-- Peer messages taken, for eviction order. -/
  taken : ℕ

namespace Inbound

def new : Inbound := ⟨∅, 0⟩

/-- `min_by_key` goes over the ids in order, so of two that were heard of at the same time it takes
the first id. -/
def comesFirst (a b : (_ : String) × Applied) : Bool :=
  a.2.seen < b.2.seen || (a.2.seen = b.2.seen && a.1 ≤ b.1)

/-- The sender that makes room for a new one. -/
def evicts (self : Inbound) (sender : String) : Option String :=
  if sender ∉ self.senders ∧ maxSenders ≤ self.senders.keys.length then
    (minBy comesFirst self.senders.entries).map Sigma.fst
  else none

/-- The table with room for the sender. -/
def roomFor (self : Inbound) (sender : String) : AList fun _ : String => Applied :=
  match self.evicts sender with
  | some oldest => self.senders.erase oldest
  | none => self.senders

/-- What is known of the sender before the message. -/
def known (self : Inbound) (sender : String) : Applied :=
  { ((self.roomFor sender).lookup sender).getD .default with seen := min (self.taken + 1) u64Max }

/-- Whether the message is new, and the table with it. -/
def apply (self : Inbound) (sender : String) (seq : ℕ) : Bool × Inbound :=
  let (fresh, applied) := (self.known sender).apply seq
  (fresh, ⟨(self.roomFor sender).insert sender applied, min (self.taken + 1) u64Max⟩)

end Inbound

/-! ## The floor -/

namespace Applied

variable {self : Applied} {n seq : ℕ}

theorem contains_iff : self.contains n = true ↔ n ≤ self.floor ∨ n ∈ self.above := by
  simp only [contains, isNew, Bool.not_and, Bool.not_not, Bool.or_eq_true, Bool.not_eq_true',
    decide_eq_false_iff_not, decide_eq_true_eq, Nat.not_lt]

/-- One turn: the floor stays, or takes the next number out of the set. -/
theorem advance_succ (fuel : ℕ) (self : Applied) :
    (self.floor + 1 ∈ self.above ∧ self.floor < u64Max ∧ advance (fuel + 1) self =
      advance fuel { self with above := self.above.erase (self.floor + 1), floor := self.floor + 1 }) ∨
    (¬ (self.floor + 1 ∈ self.above ∧ self.floor < u64Max) ∧ advance (fuel + 1) self = self) := by
  by_cases h : self.floor + 1 ∈ self.above ∧ self.floor < u64Max
  · refine .inl ⟨h.1, h.2, ?_⟩
    simp [advance, nextFloor, h.1, h.2]
  · refine .inr ⟨h, ?_⟩
    have hstay : (decide (self.floor < u64Max) && decide (self.floor + 1 ∈ self.above)) = false := by
      rw [Bool.and_eq_false_iff, decide_eq_false_iff_not, decide_eq_false_iff_not]
      tauto
    simp [advance, nextFloor, hstay]

/-- **Moving the floor** changes no applied number. -/
theorem contains_advance (fuel : ℕ) (self : Applied) :
    (advance fuel self).contains n = true ↔ self.contains n = true := by
  induction fuel generalizing self with
  | zero => exact Iff.rfl
  | succ fuel ih =>
    rcases advance_succ fuel self with ⟨hnext, -, heq⟩ | ⟨-, heq⟩
    · rw [heq, ih, contains_iff, contains_iff]
      simp only [Finset.mem_erase]
      constructor
      · rintro (hle | ⟨-, hmem⟩)
        · rcases Nat.le_succ_iff.mp hle with hle | rfl
          · exact .inl hle
          · exact .inr hnext
        · exact .inr hmem
      · rintro (hle | hmem)
        · exact .inl (Nat.le_succ_of_le hle)
        · by_cases hn : n = self.floor + 1
          · exact .inl hn.le
          · exact .inr ⟨hn, hmem⟩
    · rw [heq]

/-- The turns are enough: the floor has no next number in the set. -/
theorem advance_stops (self : Applied) {fuel : ℕ} (hfuel : self.above.card ≤ fuel) :
    ¬ ((advance fuel self).floor + 1 ∈ (advance fuel self).above ∧
      (advance fuel self).floor < u64Max) := by
  induction fuel generalizing self with
  | zero =>
    have hempty : self.above = ∅ := Finset.card_eq_zero.mp (Nat.le_zero.mp hfuel)
    rw [advance, hempty]
    exact fun h => absurd h.1 (Finset.notMem_empty _)
  | succ fuel ih =>
    rcases advance_succ fuel self with ⟨hnext, -, heq⟩ | ⟨hstay, heq⟩
    · rw [heq]
      refine ih _ ?_
      have hcard : (self.above.erase (self.floor + 1)).card = self.above.card - 1 :=
        Finset.card_erase_of_mem hnext
      have hle : (self.above.erase (self.floor + 1)).card ≤ fuel := by omega
      exact hle
    · rw [heq]
      exact hstay

theorem card_advance_le (fuel : ℕ) (self : Applied) :
    (advance fuel self).above.card ≤ self.above.card := by
  induction fuel generalizing self with
  | zero => exact le_rfl
  | succ fuel ih =>
    rcases advance_succ fuel self with ⟨-, -, heq⟩ | ⟨-, heq⟩
    · rw [heq]
      exact (ih _).trans (Finset.card_le_card (Finset.erase_subset _ _))
    · rw [heq]

/-! ## One message -/

/-- The message makes the set forget its least number. -/
def drops (self : Applied) (seq : ℕ) : Bool :=
  ! self.contains seq && maxAbove < (self.marked seq).above.card

theorem contains_marked : (self.marked seq).contains n = true ↔ self.contains n = true ∨ n = seq := by
  rw [marked, contains_advance, contains_iff, contains_iff, Finset.mem_insert]
  tauto

theorem card_popFirst_lt {above : Finset ℕ} (h : above.Nonempty) :
    (popFirst above).card < above.card := by
  refine Finset.card_lt_card (Finset.filter_ssubset.mpr ⟨above.min' h, above.min'_mem h, ?_⟩)
  rintro ⟨m, hm, hlt⟩
  exact absurd (above.min'_le m hm) (Nat.not_le.mpr hlt)

theorem apply_fst (self : Applied) (seq : ℕ) : (self.apply seq).1 = ! self.contains seq := by
  rw [apply]
  dsimp only
  split_ifs with hcontains
  · rw [hcontains]
    rfl
  · simp [hcontains]
  · simp [hcontains]

/-- Only the number of the message is new. -/
theorem contains_of_contains_apply (h : (self.apply seq).2.contains n = true) :
    self.contains n = true ∨ ((self.apply seq).1 = true ∧ n = seq) := by
  rw [apply_fst]
  cases hcontains : self.contains seq with
  | true =>
    rw [apply, if_pos hcontains] at h
    exact .inl h
  | false =>
    have hmarked : (self.marked seq).contains n = true := by
      rw [apply, hcontains, if_neg Bool.false_ne_true] at h
      dsimp only at h
      split_ifs at h with hfull
      · rcases contains_iff.mp h with hle | hmem
        · exact contains_iff.mpr (.inl hle)
        · exact contains_iff.mpr (.inr (Finset.mem_filter.mp hmem).1)
      · exact h
    exact (contains_marked.mp hmarked).imp_right fun hn => ⟨rfl, hn⟩

/-- A message that makes the set forget nothing leaves exactly its number more. -/
theorem contains_apply (hdrops : self.drops seq = false) :
    (self.apply seq).2.contains n = true ↔ self.contains n = true ∨ n = seq := by
  rw [apply]
  cases hcontains : self.contains seq with
  | true =>
    rw [if_pos rfl]
    exact ⟨.inl, fun h => h.elim id fun hn => hn ▸ hcontains⟩
  | false =>
    rw [drops, hcontains, Bool.not_false, Bool.true_and] at hdrops
    rw [if_neg Bool.false_ne_true]
    dsimp only
    rw [if_neg (of_decide_eq_false hdrops)]
    exact contains_marked

theorem card_apply_le (h : self.above.card ≤ maxAbove) :
    (self.apply seq).2.above.card ≤ maxAbove := by
  have hmarked : (self.marked seq).above.card ≤ maxAbove + 1 :=
    (card_advance_le _ _).trans ((Finset.card_insert_le _ _).trans (Nat.succ_le_succ h))
  rw [apply]
  dsimp only
  split_ifs with hcontains hfull
  · exact h
  · have hlt := card_popFirst_lt (Finset.card_pos.mp (Nat.zero_lt_of_lt hfull))
    have hle : (popFirst (self.marked seq).above).card ≤ maxAbove := by omega
    exact hle
  · exact Nat.not_lt.mp hfull

end Applied

/-! ## The table -/

namespace Inbound

variable {self : Inbound} {sender id : String}

/-- The sender that makes room is another one of the table. -/
theorem mem_of_evicts {oldest : String} (h : self.evicts sender = some oldest) :
    oldest ∈ self.senders ∧ sender ∉ self.senders := by
  rw [evicts] at h
  split_ifs at h with hfull
  obtain ⟨entry, hentry, rfl⟩ := Option.map_eq_some_iff.mp h
  exact ⟨List.mem_map_of_mem (minBy_mem hentry), hfull.1⟩

theorem lookup_roomFor (self : Inbound) (sender id : String) :
    (self.roomFor sender).lookup id =
      if self.evicts sender = some id then none else self.senders.lookup id := by
  rw [roomFor]
  cases hevicts : self.evicts sender with
  | none => rw [if_neg nofun]
  | some oldest =>
    dsimp only
    split_ifs with heq
    · rw [Option.some.inj heq, AList.lookup_erase]
    · exact AList.lookup_erase_ne fun hid => heq (congrArg some hid.symm)

/-- The sender of a message keeps its place. -/
theorem lookup_roomFor_self (self : Inbound) (sender : String) :
    (self.roomFor sender).lookup sender = self.senders.lookup sender := by
  rw [lookup_roomFor, if_neg]
  intro hevicts
  obtain ⟨hin, hout⟩ := mem_of_evicts hevicts
  exact hout hin

/-- What is known of the sender of a message. -/
theorem contains_known {n : ℕ} (hn : 1 ≤ n) : (self.known sender).contains n = true ↔
    ∃ applied, self.senders.lookup sender = some applied ∧ applied.contains n = true := by
  rw [known, lookup_roomFor_self]
  cases hlookup : self.senders.lookup sender with
  | none =>
    simp only [Option.getD_none, Applied.contains_iff, Applied.default]
    constructor
    · rintro (hle | hmem)
      · omega
      · exact absurd hmem (Finset.notMem_empty _)
    · rintro ⟨applied, happlied, -⟩
      cases happlied
  | some applied => simp [Applied.contains_iff]

theorem card_known_le (h : ∀ applied, self.senders.lookup sender = some applied →
    applied.above.card ≤ maxAbove) : (self.known sender).above.card ≤ maxAbove := by
  rw [known, lookup_roomFor_self]
  cases hlookup : self.senders.lookup sender with
  | none => exact Nat.zero_le _
  | some applied => exact h applied hlookup

/-- Room is made before the table grows over its bound. -/
theorem length_insert_le (h : self.senders.keys.length ≤ maxSenders) (applied : Applied) :
    ((self.roomFor sender).insert sender applied).keys.length ≤ maxSenders := by
  rw [AList.keys_insert, List.length_cons]
  by_cases hin : sender ∈ self.senders
  · have hroom : self.roomFor sender = self.senders := by
      rw [roomFor, evicts, if_neg fun hfull => hfull.1 hin]
    rw [hroom, List.length_erase_of_mem (AList.mem_keys.mp hin)]
    have := List.length_pos_of_mem (AList.mem_keys.mp hin)
    omega
  · by_cases hfull : maxSenders ≤ self.senders.keys.length
    · have hne : self.senders.entries ≠ [] := by
        intro hnil
        rw [AList.keys, List.keys, hnil] at hfull
        exact absurd hfull (by decide)
      obtain ⟨entry, hentry⟩ : ∃ entry, minBy comesFirst self.senders.entries = some entry :=
        minBy_isSome hne
      have hroom : self.roomFor sender = self.senders.erase entry.1 := by
        rw [roomFor, evicts, if_pos ⟨hin, hfull⟩, hentry]
        rfl
      have hmem : entry.1 ∈ self.senders.keys := List.mem_map_of_mem (minBy_mem hentry)
      have hle := (List.erase_sublist (l := (self.roomFor sender).keys) (a := sender)).length_le
      rw [hroom, AList.keys_erase, List.length_erase_of_mem hmem] at hle
      rw [hroom, AList.keys_erase]
      have := List.length_pos_of_mem hmem
      omega
    · have hroom : self.roomFor sender = self.senders := by
        rw [roomFor, evicts, if_neg fun h => hfull h.2]
      have hle := (List.erase_sublist (l := self.senders.keys) (a := sender)).length_le
      rw [hroom]
      omega

end Inbound

/-! ## Sequences of messages -/

structure Message where
  sender : String
  seq : UInt64

/-- The table, and what is not in the source: the messages that were applied, the senders whose set
forgot a number, and those that were evicted. -/
structure Trace where
  inbound : Inbound
  applied : List (String × ℕ)
  dropped : List String
  evicted : List String

namespace Trace

def start : Trace := ⟨.new, [], [], []⟩

def step (trace : Trace) (message : Message) : Trace where
  inbound := (trace.inbound.apply message.sender message.seq.toNat).2
  applied :=
    if (trace.inbound.apply message.sender message.seq.toNat).1 then
      (message.sender, message.seq.toNat) :: trace.applied
    else trace.applied
  dropped :=
    if (trace.inbound.known message.sender).drops message.seq.toNat then
      message.sender :: trace.dropped
    else trace.dropped
  evicted := (trace.inbound.evicts message.sender).toList ++ trace.evicted

def after (messages : List Message) : Trace := messages.foldl step start

end Trace

/-- What the table says about the messages that were applied. -/
structure Tracks (trace : Trace) : Prop where
  sound : ∀ id applied, trace.inbound.senders.lookup id = some applied → ∀ n, 1 ≤ n →
    applied.contains n = true → (id, n) ∈ trace.applied
  complete : ∀ id, id ∉ trace.dropped → id ∉ trace.evicted → ∀ n, (id, n) ∈ trace.applied →
    ∃ applied, trace.inbound.senders.lookup id = some applied ∧ applied.contains n = true
  small : ∀ id applied, trace.inbound.senders.lookup id = some applied →
    applied.above.card ≤ maxAbove
  few : trace.inbound.senders.keys.length ≤ maxSenders

namespace Tracks

variable {trace : Trace}

theorem start : Tracks .start := by
  have hnone (id : String) : Trace.start.inbound.senders.lookup id = none := rfl
  refine ⟨fun id applied h => ?_, nofun, fun id applied h => ?_, Nat.zero_le _⟩
  · cases (hnone id).symm.trans h
  · cases (hnone id).symm.trans h

/-- The entry of an id after a message: what the message left for its sender, and for another id what
was there, unless it made room. -/
theorem lookup_step (trace : Trace) (message : Message) (id : String) :
    (trace.step message).inbound.senders.lookup id =
      if id = message.sender then
        some ((trace.inbound.known message.sender).apply message.seq.toNat).2
      else if trace.inbound.evicts message.sender = some id then none
      else trace.inbound.senders.lookup id := by
  have hsenders : (trace.step message).inbound.senders =
      (trace.inbound.roomFor message.sender).insert message.sender
        ((trace.inbound.known message.sender).apply message.seq.toNat).2 := rfl
  rw [hsenders]
  split_ifs with hid hevicts
  · rw [hid, AList.lookup_insert]
  · rw [AList.lookup_insert_ne hid, Inbound.lookup_roomFor, if_pos hevicts]
  · rw [AList.lookup_insert_ne hid, Inbound.lookup_roomFor, if_neg hevicts]

theorem mem_applied_step {entry : String × ℕ} {message : Message} :
    entry ∈ (trace.step message).applied ↔ entry ∈ trace.applied ∨
      (entry = (message.sender, message.seq.toNat) ∧
        ((trace.inbound.known message.sender).apply message.seq.toNat).1 = true) := by
  have hstep : (trace.step message).applied =
      if ((trace.inbound.known message.sender).apply message.seq.toNat).1 then
        (message.sender, message.seq.toNat) :: trace.applied
      else trace.applied := rfl
  rw [hstep]
  split_ifs with hfresh
  · rw [List.mem_cons]
    tauto
  · tauto

theorem mem_dropped_step {id : String} {message : Message} :
    id ∈ (trace.step message).dropped ↔ id ∈ trace.dropped ∨
      (id = message.sender ∧
        (trace.inbound.known message.sender).drops message.seq.toNat = true) := by
  have hstep : (trace.step message).dropped =
      if (trace.inbound.known message.sender).drops message.seq.toNat then
        message.sender :: trace.dropped
      else trace.dropped := rfl
  rw [hstep]
  split_ifs with hdrops
  · rw [List.mem_cons]
    tauto
  · tauto

theorem mem_evicted_step {id : String} {message : Message} :
    id ∈ (trace.step message).evicted ↔
      trace.inbound.evicts message.sender = some id ∨ id ∈ trace.evicted := by
  have hstep : (trace.step message).evicted =
      (trace.inbound.evicts message.sender).toList ++ trace.evicted := rfl
  rw [hstep, List.mem_append, Option.mem_toList]

theorem step_sound (h : Tracks trace) (message : Message) {id : String} {applied : Applied} {n : ℕ}
    (hlookup : (trace.step message).inbound.senders.lookup id = some applied) (hn : 1 ≤ n)
    (hcontains : applied.contains n = true) : (id, n) ∈ (trace.step message).applied := by
  rw [lookup_step] at hlookup
  rw [mem_applied_step]
  split_ifs at hlookup with hid
  · obtain rfl := Option.some.inj hlookup
    subst hid
    rcases Applied.contains_of_contains_apply hcontains with hold | ⟨hnew, rfl⟩
    · obtain ⟨known, hknown, hcontains⟩ := (Inbound.contains_known hn).mp hold
      exact .inl (h.sound _ known hknown n hn hcontains)
    · exact .inr ⟨rfl, hnew⟩
  · exact .inl (h.sound id applied hlookup n hn hcontains)

theorem step_complete (h : Tracks trace) (message : Message) {id : String} {n : ℕ}
    (hdropped : id ∉ (trace.step message).dropped) (hevicted : id ∉ (trace.step message).evicted)
    (hmem : (id, n) ∈ (trace.step message).applied) :
    ∃ applied, (trace.step message).inbound.senders.lookup id = some applied ∧
      applied.contains n = true := by
  rw [mem_dropped_step, not_or, not_and] at hdropped
  rw [mem_evicted_step, not_or] at hevicted
  rw [mem_applied_step] at hmem
  rw [lookup_step]
  by_cases hid : id = message.sender
  · subst hid
    refine ⟨_, if_pos rfl, ?_⟩
    rw [Applied.contains_apply (Bool.eq_false_iff.mpr (hdropped.2 rfl))]
    rcases hmem with hold | ⟨hnew, -⟩
    · left
      rcases Nat.eq_zero_or_pos n with rfl | hn
      · exact Applied.contains_iff.mpr (.inl (Nat.zero_le _))
      · exact (Inbound.contains_known hn).mpr (h.complete _ hdropped.1 hevicted.2 n hold)
    · exact .inr (Prod.mk.inj hnew).2
  · rw [if_neg hid, if_neg hevicted.1]
    refine h.complete id hdropped.1 hevicted.2 n (hmem.resolve_right ?_)
    rintro ⟨hnew, -⟩
    exact hid (Prod.mk.inj hnew).1

/-- **One message.** -/
theorem step (h : Tracks trace) (message : Message) : Tracks (trace.step message) where
  sound _ _ hlookup _ hn hcontains := h.step_sound message hlookup hn hcontains
  complete _ hdropped hevicted _ hmem := h.step_complete message hdropped hevicted hmem
  small id applied hlookup := by
    rw [lookup_step] at hlookup
    split_ifs at hlookup with hid
    · obtain rfl := Option.some.inj hlookup
      exact Applied.card_apply_le (Inbound.card_known_le fun applied => h.small _ applied)
    · exact h.small id applied hlookup
  few := Inbound.length_insert_le h.few _

/-- **All messages.** -/
theorem after (messages : List Message) : Tracks (Trace.after messages) := by
  have hrun (trace : Trace) (h : Tracks trace) : Tracks (messages.foldl Trace.step trace) := by
    induction messages generalizing trace with
    | nil => exact h
    | cons message messages ih => exact ih _ (h.step message)
  exact hrun _ .start

end Tracks

/-- **Dedupe loses no message.** After any messages of any senders, a number from 1 on is refused
only if it was applied before. It is taken exactly if it was not applied before, unless the set of
its sender forgot a number or the sender was evicted. The sets and the table keep to their bounds. -/
theorem dedupe_never_loses_a_message (messages : List Message) (sender : String) (seq : UInt64)
    (hseq : 1 ≤ seq) :
    let trace := Trace.after messages
    let fresh := (trace.inbound.apply sender seq.toNat).1
    (fresh = false → (sender, seq.toNat) ∈ trace.applied) ∧
    (sender ∉ trace.dropped → sender ∉ trace.evicted →
      (fresh = true ↔ (sender, seq.toNat) ∉ trace.applied)) ∧
    (∀ id applied, trace.inbound.senders.lookup id = some applied →
      applied.above.card ≤ maxAbove) ∧
    trace.inbound.senders.keys.length ≤ maxSenders := by
  intro trace fresh
  have h := Tracks.after messages
  have hpositive : 1 ≤ seq.toNat := UInt64.le_iff_toNat_le.mp hseq
  have hfresh : fresh = ! (trace.inbound.known sender).contains seq.toNat := Applied.apply_fst _ _
  have hrefused : fresh = false → (sender, seq.toNat) ∈ trace.applied := by
    intro hfalse
    have hcontains : (trace.inbound.known sender).contains seq.toNat = true := by
      rwa [hfresh, Bool.not_eq_false'] at hfalse
    obtain ⟨applied, hlookup, hcontains⟩ := (Inbound.contains_known hpositive).mp hcontains
    exact h.sound sender applied hlookup _ hpositive hcontains
  refine ⟨hrefused, fun hdropped hevicted => ⟨fun htrue hmem => ?_, fun hnew => ?_⟩, h.small, h.few⟩
  · have hknown := (Inbound.contains_known hpositive).mpr
      (h.complete sender hdropped hevicted _ hmem)
    rw [hfresh, hknown] at htrue
    cases htrue
  · by_contra hfalse
    exact hnew (hrefused (Bool.not_eq_true _ ▸ hfalse))

/-- Message 2 of one sender arrives before its message 1. -/
def earlyMessages : List Message := [⟨"a", 2⟩, ⟨"b", 1⟩]

theorem a_late_message_is_not_dropped :
    ((Trace.after earlyMessages).inbound.apply "a" 1).1 = true ∧
      ((Trace.after (earlyMessages ++ [⟨"a", 1⟩])).inbound.apply "a" 2).1 = false := by
  obtain ⟨-, hexact, -, -⟩ := dedupe_never_loses_a_message earlyMessages "a" 1 (by decide)
  obtain ⟨-, hagain, -, -⟩ :=
    dedupe_never_loses_a_message (earlyMessages ++ [⟨"a", 1⟩]) "a" 2 (by decide)
  refine ⟨(hexact (by decide +kernel) (by decide +kernel)).mpr (by decide +kernel), ?_⟩
  rw [← Bool.not_eq_true]
  exact fun htrue =>
    (hagain (by decide +kernel) (by decide +kernel)).mp htrue (by decide +kernel)

end Harvest.Agent.Dedupe
