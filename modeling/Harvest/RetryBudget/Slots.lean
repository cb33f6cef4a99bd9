import Harvest.RetryBudget.Tokens

/-!
# The wake-up slots of deferred retries

The pending slots of a bucket are a stack that is linked through the slots before them: a
reservation pushes, and a cancellation pops what is cancelled at the top.

Proved here:
* `Linked.later`, `Linked.pairwise`: the stack as time passes, and the distance of its slots.
* `Stacked.cancel`, `Stacked.reserveSlot`: what a cancellation and a reservation do to the stack.
* `deferred_retries_are_spaced`: the pending slots in every run.
-/

namespace Harvest.RetryBudget

open Lib (exec Legal)

/-! ## Linked slots -/

/-- The slots after `now`, the last one first. Each is linked to the slot before it and keeps its
distance from it, down to one that has passed. -/
def Linked (gap now : ℕ) : ℕ → List SlotReservation → Prop
  | nextSlot, [] => nextSlot ≤ now
  | nextSlot, r :: rest =>
    r.slot = nextSlot ∧ now < r.slot ∧ (now < r.previous → r.previous + gap ≤ r.slot) ∧
      Linked gap now r.previous rest

/-- The reservation is still to come. -/
def isPending (now : ℕ) (r : SlotReservation) : Bool := now < r.slot

namespace Linked

variable {gap now nextSlot : ℕ} {r : SlotReservation} {chain : List SlotReservation}

theorem pending (h : Linked gap now nextSlot chain) : ∀ r ∈ chain, now < r.slot := by
  induction chain generalizing nextSlot with
  | nil => nofun
  | cons r rest ih =>
    intro x hx
    rcases List.mem_cons.mp hx with rfl | hrest
    · exact h.2.1
    · exact ih h.2.2.2 x hrest

/-- The next slot is the latest one. -/
theorem le_nextSlot (h : Linked gap now nextSlot chain) : ∀ r ∈ chain, r.slot ≤ nextSlot := by
  induction chain generalizing nextSlot with
  | nil => nofun
  | cons r rest ih =>
    obtain ⟨hslot, hnow, hgap, hrest⟩ := h
    intro x hx
    rcases List.mem_cons.mp hx with rfl | hmem
    · exact hslot.le
    · have hle := ih hrest x hmem
      have hpending := hrest.pending x hmem
      have := hgap (by omega)
      omega

/-- What is below a slot keeps its distance from it. -/
theorem below (h : Linked gap now nextSlot (r :: chain)) : ∀ x ∈ chain, x.slot + gap ≤ r.slot := by
  obtain ⟨hslot, hnow, hgap, hrest⟩ := h
  intro x hx
  have hle := hrest.le_nextSlot x hx
  have hpending := hrest.pending x hx
  have := hgap (by omega)
  omega

theorem pairwise (h : Linked gap now nextSlot chain) :
    chain.Pairwise fun a b => b.slot + gap ≤ a.slot := by
  induction chain generalizing nextSlot with
  | nil => exact .nil
  | cons r rest ih => exact .cons h.below (ih h.2.2.2)

/-- **Time passes**: the slots that have passed are at the bottom. -/
theorem later (hgap : 1 ≤ gap) (h : Linked gap now nextSlot chain) {time : ℕ} (hle : now ≤ time) :
    Linked gap time nextSlot (chain.filter (isPending time)) := by
  induction chain generalizing nextSlot with
  | nil => exact Nat.le_trans h hle
  | cons r rest ih =>
    have hbelow := h.below
    obtain ⟨hslot, hnow, hdist, hrest⟩ := h
    rw [List.filter_cons]
    split_ifs with hr
    · refine ⟨hslot, of_decide_eq_true hr, fun hprev => hdist (hle.trans_lt hprev), ih hrest⟩
    · have hpassed : r.slot ≤ time := not_lt.mp fun hlt => hr (decide_eq_true hlt)
      have hnone : rest.filter (isPending time) = [] := by
        refine List.filter_eq_nil_iff.mpr fun x hx hlt => ?_
        have := hbelow x hx
        have := of_decide_eq_true hlt
        omega
      rw [hnone]
      exact hslot ▸ hpassed

end Linked

/-! ## The stack of a bucket -/

/-- The pending slots, given back or not, are one stack. -/
def Stacked (gap now : ℕ) (bucket : Bucket) (reserved : List SlotReservation) : Prop :=
  ∃ chain, Linked gap now bucket.nextSlot chain ∧
    chain.Perm ((reserved ++ bucket.cancelled).filter (isPending now))

/-- No cancelled slot is at the top of the stack. -/
def RolledBack (now : ℕ) (bucket : Bucket) : Prop :=
  ∀ r ∈ bucket.cancelled, now < r.slot → r.slot ≠ bucket.nextSlot

theorem swapRemove_perm {α : Type} {xs : List α} {i : ℕ} {x : α} (h : xs[i]? = some x) :
    (x :: swapRemove xs i).Perm xs := by
  obtain ⟨front, back, rfl, rfl⟩ : ∃ front back, xs = front ++ x :: back ∧ front.length = i := by
    obtain ⟨hi, rfl⟩ := List.getElem?_eq_some_iff.mp h
    exact ⟨xs.take i, xs.drop (i + 1), by simp, List.length_take_of_le hi.le⟩
  have hset : ∀ y, (front ++ x :: back).set front.length y = front ++ y :: back := by
    intro y
    rw [List.set_append_right _ _ le_rfl, Nat.sub_self]
    rfl
  -- the removed element is the last one, or the last one takes its place
  rcases List.eq_nil_or_concat' back with rfl | ⟨back, last, rfl⟩
  · unfold swapRemove
    rw [List.getLast?_concat]
    dsimp only
    rw [hset, List.dropLast_concat]
    exact (List.perm_append_singleton x front).symm
  · have hlast : (front ++ x :: (back ++ [last])).getLast? = some last := by
      rw [← List.cons_append, ← List.append_assoc, List.getLast?_concat]
    unfold swapRemove
    rw [hlast]
    dsimp only
    rw [hset, ← List.cons_append, ← List.append_assoc, List.dropLast_concat]
    have hback : (front ++ last :: back).Perm (front ++ (back ++ [last])) :=
      (List.perm_append_singleton last back).symm.append_left front
    exact (hback.cons x).trans List.perm_middle.symm

namespace Stacked

variable {gap now : ℕ} {bucket : Bucket} {reserved : List SlotReservation}

theorem congr (h : Stacked gap now bucket reserved) {bucket' : Bucket}
    {reserved' : List SlotReservation} (hnext : bucket'.nextSlot = bucket.nextSlot)
    (hperm : ((reserved' ++ bucket'.cancelled).filter (isPending now)).Perm
      ((reserved ++ bucket.cancelled).filter (isPending now))) :
    Stacked gap now bucket' reserved' := by
  obtain ⟨chain, hlinked, hchain⟩ := h
  exact ⟨chain, hnext ▸ hlinked, hchain.trans hperm.symm⟩

theorem later (hgap : 1 ≤ gap) (h : Stacked gap now bucket reserved) {time : ℕ}
    (hle : now ≤ time) : Stacked gap time bucket reserved := by
  obtain ⟨chain, hlinked, hchain⟩ := h
  refine ⟨chain.filter (isPending time), hlinked.later hgap hle, ?_⟩
  have hkept := hchain.filter (isPending time)
  have hfilters : ((reserved ++ bucket.cancelled).filter (isPending now)).filter (isPending time) =
      (reserved ++ bucket.cancelled).filter (isPending time) := by
    rw [List.filter_filter]
    refine List.filter_congr fun r _ => ?_
    unfold isPending
    by_cases hr : time < r.slot
    · simp [hr, hle.trans_lt hr]
    · simp [hr]
  rwa [hfilters] at hkept

/-- What every call does first. -/
theorem access (h : Stacked gap now bucket reserved) (policy : RetryBudgetPolicy) :
    Stacked gap now (bucket.access policy now) reserved := by
  refine h.congr rfl (.of_eq ?_)
  rw [List.filter_append, List.filter_append]
  refine congrArg _ ?_
  change (bucket.cancelled.filter (isPending now)).filter (isPending now) = _
  rw [List.filter_filter]
  simp only [Bool.and_self]

/-- A cancelled slot at the top is popped. -/
theorem pop (hgap : 1 ≤ gap) (h : Stacked gap now bucket reserved) {top : SlotReservation}
    {others : List SlotReservation} (hperm : (top :: others).Perm bucket.cancelled)
    (hpending : now < top.slot) (hslot : top.slot = bucket.nextSlot) :
    Stacked gap now { bucket with nextSlot := top.previous, cancelled := others } reserved := by
  obtain ⟨chain, hlinked, hchain⟩ := h
  have hall : chain.Perm (top :: (reserved ++ others).filter (isPending now)) := by
    have hmiddle : (reserved ++ bucket.cancelled).Perm (top :: (reserved ++ others)) :=
      (hperm.symm.append_left reserved).trans List.perm_middle
    have hkept := hmiddle.filter (isPending now)
    have hyes : isPending now top = true := decide_eq_true hpending
    rw [List.filter_cons_of_pos hyes] at hkept
    exact hchain.trans hkept
  have hmem : top ∈ chain := hall.mem_iff.mpr (List.mem_cons_self ..)
  cases chain with
  | nil => cases hmem
  | cons r rest =>
    -- below the top, slots are earlier
    have htop : top = r := by
      rcases List.mem_cons.mp hmem with heq | hrest
      · exact heq
      · have := hlinked.below top hrest
        have := hlinked.1
        omega
    subst htop
    exact ⟨rest, hlinked.2.2.2, hall.cons_inv⟩

/-- **The loop of a cancellation** ends with a live slot at the top, or below every pending slot. -/
theorem rollBack (hgap : 1 ≤ gap) {fuel : ℕ} (hfuel : bucket.cancelled.length ≤ fuel)
    (hpending : ∀ r ∈ bucket.cancelled, now < r.slot) (h : Stacked gap now bucket reserved) :
    Stacked gap now (Bucket.rollBack fuel bucket) reserved ∧
      RolledBack now (Bucket.rollBack fuel bucket) := by
  induction fuel generalizing bucket with
  | zero =>
    refine ⟨h, ?_⟩
    have hnil : bucket.cancelled = [] := List.eq_nil_of_length_eq_zero (Nat.le_zero.mp hfuel)
    unfold RolledBack Bucket.rollBack
    rw [hnil]
    rintro r ⟨⟩
  | succ fuel ih =>
    unfold Bucket.rollBack
    cases hfind : bucket.cancelled.findIdx? fun r => r.slot = bucket.nextSlot with
    | none =>
      refine ⟨h, fun r hr _ hslot => ?_⟩
      have := List.findIdx?_eq_none_iff.mp hfind r hr
      exact absurd (decide_eq_true hslot) (by rw [this]; exact Bool.false_ne_true)
    | some i =>
      obtain ⟨hi, htop, -⟩ := List.findIdx?_eq_some_iff_getElem.mp hfind
      have hget : bucket.cancelled[i]? = some bucket.cancelled[i] := List.getElem?_eq_getElem hi
      have hperm := swapRemove_perm hget
      have hmem : bucket.cancelled[i] ∈ bucket.cancelled := List.getElem_mem hi
      have hslot : bucket.cancelled[i].slot = bucket.nextSlot := of_decide_eq_true htop
      dsimp only
      rw [hget]
      generalize bucket.cancelled[i] = top at hperm hmem hslot
      refine ih ?_ (fun r hr => hpending r ((hperm.mem_iff).mp (List.mem_cons_of_mem _ hr))) ?_
      · have hlength := hperm.length_eq
        rw [List.length_cons] at hlength
        rw [← hlength] at hfuel
        exact Nat.le_of_succ_le_succ hfuel
      · exact h.pop hgap hperm (hpending top hmem) hslot

/-- **A cancellation** of a live slot. -/
theorem cancel (hgap : 1 ≤ gap) (h : Stacked gap now bucket reserved)
    (hrolled : RolledBack now bucket) (hpending : ∀ r ∈ bucket.cancelled, now < r.slot)
    {r : SlotReservation} (hr : r ∈ reserved) :
    Stacked gap now (bucket.cancel r now) (reserved.erase r) ∧
      RolledBack now (bucket.cancel r now) := by
  have herase : reserved.Perm (r :: reserved.erase r) := List.perm_cons_erase hr
  unfold Bucket.cancel
  split_ifs with hpassed
  · refine ⟨h.congr rfl ?_, hrolled⟩
    have hno : ¬ isPending now r = true := fun hlt => absurd (of_decide_eq_true hlt) hpassed.not_gt
    have hkept := (herase.append_right bucket.cancelled).filter (isPending now)
    rw [List.cons_append, List.filter_cons_of_neg hno] at hkept
    exact hkept.symm
  · refine rollBack hgap ?_ ?_ (h.congr rfl ?_)
    · exact (List.length_append ..).le
    · intro x hx
      rcases List.mem_append.mp hx with hold | hnew
      · exact hpending x hold
      · exact List.mem_singleton.mp hnew ▸ not_le.mp hpassed
    · have hmoved : (reserved.erase r ++ (bucket.cancelled ++ [r])).Perm
          (reserved ++ bucket.cancelled) := by
        rw [← List.append_assoc]
        exact (List.perm_append_singleton r _).trans (herase.append_right bucket.cancelled).symm
      exact hmoved.filter (isPending now)

/-- **A reservation** is pushed. -/
theorem reserveSlot {policy : RetryBudgetPolicy} (hgap : 1 ≤ Bucket.interval policy)
    (h : Stacked (Bucket.interval policy) now bucket reserved) (hrolled : RolledBack now bucket)
    (overflow : ℕ) :
    Stacked (Bucket.interval policy) now (bucket.reserveSlot overflow policy now).2
        ((bucket.reserveSlot overflow policy now).1.2.toList ++ reserved) ∧
      RolledBack now (bucket.reserveSlot overflow policy now).2 := by
  have hready : now < bucket.wakeSlot policy now := by
    unfold Bucket.wakeSlot
    exact (Nat.lt_add_of_pos_right (by decide)).trans_le (le_max_right _ _)
  have hspaced : now < bucket.nextSlot →
      bucket.nextSlot + Bucket.interval policy ≤ bucket.wakeSlot policy now := by
    intro hnext
    unfold Bucket.wakeSlot
    dsimp only
    rw [if_pos hnext]
    exact (le_max_right _ _).trans (le_max_left _ _)
  unfold Bucket.reserveSlot
  dsimp only
  split_ifs with hfar
  · exact ⟨h, hrolled⟩
  · obtain ⟨chain, hlinked, hchain⟩ := h
    refine ⟨⟨⟨bucket.wakeSlot policy now, bucket.nextSlot⟩ :: chain, ⟨rfl, hready, hspaced, hlinked⟩,
      ?_⟩, fun r hr hlt heq => ?_⟩
    · have hyes : isPending now ⟨bucket.wakeSlot policy now, bucket.nextSlot⟩ = true :=
        decide_eq_true hready
      rw [Option.toList_some, List.singleton_append, List.cons_append, List.filter_cons_of_pos hyes]
      exact hchain.cons _
    · have hmem : r ∈ chain :=
        hchain.mem_iff.mpr (List.mem_filter.mpr ⟨List.mem_append_right _ hr, decide_eq_true hlt⟩)
      have hle := hlinked.le_nextSlot r hmem
      have hdist := hspaced (hlt.trans_le hle)
      change r.slot = bucket.wakeSlot policy now at heq
      omega

end Stacked

/-! ## The slots of a session -/

/-- What the call does to the reservations that were not given back. -/
def Call.onReserved (policy : RetryBudgetPolicy) (now : ℕ) (reserved : List SlotReservation) :
    Call → Bucket → List SlotReservation
  | .admitAttempt overflow isRetry, bucket =>
    match (bucket.admitAttempt overflow policy isRetry now).1 with
    | .deferred _ _ reservation => reservation.toList ++ reserved
    | _ => reserved
  | .cancelDeferral reservation, _ => reserved.erase reservation
  | .wakeDelay overflow _ reservation, bucket =>
    (bucket.rewake overflow policy reservation now).1.2.toList ++
      reservation.elim reserved reserved.erase
  | _, _ => reserved

/-- The reservations that the call gives back are live. -/
def Call.GivesBack (reserved : List SlotReservation) : Call → Prop
  | .cancelDeferral reservation => reservation ∈ reserved
  | .wakeDelay _ _ reservation => ∀ old ∈ reservation, old ∈ reserved
  | _ => True

/-- **A call** keeps the stack. -/
theorem Stacked.call {policy : RetryBudgetPolicy} (hgap : 1 ≤ Bucket.interval policy) {now : ℕ}
    {bucket : Bucket} {reserved : List SlotReservation}
    (h : Stacked (Bucket.interval policy) now bucket reserved) (hrolled : RolledBack now bucket)
    (hpending : ∀ r ∈ bucket.cancelled, now < r.slot) {call : Call} (hlive : call.GivesBack reserved) :
    Stacked (Bucket.interval policy) now (call.onBucket policy now bucket)
        (call.onReserved policy now reserved bucket) ∧
      RolledBack now (call.onBucket policy now bucket) := by
  cases call with
  | admitAttempt overflow isRetry =>
    unfold Call.onBucket Call.onReserved Bucket.admitAttempt
    dsimp only
    split_ifs
    · exact ⟨h, hrolled⟩
    · exact ⟨h, hrolled⟩
    · exact h.reserveSlot hgap hrolled overflow
  | commit ticket =>
    cases ticket with
    | pendingDeposit => exact ⟨h, hrolled⟩
    | spent => exact ⟨h, hrolled⟩
  | release ticket =>
    cases ticket with
    | pendingDeposit => exact ⟨h, hrolled⟩
    | spent => exact ⟨h, hrolled⟩
  | available => exact ⟨h, hrolled⟩
  | cancelDeferral reservation => exact h.cancel hgap hrolled hpending hlive
  | wakeDelay overflow wakeAt reservation =>
    cases reservation with
    | none => exact h.reserveSlot hgap hrolled overflow
    | some old =>
      obtain ⟨hstacked, hback⟩ := h.cancel hgap hrolled hpending (hlive old rfl)
      exact hstacked.reserveSlot hgap hback overflow

namespace Session

variable {activityName : String} {policy : RetryBudgetPolicy} {s : Session} {time : ℕ}

theorem step_reserved (hpolicy : s.registry.config.policyFor activityName = some policy) {act : Act}
    (htakes : takesBucket act = true) :
    (step activityName s act).reserved = act.1.onReserved policy act.2 s.reserved
      ((s.found activityName policy act.2).access policy act.2) := by
  obtain ⟨call, now⟩ := act
  unfold step
  rw [if_pos htakes]
  cases call with
  | admitAttempt overflow isRetry =>
    dsimp only [Call.onReserved]
    rw [RetryBudgetRegistry.admitAttempt, withBucket_of_policy hpolicy]
    dsimp only [Option.getD_some]
    unfold found
    cases (Bucket.admitAttempt overflow policy isRetry now _).1 with
    | untracked => rfl
    | admitted => rfl
    | deferred => rfl
  | wakeDelay overflow wakeAt reservation =>
    have hnear : ¬ minRetryBudgetDefer ≤ wakeAt - now := not_le.mpr (of_decide_eq_true htakes)
    dsimp only
    rw [RetryBudgetRegistry.wakeDelay, if_neg hnear, withBucket_of_policy hpolicy]
    rfl
  | _ => rfl

/-- What holds between calls, from that time on. -/
structure Spaced (activityName : String) (policy : RetryBudgetPolicy) (s : Session) (time : ℕ) :
    Prop where
  policyFor : s.registry.config.policyFor activityName = some policy
  stacked : ∀ now, time ≤ now →
    Stacked (Bucket.interval policy) now (s.found activityName policy now) s.reserved
  rolledBack : ∀ now, time ≤ now → RolledBack now (s.found activityName policy now)

theorem Spaced.new {config : RetryBudgetConfig} (hpolicy : config.policyFor activityName = some policy) :
    Spaced activityName policy (new config) 0 :=
  ⟨hpolicy, fun _ _ => ⟨[], le_rfl, .nil⟩, fun _ _ => nofun⟩

theorem Spaced.mono (h : Spaced activityName policy s time) {later : ℕ} (hle : time ≤ later) :
    Spaced activityName policy s later :=
  ⟨h.policyFor, fun now hnow => h.stacked now (hle.trans hnow),
    fun now hnow => h.rolledBack now (hle.trans hnow)⟩

/-- **One call.** -/
theorem Spaced.step (hgap : 1 ≤ Bucket.interval policy) (h : Spaced activityName policy s time)
    {act : Act} (htime : time ≤ act.2) (hallowed : s.Allowed act) :
    Spaced activityName policy (step activityName s act) act.2 := by
  cases htakes : takesBucket act with
  | false =>
    obtain ⟨hregistry, -, -, -, -, hperm⟩ := @step_of_no_access activityName s act htakes hallowed
    refine ⟨hregistry ▸ h.policyFor, fun now hnow => ?_, fun now hnow => ?_⟩
    · unfold found
      rw [hregistry]
      exact (h.stacked now (htime.trans hnow)).congr rfl ((hperm.append_right _).filter _)
    · unfold found
      rw [hregistry]
      exact h.rolledBack now (htime.trans hnow)
  | true =>
    obtain ⟨hbucket, hconfig, -⟩ := step_bucket h.policyFor htakes
    have hreserved := step_reserved h.policyFor htakes
    have hlive : act.1.GivesBack s.reserved := by
      obtain ⟨call, now⟩ := act
      cases call with
      | cancelDeferral => exact hallowed
      | wakeDelay => exact hallowed
      | _ => trivial
    -- the bucket that the call finds, and what it makes of it
    have hbefore := (h.stacked act.2 htime).access policy
    have hrolled : RolledBack act.2 ((s.found activityName policy act.2).access policy act.2) :=
      fun r hr => h.rolledBack act.2 htime r (List.mem_of_mem_filter hr)
    obtain ⟨hstacked, hback⟩ := hbefore.call hgap hrolled
      (fun r hr => of_decide_eq_true (List.mem_filter.mp hr).2) hlive
    have hfound : ∀ now, (Session.step activityName s act).found activityName policy now =
        act.1.onBucket policy act.2 ((s.found activityName policy act.2).access policy act.2) := by
      intro now
      unfold found
      rw [hbucket]
      rfl
    refine ⟨hconfig ▸ h.policyFor, fun now hnow => ?_, fun now hnow => ?_⟩
    · rw [hfound, hreserved]
      exact hstacked.later hgap hnow
    · rw [hfound]
      exact fun r hr hlt => hback r hr (Nat.lt_of_le_of_lt hnow hlt)

/-- **A run.** -/
theorem Spaced.run (hgap : 1 ≤ Bucket.interval policy) (h : Spaced activityName policy s time)
    {acts : List Act} {later : ℕ} (htimes : (time :: (acts.map Prod.snd ++ [later])).IsChain (· ≤ ·))
    (hlegal : Legal (Session.step activityName) Allowed s acts) :
    Spaced activityName policy (exec (Session.step activityName) s acts) later := by
  induction acts generalizing s time with
  | nil => exact h.mono (List.isChain_cons_cons.mp htimes).1
  | cons act acts ih =>
    obtain ⟨hnow, hlater⟩ := List.isChain_cons_cons.mp htimes
    exact ih (h.step hgap hnow hlegal.1) hlater hlegal.2

end Session

/-- **Deferred retries are spaced out.** In every run with non-decreasing times and at every time
after it: two pending reservations that were not given back are a refill interval apart, the next
slot is not before them, and without any of them it has passed, so that it delays no new one. -/
theorem deferred_retries_are_spaced (config : RetryBudgetConfig) (activityName : String)
    (policy : RetryBudgetPolicy) (hpolicy : config.policyFor activityName = some policy)
    (hinterval : 1 ≤ Bucket.interval policy) (acts : List Act) (now : ℕ)
    (htimes : (acts.map Prod.snd ++ [now]).IsChain (· ≤ ·))
    (hlegal : Legal (Session.step activityName) Session.Allowed (.new config) acts) :
    let s := exec (Session.step activityName) (.new config) acts
    let pending := s.reserved.filter (isPending now)
    let bucket := s.found activityName policy now
    pending.Pairwise (fun a b => a.slot + Bucket.interval policy ≤ b.slot ∨
        b.slot + Bucket.interval policy ≤ a.slot) ∧
      (∀ r ∈ pending, r.slot ≤ bucket.nextSlot) ∧
      (pending = [] → bucket.nextSlot ≤ now ∧
        (bucket.access policy now).wakeSlot policy now =
          max (now + Bucket.untilToken policy (bucket.access policy now).tokens)
            (now + minRetryBudgetDefer)) := by
  intro s pending bucket
  have hspaced := (Session.Spaced.new hpolicy).run hinterval (isChain_from_zero htimes) hlegal
  obtain ⟨chain, hlinked, hchain⟩ := hspaced.stacked now le_rfl
  rw [List.filter_append] at hchain
  refine ⟨?_, fun r hr => ?_, fun hnone => ?_⟩
  · have hall := (hlinked.pairwise.imp fun hab => Or.inr hab).perm hchain fun hab => hab.symm
    exact (List.pairwise_append.mp hall).1
  · exact hlinked.le_nextSlot r (hchain.mem_iff.mpr (List.mem_append_left _ hr))
  · have hnext : bucket.nextSlot ≤ now := by
      cases chain with
      | nil => exact hlinked
      | cons r rest =>
        -- the top would be a cancelled slot
        have hmem := hchain.mem_iff.mp (List.mem_cons_self ..)
        change r ∈ pending ++ _ at hmem
        rw [hnone, List.nil_append] at hmem
        obtain ⟨hcancelled, hlt⟩ := List.mem_filter.mp hmem
        exact absurd hlinked.1
          (hspaced.rolledBack now le_rfl r hcancelled (of_decide_eq_true hlt))
    refine ⟨hnext, ?_⟩
    unfold Bucket.wakeSlot
    dsimp only
    have hpassed : ¬ now < (bucket.access policy now).nextSlot := not_lt.mpr hnext
    rw [if_neg hpassed]

/-- Three deferrals, and the one in the middle is given back. -/
def threeDeferrals : List Act :=
  [(.wakeDelay 0 0 none, 0), (.wakeDelay 0 0 none, 0), (.wakeDelay 0 0 none, 10),
    (.cancelDeferral ⟨1050000000, 50000000⟩, 20)]

/-- The two others are pending, two seconds apart. -/
theorem three_deferrals_are_spaced :
    (exec (Session.step "charge") (.new defaultConfig) threeDeferrals).reserved.filter
        (isPending 30) = [⟨2050000000, 1050000000⟩, ⟨50000000, 0⟩] ∧
      ∀ r ∈ (exec (Session.step "charge") (.new defaultConfig) threeDeferrals).reserved.filter
        (isPending 30), r.slot ≤ ((exec (Session.step "charge") (.new defaultConfig)
          threeDeferrals).found "charge" (.new (1 / 10) 10 1) 30).nextSlot := by
  have hlegal : Legal (Session.step "charge") Session.Allowed (.new defaultConfig)
      threeDeferrals := by
    refine ⟨nofun, nofun, nofun, ?_, trivial⟩
    change (⟨1050000000, 50000000⟩ : SlotReservation) ∈ _
    decide +kernel
  exact ⟨by decide +kernel, (deferred_retries_are_spaced defaultConfig "charge" (.new (1 / 10) 10 1)
    rfl (by decide +kernel) threeDeferrals 30 (by decide) hlegal).2.1⟩

end Harvest.RetryBudget
