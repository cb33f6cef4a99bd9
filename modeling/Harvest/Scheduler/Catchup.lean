import Harvest.Lib.Walk

/-!
# Catch-up plans

Model of `schedule_plan.rs` and of the catch-up planning in `scheduler.rs`: which missed slots of
a schedule run after a downtime, and how many are dropped.

Instants are nanoseconds since the epoch. The cron library, the zone database and the range of
dates are parameters. A `none` of a planning function is a panic: a date or a 64-bit number that
leaves its range.

Proved here:
* `summaryLoop_eq`, `windowLoop_eq`, `dueLoop_eq`: every walk of the planner is one walk.
* `bounded_plans_agree`: the bounded policies choose from what the unbounded policy lists.
-/

namespace Harvest.Scheduler

open Lib

/-- What the planner uses of `croner`, `chrono-tz` and `chrono`. -/
structure Calendar where
  Cron : Type
  Tz : Type
  parseCron : String → Option Cron
  parseTz : String → Option Tz
  /-- The next match after an instant, in a zone or in UTC. With `true` the instant counts. -/
  findNextOccurrence : Cron → Option Tz → Int → Bool → Option Int
  minUtc : Int
  maxUtc : Int

/-- A schedule. The period of an interval is in nanoseconds. -/
inductive Schedule
  | cron (expr : String)
  | interval (period : Nat)
  | manual
  | cronInTimezone (expr tz : String)
deriving DecidableEq, Repr

inductive CatchupPolicy
  | skipAll
  | mostRecent
  | window (window : Nat)
  | unbounded
deriving DecidableEq, Repr

structure CatchupPlan where
  runDates : List Int
  nextRunAt : Option Int
  dropped : Nat
deriving DecidableEq, Repr

/-! ## Durations and 64-bit numbers -/

/-- A number that fits in an `i64`. Checked arithmetic and `num_nanoseconds` give it. -/
def asI64 (n : Int) : Option Int := if -2 ^ 63 ≤ n ∧ n < 2 ^ 63 then some n else none

/-- `chrono::Duration::from_std`. The largest duration is `i64::MAX` milliseconds. -/
def durationFromStd (d : Nat) : Option Int :=
  if (d : Int) ≤ (2 ^ 63 - 1) * 10 ^ 6 then some d else none

section Planner

variable (calendar : Calendar)

/-- `checked_add_signed`, and the sum of a date and a duration. -/
def addDate (date duration : Int) : Option Int :=
  let sum := date + duration
  if calendar.minUtc ≤ sum ∧ sum ≤ calendar.maxUtc then some sum else none

/-! ## Walking the slots -/

inductive WalkerKind
  | cron (cron : calendar.Cron)
  | cronInTimezone (cron : calendar.Cron) (tz : calendar.Tz)
  | interval (period : Int)
  | never

/-- `SlotWalker::new`. A schedule that does not parse, or whose period does not advance, never
fires. -/
def slotWalkerNew (schedule : Schedule) : WalkerKind calendar :=
  let kind : Option (WalkerKind calendar) :=
    match schedule with
    | .cron expr => (calendar.parseCron expr).map .cron
    | .cronInTimezone expr tz =>
      (calendar.parseTz tz).bind fun zone =>
        (calendar.parseCron expr).map fun parsed => .cronInTimezone parsed zone
    | .interval interval =>
      ((durationFromStd interval).filter (0 < ·)).map .interval
    | .manual => none
  kind.getD .never

variable {calendar} in
/-- The first slot strictly after `reference`. -/
def WalkerKind.nextAfter (kind : WalkerKind calendar) (reference : Int) : Option Int :=
  match kind with
  | .cron parsed => calendar.findNextOccurrence parsed none reference false
  | .cronInTimezone parsed zone =>
    -- The second search moves a match in a skipped hour to the next real match.
    (calendar.findNextOccurrence parsed (some zone) reference false).bind fun candidate =>
      calendar.findNextOccurrence parsed (some zone) candidate true
  | .interval duration => addDate calendar reference duration
  | .never => none

/-- The slots of an optional schedule. -/
def nextRunAfter (schedule : Option Schedule) (reference : Int) : Option Int :=
  schedule.bind fun schedule => (slotWalkerNew calendar schedule).nextAfter reference

/-- The steps that a walk from `cursor` to `now` takes at most. -/
def walkFuel (cursor now : Int) : Nat := (now + 1 - cursor).toNat

/-- The loop of `due_run_plan`. -/
def dueLoop (next : Int → Option Int) (now : Int) : Nat → Int → List Int → List Int × Option Int
  | 0, cursor, created => (created, some cursor)
  | fuel + 1, cursor, created =>
    if now < cursor then (created, some cursor)
    else
      match next cursor with
      | none => (created ++ [cursor], none)
      | some cursor' => dueLoop next now fuel cursor' (created ++ [cursor])

def nextSlotAfterFire (schedule : Option Schedule) (fired now : Int) : Option Int :=
  ((nextRunAfter calendar schedule fired).filter (now < ·)) <|> nextRunAfter calendar schedule now

def dueRunPlan (schedule : Option Schedule) (firstDue now : Int) (catchup : Bool) :
    List Int × Option Int :=
  if ! catchup then ([firstDue], nextSlotAfterFire calendar schedule firstDue now)
  else dueLoop (nextRunAfter calendar schedule) now (walkFuel firstDue now) firstDue []

/-! ## Eligible slots -/

structure EligibleSummary where
  eligibleCount : Nat
  lastEligible : Option Int
  nextRunAt : Option Int
deriving DecidableEq, Repr

/-- Whether a slot is before the end of its schedule. -/
def beforeEnd (endAt : Option Int) (slot : Int) : Bool := endAt.all (slot < ·)

/-- The period of an interval, where it advances. -/
def intervalPeriod : Option Schedule → Option Int
  | some (.interval d) => (durationFromStd d).filter (0 < ·)
  | _ => none

/-- The largest step whose slot is eligible. -/
def lastEligibleStep (spanNow period : Int) (endSpan : Option Int) : Option Int :=
  if spanNow < 0 then none
  else
    let kNow := spanNow.tdiv period
    let k :=
      match endSpan with
      | some es => if 1 ≤ es then some (min kNow ((es - 1).tdiv period)) else none
      | none => some kNow
    k.filter (0 ≤ ·)

/-- What the closed form reads: the period, the span to `now` and the span to the end, where all
of them fit in nanoseconds. -/
def closedFormInput (schedule : Option Schedule) (firstDue now : Int) (endAt : Option Int) :
    Option (Int × Int × Option Int) :=
  match (intervalPeriod schedule).bind asI64, asI64 (now - firstDue) with
  | some p, some spanNow =>
    match endAt with
    | none => some (p, spanNow, none)
    | some e => (asI64 (e - firstDue)).map fun es => (p, spanNow, some es)
  | _, _ => none

/-- The slot `first_due + k * p`. -/
def slotAt (firstDue k p : Int) : Option Int := (asI64 (k * p)).bind (addDate calendar firstDue)

/-- The summary in closed form. -/
def closedFormSummary (firstDue p spanNow : Int) (endSpan : Option Int) : Option EligibleSummary :=
  do
    let nextRunAt ← if 0 ≤ spanNow then (slotAt calendar firstDue (spanNow.tdiv p + 1) p).map some
      else some none
    match lastEligibleStep spanNow p endSpan with
    | none => return ⟨0, none, nextRunAt⟩
    | some k =>
      let last ← slotAt calendar firstDue k p
      return ⟨(k + 1).toNat, some last, nextRunAt⟩

/-- The walk of `eligible_slot_summary`. -/
def summaryLoop (next : Int → Option Int) (now : Int) (endAt : Option Int) :
    Nat → Int → Nat → Option Int → EligibleSummary
  | 0, cursor, count, last => ⟨count, last, some cursor⟩
  | fuel + 1, cursor, count, last =>
    if now < cursor then ⟨count, last, some cursor⟩
    else
      let (count, last) :=
        if beforeEnd endAt cursor then (count + 1, some cursor) else (count, last)
      match next cursor with
      | none => ⟨count, last, none⟩
      | some cursor' => summaryLoop next now endAt fuel cursor' count last

def walkedSummary (schedule : Option Schedule) (firstDue now : Int) (endAt : Option Int) :
    EligibleSummary :=
  summaryLoop (nextRunAfter calendar schedule) now endAt (walkFuel firstDue now) firstDue 0 none

def eligibleSlotSummary (schedule : Option Schedule) (firstDue now : Int) (endAt : Option Int) :
    Option EligibleSummary :=
  match closedFormInput schedule firstDue now endAt with
  | some (p, spanNow, endSpan) => closedFormSummary calendar firstDue p spanNow endSpan
  | none => some (walkedSummary calendar schedule firstDue now endAt)

/-- The smallest step whose slot is at or after the cutoff. -/
def firstWindowStep (firstDue p cutoff : Int) : Option Int :=
  match asI64 (cutoff - firstDue) with
  | some cs => if 0 < cs then (asI64 (cs + p)).map fun sum => (sum - 1).tdiv p else some 0
  | none => some 0

/-- The slots of a window in closed form. -/
def closedFormWindow (firstDue p spanNow : Int) (endSpan : Option Int) (cutoff : Int) :
    Option (List Int) :=
  match lastEligibleStep spanNow p endSpan with
  | none => some []
  | some kHi =>
    (firstWindowStep firstDue p cutoff).bind fun kLo =>
      if kHi < kLo then some []
      else (List.range (kHi + 1 - kLo).toNat).mapM fun i : Nat =>
        slotAt calendar firstDue (kLo + i) p

/-- The walk of `window_eligible_slots`. -/
def windowLoop (next : Int → Option Int) (now : Int) (endAt : Option Int) (cutoff : Int) :
    Nat → Int → List Int → List Int
  | 0, _, slots => slots
  | fuel + 1, cursor, slots =>
    if now < cursor then slots
    else
      let slots := if cutoff ≤ cursor && beforeEnd endAt cursor then slots ++ [cursor] else slots
      match next cursor with
      | none => slots
      | some cursor' => windowLoop next now endAt cutoff fuel cursor' slots

/-- The slots of a window by a walk that starts at its cutoff. -/
def walkedWindow (schedule : Option Schedule) (firstDue now : Int) (endAt : Option Int)
    (cutoff : Int) : Option (List Int) := do
  let cursor ←
    if firstDue < cutoff then
      (addDate calendar cutoff (-1)).map fun before =>
        (nextRunAfter calendar schedule before).getD firstDue
    else some firstDue
  return windowLoop (nextRunAfter calendar schedule) now endAt cutoff (walkFuel cursor now) cursor []

def windowEligibleSlots (schedule : Option Schedule) (firstDue now : Int) (endAt : Option Int)
    (cutoff : Int) : Option (List Int) :=
  match closedFormInput schedule firstDue now endAt with
  | some (p, spanNow, endSpan) => closedFormWindow calendar firstDue p spanNow endSpan cutoff
  | none => walkedWindow calendar schedule firstDue now endAt cutoff

/-- The slots to run, the next run and the number of dropped slots. -/
def catchupRunPlan (schedule : Option Schedule) (firstDue now : Int) (policy : CatchupPolicy)
    (endAt : Option Int) : Option CatchupPlan :=
  match policy with
  | .skipAll => some ⟨[firstDue], nextSlotAfterFire calendar schedule firstDue now, 0⟩
  | .unbounded =>
    let (runDates, nextRunAt) := dueRunPlan calendar schedule firstDue now true
    some ⟨runDates, nextRunAt, 0⟩
  | .mostRecent => do
    let summary ← eligibleSlotSummary calendar schedule firstDue now endAt
    let runDates := summary.lastEligible.toList
    return ⟨runDates, summary.nextRunAt, summary.eligibleCount - runDates.length⟩
  | .window window => do
    let cutoff ← addDate calendar now (-(durationFromStd window).getD 0)
    let summary ← eligibleSlotSummary calendar schedule firstDue now endAt
    let runDates ← windowEligibleSlots calendar schedule firstDue now endAt cutoff
    return ⟨runDates, summary.nextRunAt, summary.eligibleCount - runDates.length⟩

end Planner

/-! ## The loops are walks -/

section Loops

variable (next : Int → Option Int) (now : Int) (endAt : Option Int)

theorem dueLoop_eq (fuel : Nat) (cursor : Int) (created : List Int) :
    dueLoop next now fuel cursor created =
      (created ++ (walk next now fuel cursor).1, (walk next now fuel cursor).2) := by
  induction fuel generalizing cursor created with
  | zero => simp [dueLoop, walk]
  | succ fuel ih =>
    unfold dueLoop walk
    split_ifs with hpast
    · simp
    · cases next cursor with
      | none => rfl
      | some cursor' =>
        dsimp only
        rw [ih]
        simp

/-- The walk counts the eligible slots and keeps the last. -/
theorem summaryLoop_eq (fuel : Nat) (cursor : Int) (count : Nat) (last : Option Int) :
    summaryLoop next now endAt fuel cursor count last =
      let eligible := (walk next now fuel cursor).1.filter (beforeEnd endAt)
      ⟨count + eligible.length, eligible.getLast?.or last, (walk next now fuel cursor).2⟩ := by
  induction fuel generalizing cursor count last with
  | zero => simp [summaryLoop, walk]
  | succ fuel ih =>
    unfold summaryLoop walk
    split_ifs with hpast hend
    · simp
    · dsimp only
      cases next cursor with
      | none => simp [hend]
      | some cursor' =>
        dsimp only
        rw [ih, List.filter_cons_of_pos hend]
        simp only [List.length_cons, List.getLast?_cons]
        refine EligibleSummary.mk.injEq .. ▸ ⟨by omega, ?_, rfl⟩
        cases ((walk next now fuel cursor').1.filter (beforeEnd endAt)).getLast? <;> rfl
    · dsimp only
      cases next cursor with
      | none => simp [hend]
      | some cursor' =>
        dsimp only
        rw [ih, List.filter_cons_of_neg hend]

theorem windowLoop_eq (cutoff : Int) (fuel : Nat) (cursor : Int) (slots : List Int) :
    windowLoop next now endAt cutoff fuel cursor slots =
      slots ++ ((walk next now fuel cursor).1.filter (beforeEnd endAt)).filter (cutoff ≤ ·) := by
  induction fuel generalizing cursor slots with
  | zero => simp [windowLoop, walk]
  | succ fuel ih =>
    unfold windowLoop walk
    split_ifs with hpast hkept
    · simp
    · obtain ⟨hcut, hend⟩ := (Bool.and_eq_true _ _).mp hkept
      dsimp only
      cases next cursor with
      | none => simp [hend, of_decide_eq_true hcut]
      | some cursor' =>
        dsimp only
        rw [ih, List.filter_cons_of_pos hend]
        simp [of_decide_eq_true hcut]
    · dsimp only
      have hdrop (rest : List Int) :
          ((cursor :: rest).filter (beforeEnd endAt)).filter (cutoff ≤ ·) =
            (rest.filter (beforeEnd endAt)).filter (cutoff ≤ ·) := by
        rw [List.filter_filter, List.filter_filter, List.filter_cons_of_neg (by simpa using hkept)]
      cases next cursor with
      | none => rw [hdrop []]; simp
      | some cursor' =>
        dsimp only
        rw [ih, hdrop]

end Loops

/-! ## Ranges of steps -/

theorem range_filter_lt (n m : Nat) : (List.range n).filter (· < m) = List.range (min n m) := by
  induction n with
  | zero => simp
  | succ n ih =>
    rw [List.range_succ, List.filter_append, ih]
    by_cases h : n < m
    · rw [Nat.min_eq_left (by omega), Nat.min_eq_left (by omega), List.range_succ]
      simp [h]
    · rw [Nat.min_eq_right (by omega), Nat.min_eq_right (by omega)]
      simp [h]

theorem range_filter_ge (n m : Nat) :
    (List.range n).filter (m ≤ ·) = (List.range (n - m)).map (m + ·) := by
  induction n with
  | zero => simp
  | succ n ih =>
    rw [List.range_succ, List.filter_append, ih]
    by_cases h : m ≤ n
    · rw [show n + 1 - m = (n - m) + 1 by omega, List.range_succ, List.map_append]
      simp [h]
    · rw [show n + 1 - m = n - m by omega]
      simp [h]

/-- The last eligible step bounds the eligible steps, and there is none without one. -/
theorem lastEligibleStep_spec {spanNow p : Int} (hspan : 0 ≤ spanNow) (hp : 0 < p)
    (endSpan : Option Int) (k : Nat) :
    (k * p ≤ spanNow ∧ endSpan.all (k * p < ·)) ↔
      (lastEligibleStep spanNow p endSpan).any ((k : Int) ≤ ·) := by
  have hnow : k * p ≤ spanNow ↔ (k : Int) ≤ spanNow.tdiv p := by
    rw [Int.tdiv_eq_ediv_of_nonneg hspan, Int.le_ediv_iff_mul_le hp]
  have hnowPos : 0 ≤ spanNow.tdiv p := Int.tdiv_nonneg hspan hp.le
  unfold lastEligibleStep
  rw [if_neg (not_lt.mpr hspan)]
  cases endSpan with
  | none => simp [hnow, hnowPos]
  | some es =>
    dsimp only
    by_cases hes : 1 ≤ es
    · have hend : k * p < es ↔ (k : Int) ≤ (es - 1).tdiv p := by
        rw [Int.tdiv_eq_ediv_of_nonneg (by omega), Int.le_ediv_iff_mul_le hp]
        omega
      have hendPos : 0 ≤ (es - 1).tdiv p := Int.tdiv_nonneg (by omega) hp.le
      rw [if_pos hes]
      simp only [Option.all_some, decide_eq_true_eq, hnow, hend, Option.filter_some]
      rw [if_pos (by simp [hnowPos, hendPos])]
      simp
    · have hneg : ¬ k * p < es := by
        have : 0 ≤ (k : Int) * p := Int.mul_nonneg (by omega) hp.le
        omega
      simp [hes, hneg]

theorem lastEligibleStep_nonneg {spanNow p : Int} {endSpan : Option Int} {k : Int}
    (h : lastEligibleStep spanNow p endSpan = some k) : 0 ≤ k := by
  unfold lastEligibleStep at h
  split_ifs at h
  simpa using (Option.filter_eq_some_iff.mp h).2

/-- The smallest step at or after a cutoff. -/
theorem ceil_le_iff {cs p : Int} (hp : 0 < p) (hcs : 0 < cs) (k : Nat) :
    cs ≤ k * p ↔ (cs + p - 1).tdiv p ≤ k := by
  have hsucc : (cs + p - 1) / p ≤ k ↔ (cs + p - 1) / p < k + 1 := Int.lt_add_one_iff.symm
  rw [Int.tdiv_eq_ediv_of_nonneg (by omega), hsucc, Int.ediv_lt_iff_lt_mul hp, Int.add_mul]
  omega

theorem mapM_eq_some_map {α β : Type} {f : α → Option β} {g : α → β} :
    ∀ l : List α, (∀ a ∈ l, f a = some (g a)) → l.mapM f = some (l.map g)
  | [], _ => rfl
  | a :: l, h => by
    rw [List.mapM_cons, h a List.mem_cons_self,
      mapM_eq_some_map l fun b hb => h b (List.mem_cons_of_mem a hb)]
    rfl

/-! ## Intervals -/

section Interval

variable {calendar : Calendar} {firstDue now p : Int} {endAt : Option Int}

/-- What the plans list: the slots of a walk, and the eligible ones. -/
def unboundedSlots (calendar : Calendar) (schedule : Option Schedule) (firstDue now : Int) :
    List Int × Option Int :=
  walk (nextRunAfter calendar schedule) now (walkFuel firstDue now) firstDue

/-- The span to the end of a schedule. -/
def endSpanOf (firstDue : Int) (endAt : Option Int) : Option Int := endAt.map (· - firstDue)

/-- The sums and products of the closed form stay in range. -/
structure InRange (calendar : Calendar) (firstDue now p : Int) : Prop where
  due : firstDue ≤ now
  period : 0 < p
  span : now - firstDue + p < 2 ^ 63
  first : calendar.minUtc ≤ firstDue
  last : now + p ≤ calendar.maxUtc

theorem InRange.slotAt (h : InRange calendar firstDue now p) {k : Int} (hk : 0 ≤ k)
    (hle : k * p ≤ now - firstDue + p) : slotAt calendar firstDue k p = some (firstDue + k * p) := by
  have hpos : 0 ≤ k * p := Int.mul_nonneg hk h.period.le
  have hspan := h.span
  have hfirst := h.first
  have hlast := h.last
  unfold Scheduler.slotAt asI64 addDate
  rw [if_pos (by omega)]
  dsimp only [Option.bind_some]
  rw [if_pos (by omega)]

/-- The eligible slots of an interval are its first steps. -/
theorem InRange.eligible (h : InRange calendar firstDue now p) :
    ((List.range (((now - firstDue) / p).toNat + 1)).map
        fun k : Nat => firstDue + k * p).filter (beforeEnd endAt) =
      (List.range ((lastEligibleStep (now - firstDue) p (endSpanOf firstDue endAt)).elim 0
        fun k => (k + 1).toNat)).map fun k : Nat => firstDue + k * p := by
  have hspan : 0 ≤ now - firstDue := by have := h.due; omega
  have hspec := lastEligibleStep_spec hspan h.period (endSpanOf firstDue endAt)
  have hnonneg (k : Int) := @lastEligibleStep_nonneg (now - firstDue) p (endSpanOf firstDue endAt) k
  have hfloor (k : Nat) : k < ((now - firstDue) / p).toNat + 1 ↔ k * p ≤ now - firstDue := by
    have hpos : 0 ≤ (now - firstDue) / p := Int.ediv_nonneg hspan h.period.le
    rw [← Int.le_ediv_iff_mul_le h.period]
    omega
  have hend (k : Nat) : beforeEnd endAt (firstDue + k * p) =
      (endSpanOf firstDue endAt).all (k * p < ·) := by
    unfold beforeEnd endSpanOf
    cases endAt with
    | none => rfl
    | some e =>
      have : firstDue + k * p < e ↔ k * p < e - firstDue := by omega
      exact decide_eq_decide.mpr this
  rw [List.filter_map]
  congr 1
  generalize ((now - firstDue) / p).toNat + 1 = n at hfloor ⊢
  generalize lastEligibleStep (now - firstDue) p (endSpanOf firstDue endAt) = last at hspec hnonneg
  -- the eligible steps are those below a bound, and no step of the walk passes it
  have hbound (k : Nat) : (k < n ∧ beforeEnd endAt (firstDue + k * p)) ↔
      k < last.elim 0 fun k => (k + 1).toNat := by
    rw [hfloor, hend, hspec]
    cases last with
    | none => simp
    | some j =>
      have := hnonneg j rfl
      simp only [Option.any_some, decide_eq_true_eq, Option.elim_some]
      omega
  generalize (last.elim 0 fun k => (k + 1).toNat) = m at hbound
  have hm : m ≤ n := by
    by_contra hlt
    have := (hbound n).mpr (by omega)
    omega
  rw [← Nat.min_eq_right hm, ← range_filter_lt]
  refine List.filter_congr fun k hk => ?_
  rw [Bool.eq_iff_iff, decide_eq_true_eq, ← hbound]
  simp [List.mem_range.mp hk]

/-- The slots of an interval, counted. -/
theorem InRange.unboundedSlots {d : Nat} (h : InRange calendar firstDue now d) :
    unboundedSlots calendar (some (.interval d)) firstDue now =
      ((List.range (((now - firstDue) / d).toNat + 1)).map fun k : Nat => firstDue + k * d,
        some (firstDue + ((now - firstDue) / d + 1) * d)) := by
  have hdue := h.due
  have hspan := h.span
  have hfirst := h.first
  have hlast := h.last
  refine walk_steps h.period (by unfold walkFuel; omega) h.due fun r hle hr => ?_
  have hstd : (durationFromStd d).filter (0 < ·) = some (d : Int) := by
    unfold durationFromStd
    rw [if_pos (by omega)]
    simpa using h.period
  show (slotWalkerNew calendar (.interval d)).nextAfter r = _
  simp only [slotWalkerNew, hstd, Option.map_some, Option.getD_some, WalkerKind.nextAfter, addDate]
  rw [if_pos (by omega)]

/-- The eligible slots. -/
def eligibleSlots (calendar : Calendar) (schedule : Option Schedule) (firstDue now : Int)
    (endAt : Option Int) : List Int :=
  (Scheduler.unboundedSlots calendar schedule firstDue now).1.filter (beforeEnd endAt)

/-- **The closed form summarises the walk.** -/
theorem InRange.closedFormSummary {d : Nat} (h : InRange calendar firstDue now d) :
    closedFormSummary calendar firstDue d (now - firstDue) (endSpanOf firstDue endAt) =
      let eligible := eligibleSlots calendar (some (.interval d)) firstDue now endAt
      some ⟨eligible.length, eligible.getLast?,
        (Scheduler.unboundedSlots calendar (some (.interval d)) firstDue now).2⟩ := by
  have hspan : 0 ≤ now - firstDue := by have := h.due; omega
  have hfloor : (now - firstDue) / d * d ≤ now - firstDue := Int.ediv_mul_le _ h.period.ne'
  have hfloorPos : 0 ≤ (now - firstDue) / d := Int.ediv_nonneg hspan h.period.le
  have hnext : Scheduler.slotAt calendar firstDue ((now - firstDue).tdiv d + 1) d =
      some (firstDue + ((now - firstDue) / d + 1) * d) := by
    rw [Int.tdiv_eq_ediv_of_nonneg hspan]
    exact h.slotAt (by omega) (by rw [Int.add_mul]; omega)
  have hspec := lastEligibleStep_spec hspan h.period (endSpanOf firstDue endAt)
  have hnonneg (k : Int) := @lastEligibleStep_nonneg (now - firstDue) d (endSpanOf firstDue endAt) k
  unfold Scheduler.closedFormSummary eligibleSlots
  rw [h.unboundedSlots, if_pos hspan, hnext]
  dsimp only
  rw [h.eligible]
  cases hlast : lastEligibleStep (now - firstDue) d (endSpanOf firstDue endAt) with
  | none => rfl
  | some k =>
    have hk := hnonneg k hlast
    obtain ⟨j, rfl⟩ := Int.eq_ofNat_of_zero_le hk
    have hle : (j : Int) * d ≤ now - firstDue := ((hspec j).mpr (by simp [hlast])).1
    have hslot := h.slotAt hk (by have := h.period; omega)
    have hcount : ((j : Int) + 1).toNat = j + 1 := by omega
    simp only [Option.elim_some, hcount, List.range_succ, List.map_append, List.map_cons,
      List.map_nil, List.getLast?_append, List.getLast?_singleton]
    simp [hslot]

/-- The first step of a window, as a number of steps. -/
theorem InRange.firstWindowStep (h : InRange calendar firstDue now p) {cutoff : Int}
    (hcut : cutoff ≤ now) (hlow : -2 ^ 63 ≤ cutoff - firstDue) :
    ∃ lo : Nat, firstWindowStep firstDue p cutoff = some (lo : Int) ∧
      ∀ k : Nat, cutoff ≤ firstDue + k * p ↔ lo ≤ k := by
  have hrange := h.span
  have hperiod := h.period
  have hfits : asI64 (cutoff - firstDue) = some (cutoff - firstDue) := by
    unfold asI64
    rw [if_pos (by omega)]
  unfold Scheduler.firstWindowStep
  rw [hfits]
  dsimp only
  by_cases hcs : 0 < cutoff - firstDue
  · have hceil := ceil_le_iff hperiod hcs
    have hpos : 0 ≤ (cutoff - firstDue + p - 1).tdiv p := Int.tdiv_nonneg (by omega) (by omega)
    obtain ⟨lo, hlo⟩ := Int.eq_ofNat_of_zero_le hpos
    have hsum : asI64 (cutoff - firstDue + p) = some (cutoff - firstDue + p) := by
      unfold asI64
      rw [if_pos (by omega)]
    refine ⟨lo, ?_, fun k => ?_⟩
    · rw [if_pos hcs, hsum, ← hlo]
      rfl
    · have := hceil k
      rw [hlo] at this
      omega
  · refine ⟨0, if_neg hcs, fun k => ?_⟩
    have : 0 ≤ (k : Int) * p := Int.mul_nonneg (by omega) (by omega)
    omega

/-- **The closed form lists the window of the walk.** -/
theorem InRange.closedFormWindow {d : Nat} (h : InRange calendar firstDue now d) {cutoff : Int}
    (hcut : cutoff ≤ now) (hlow : -2 ^ 63 ≤ cutoff - firstDue) :
    closedFormWindow calendar firstDue d (now - firstDue) (endSpanOf firstDue endAt) cutoff =
      some ((eligibleSlots calendar (some (.interval d)) firstDue now endAt).filter
        (cutoff ≤ ·)) := by
  have hdue := h.due
  have hspan : 0 ≤ now - firstDue := by omega
  have hrange := h.span
  have hperiod := h.period
  have hspec := lastEligibleStep_spec hspan h.period (endSpanOf firstDue endAt)
  have hnonneg (k : Int) := @lastEligibleStep_nonneg (now - firstDue) d (endSpanOf firstDue endAt) k
  unfold Scheduler.closedFormWindow eligibleSlots
  rw [h.unboundedSlots]
  dsimp only
  rw [h.eligible]
  cases hlast : lastEligibleStep (now - firstDue) d (endSpanOf firstDue endAt) with
  | none => rfl
  | some kHi =>
    have hkHi := hnonneg kHi hlast
    obtain ⟨hi, rfl⟩ := Int.eq_ofNat_of_zero_le hkHi
    obtain ⟨lo, hlo, hfirst⟩ := h.firstWindowStep hcut hlow
    have hkept : ((List.range (hi + 1)).map fun k : Nat => firstDue + k * (d : Int)).filter
        (cutoff ≤ ·) = (List.range (hi + 1 - lo)).map fun i : Nat =>
          firstDue + ((lo : Int) + i) * d := by
      rw [List.filter_map, show ((fun x => decide (cutoff ≤ x)) ∘ fun k : Nat => firstDue + k * d) =
        fun k => decide (lo ≤ k) from funext fun k => decide_eq_decide.mpr (hfirst k),
        range_filter_ge, List.map_map]
      refine List.map_congr_left fun i _ => ?_
      simp
    have hcount : ((hi : Int) + 1).toNat = hi + 1 := by omega
    simp only [hlo, Option.elim_some, hcount, hkept, Option.bind_some]
    split_ifs with hempty
    · rw [show hi + 1 - lo = 0 by omega]
      rfl
    · rw [show ((hi : Int) + 1 - lo).toNat = hi + 1 - lo by omega]
      have hslots : ∀ i ∈ List.range (hi + 1 - lo), Scheduler.slotAt calendar firstDue ((lo : Int) + i) d =
          some (firstDue + ((lo : Int) + i) * d) := by
        intro i hi'
        have hle : ((lo + i : Nat) : Int) * d ≤ now - firstDue := by
          refine ((hspec (lo + i)).mpr ?_).1
          rw [hlast]
          simp only [Option.any_some, decide_eq_true_eq]
          have := List.mem_range.mp hi'
          omega
        exact h.slotAt (by omega) (by push_cast at hle; omega)
      exact mapM_eq_some_map _ hslots

end Interval

/-! ## Plans -/

section Plans

variable {calendar : Calendar} {schedule : Option Schedule} {firstDue now : Int}
  {endAt : Option Int} {window : Nat}

def Schedule.isCron : Schedule → Bool
  | .cron _ | .cronInTimezone _ _ => true
  | .interval _ | .manual => false

/-- The spans of a plan, and one period more, fit in 64-bit nanoseconds and in the range of
dates. -/
structure Representable (calendar : Calendar) (schedule : Option Schedule) (firstDue now : Int)
    (endAt : Option Int) (window : Nat) : Prop where
  due : firstDue ≤ now
  windowSpan : (window : Int) < 2 ^ 63
  endSpan : ∀ e, endAt = some e → -2 ^ 63 ≤ e - firstDue ∧ e - firstDue < 2 ^ 63
  period : ∀ d : Nat, schedule = some (.interval d) →
    now - firstDue + d < 2 ^ 63 ∧ now + d ≤ calendar.maxUtc
  dates : calendar.minUtc ≤ firstDue ∧ calendar.minUtc ≤ now - window ∧ now ≤ calendar.maxUtc

/-- Cron slots are the points of a fixed set. -/
def CronSlots (calendar : Calendar) (schedule : Option Schedule) : Prop :=
  ∀ cron, schedule = some cron → cron.isCron →
    ∃ slots, Follows (slotWalkerNew calendar cron).nextAfter slots

theorem Representable.inRange {d : Nat}
    (h : Representable calendar (some (.interval d)) firstDue now endAt window) (hd : 0 < d) :
    InRange calendar firstDue now d where
  due := h.due
  period := by omega
  span := (h.period d rfl).1
  first := h.dates.1
  last := (h.period d rfl).2

/-- An interval that advances takes the closed form. -/
theorem Representable.closedFormInput {d : Nat}
    (h : Representable calendar (some (.interval d)) firstDue now endAt window) (hd : 0 < d) :
    closedFormInput (some (.interval d)) firstDue now endAt =
      some ((d : Int), now - firstDue, endSpanOf firstDue endAt) := by
  have hspan := (h.period d rfl).1
  have hdue := h.due
  have hperiod : (intervalPeriod (some (.interval d))).bind asI64 = some (d : Int) := by
    unfold intervalPeriod durationFromStd asI64
    dsimp only
    rw [if_pos (by omega), Option.filter_some, if_pos (by simpa using hd), Option.bind_some,
      if_pos (by omega)]
  have hnow : asI64 (now - firstDue) = some (now - firstDue) := by
    unfold asI64
    rw [if_pos (by omega)]
  unfold Scheduler.closedFormInput
  rw [hperiod, hnow]
  cases endAt with
  | none => rfl
  | some e =>
    have hend : asI64 (e - firstDue) = some (e - firstDue) := by
      unfold asI64
      rw [if_pos (h.endSpan e rfl)]
    simp [hend, endSpanOf]

/-- Every other schedule is walked. -/
theorem closedFormInput_eq_none (hclosed : ∀ d : Nat, schedule = some (.interval d) → d = 0) :
    closedFormInput schedule firstDue now endAt = none := by
  have hperiod : intervalPeriod schedule = none := by
    cases schedule with
    | none => rfl
    | some schedule =>
      cases schedule with
      | interval d =>
        obtain rfl := hclosed d rfl
        rfl
      | cron expr => rfl
      | cronInTimezone expr tz => rfl
      | manual => rfl
  unfold Scheduler.closedFormInput
  rw [hperiod]
  rfl

theorem walkedSummary_eq : walkedSummary calendar schedule firstDue now endAt =
    let eligible := eligibleSlots calendar schedule firstDue now endAt
    ⟨eligible.length, eligible.getLast?, (unboundedSlots calendar schedule firstDue now).2⟩ := by
  unfold walkedSummary
  rw [summaryLoop_eq]
  simp [eligibleSlots, unboundedSlots]

/-- A walk that jumps to the cutoff keeps the window, where the slots are points of a set. -/
theorem walkedWindow_eq {slots : Set Int} (hslots : Follows (nextRunAfter calendar schedule) slots)
    {cutoff : Int} (hmin : calendar.minUtc ≤ firstDue) (hmax : cutoff ≤ calendar.maxUtc) :
    walkedWindow calendar schedule firstDue now endAt cutoff =
      some ((eligibleSlots calendar schedule firstDue now endAt).filter (cutoff ≤ ·)) := by
  have hfuel (cursor : Int) : now < cursor + walkFuel cursor now := by
    unfold walkFuel
    omega
  have hloop (cursor : Int)
      (h : (walk (nextRunAfter calendar schedule) now (walkFuel cursor now) cursor).1.filter
          (cutoff ≤ ·) = (unboundedSlots calendar schedule firstDue now).1.filter (cutoff ≤ ·)) :
      windowLoop (nextRunAfter calendar schedule) now endAt cutoff (walkFuel cursor now) cursor [] =
        (eligibleSlots calendar schedule firstDue now endAt).filter (cutoff ≤ ·) := by
    have hcomm (l : List Int) : (l.filter (beforeEnd endAt)).filter (cutoff ≤ ·) =
        (l.filter (cutoff ≤ ·)).filter (beforeEnd endAt) := by
      simp only [List.filter_filter, Bool.and_comm]
    rw [windowLoop_eq, List.nil_append, eligibleSlots, hcomm, hcomm, h]
  unfold walkedWindow
  by_cases hjump : firstDue < cutoff
  · have hbefore : addDate calendar cutoff (-1) = some (cutoff - 1) := by
      unfold addDate
      rw [if_pos (by omega)]
      rfl
    rw [if_pos hjump, hbefore]
    show some (windowLoop (nextRunAfter calendar schedule) now endAt cutoff
      (walkFuel ((nextRunAfter calendar schedule (cutoff - 1)).getD firstDue) now)
      ((nextRunAfter calendar schedule (cutoff - 1)).getD firstDue) []) = _
    refine congrArg some (hloop _ ?_)
    cases hnext : nextRunAfter calendar schedule (cutoff - 1) with
    | none => rfl
    | some first =>
      exact (walk_filter_of_follows hslots hjump hnext (hfuel firstDue) (hfuel first)).symm
  · rw [if_neg hjump]
    exact congrArg some (hloop firstDue rfl)

/-- The slots of any schedule but an interval that advances are the points of a set. -/
theorem follows_nextRunAfter (hcron : CronSlots calendar schedule)
    (hclosed : ∀ d : Nat, schedule = some (.interval d) → d = 0) :
    ∃ slots, Follows (nextRunAfter calendar schedule) slots := by
  cases schedule with
  | none => exact ⟨∅, follows_empty⟩
  | some schedule =>
    cases schedule with
    | cron expr => exact hcron _ rfl rfl
    | cronInTimezone expr tz => exact hcron _ rfl rfl
    | manual => exact ⟨∅, follows_empty⟩
    | interval d =>
      obtain rfl := hclosed d rfl
      exact ⟨∅, follows_empty⟩

/-- The summary, by either path. -/
theorem Representable.eligibleSlotSummary
    (h : Representable calendar schedule firstDue now endAt window) :
    eligibleSlotSummary calendar schedule firstDue now endAt =
      some (walkedSummary calendar schedule firstDue now endAt) := by
  by_cases hinterval : ∃ d, schedule = some (.interval d) ∧ 0 < d
  · obtain ⟨d, rfl, hd⟩ := hinterval
    unfold Scheduler.eligibleSlotSummary
    rw [h.closedFormInput hd, walkedSummary_eq]
    exact (h.inRange hd).closedFormSummary
  · unfold Scheduler.eligibleSlotSummary
    rw [closedFormInput_eq_none fun d hd => ?_]
    by_contra hpos
    exact hinterval ⟨d, hd, Nat.pos_of_ne_zero hpos⟩

/-- The slots of a window, by either path. -/
theorem Representable.windowEligibleSlots
    (h : Representable calendar schedule firstDue now endAt window)
    (hcron : CronSlots calendar schedule) :
    windowEligibleSlots calendar schedule firstDue now endAt (now - window) =
      some ((eligibleSlots calendar schedule firstDue now endAt).filter (now - window ≤ ·)) := by
  have hdue := h.due
  have hspan := h.windowSpan
  by_cases hinterval : ∃ d, schedule = some (.interval d) ∧ 0 < d
  · obtain ⟨d, rfl, hd⟩ := hinterval
    unfold Scheduler.windowEligibleSlots
    rw [h.closedFormInput hd]
    exact (h.inRange hd).closedFormWindow (by omega) (by omega)
  · have hzero (d : Nat) (hd : schedule = some (.interval d)) : d = 0 := by
      by_contra hpos
      exact hinterval ⟨d, hd, Nat.pos_of_ne_zero hpos⟩
    unfold Scheduler.windowEligibleSlots
    rw [closedFormInput_eq_none hzero]
    obtain ⟨slots, hslots⟩ := follows_nextRunAfter hcron hzero
    have hdates := h.dates
    exact walkedWindow_eq hslots hdates.1 (by omega)

theorem length_sub_getLast (l : List Int) :
    l.length - l.getLast?.toList.length = l.dropLast.length := by
  cases l with
  | nil => rfl
  | cons a l => simp [List.getLast?_cons]

theorem length_sub_filter (l : List Int) (cutoff : Int) :
    l.length - (l.filter (cutoff ≤ ·)).length = (l.filter (· < cutoff)).length := by
  have hsplit : l.length = (l.filter (cutoff ≤ ·)).length + (l.filter (· < cutoff)).length := by
    induction l with
    | nil => rfl
    | cons slot l ih =>
      by_cases h : cutoff ≤ slot
      · simp [h, not_lt.mpr h, ih]
        omega
      · simp [h, not_le.mp h, ih]
        omega
  omega

theorem Representable.mostRecentPlan
    (h : Representable calendar schedule firstDue now endAt window) :
    catchupRunPlan calendar schedule firstDue now .mostRecent endAt =
      let eligible := eligibleSlots calendar schedule firstDue now endAt
      some ⟨eligible.getLast?.toList, (unboundedSlots calendar schedule firstDue now).2,
        eligible.dropLast.length⟩ := by
  unfold catchupRunPlan
  dsimp only
  rw [h.eligibleSlotSummary, walkedSummary_eq, ← length_sub_getLast]
  rfl

theorem Representable.windowPlan (h : Representable calendar schedule firstDue now endAt window)
    (hcron : CronSlots calendar schedule) :
    catchupRunPlan calendar schedule firstDue now (.window window) endAt =
      let eligible := eligibleSlots calendar schedule firstDue now endAt
      some ⟨eligible.filter (now - window ≤ ·), (unboundedSlots calendar schedule firstDue now).2,
        (eligible.filter (· < now - window)).length⟩ := by
  have hspan := h.windowSpan
  have hdates := h.dates
  have hcutoff : addDate calendar now (-(durationFromStd window).getD 0) = some (now - window) := by
    have hstd : durationFromStd window = some (window : Int) := by
      unfold durationFromStd
      rw [if_pos (by omega)]
    rw [hstd]
    unfold addDate
    dsimp only [Option.getD_some]
    rw [if_pos (by omega)]
    rfl
  unfold catchupRunPlan
  dsimp only
  rw [h.eligibleSlotSummary, walkedSummary_eq, hcutoff, ← length_sub_filter]
  dsimp only [Option.bind_some, bind]
  rw [h.windowEligibleSlots hcron]
  rfl

/-- **The bounded policies choose from what the unbounded policy lists.** -/
theorem bounded_plans_agree (calendar : Calendar) (schedule : Option Schedule) (firstDue now : Int)
    (endAt : Option Int) (window : Nat) (hcron : CronSlots calendar schedule)
    (h : Representable calendar schedule firstDue now endAt window) :
    ∃ slots next,
      catchupRunPlan calendar schedule firstDue now .unbounded endAt = some ⟨slots, next, 0⟩ ∧
      let eligible := slots.filter (beforeEnd endAt)
      catchupRunPlan calendar schedule firstDue now .mostRecent endAt =
        some ⟨eligible.getLast?.toList, next, eligible.dropLast.length⟩ ∧
      catchupRunPlan calendar schedule firstDue now (.window window) endAt =
        some ⟨eligible.filter (now - window ≤ ·), next,
          (eligible.filter (· < now - window)).length⟩ ∧
      ∀ d, schedule = some (.interval d) → 0 < d →
        closedFormSummary calendar firstDue d (now - firstDue) (endSpanOf firstDue endAt) =
          some (walkedSummary calendar schedule firstDue now endAt) ∧
        closedFormWindow calendar firstDue d (now - firstDue) (endSpanOf firstDue endAt)
            (now - window) = some (eligible.filter (now - window ≤ ·)) ∧
        (now - window ≤ firstDue →
          closedFormWindow calendar firstDue d (now - firstDue) (endSpanOf firstDue endAt)
            (now - window) =
              walkedWindow calendar schedule firstDue now endAt (now - window)) := by
  have hdue := h.due
  have hspan := h.windowSpan
  have hdates := h.dates
  refine ⟨(unboundedSlots calendar schedule firstDue now).1,
    (unboundedSlots calendar schedule firstDue now).2, ?_, ?_, ?_, ?_⟩
  · unfold catchupRunPlan dueRunPlan
    dsimp only
    rw [if_neg (by simp), dueLoop_eq]
    rfl
  · exact h.mostRecentPlan
  · exact h.windowPlan hcron
  · rintro d rfl hd
    have hwindow := @InRange.closedFormWindow calendar firstDue now endAt d (h.inRange hd)
      (now - window) (by omega) (by omega)
    refine ⟨?_, hwindow, fun hcut => ?_⟩
    · rw [walkedSummary_eq]
      exact (h.inRange hd).closedFormSummary
    · rw [hwindow]
      unfold walkedWindow
      rw [if_neg (not_lt.mpr hcut)]
      show _ = some _
      rw [windowLoop_eq]
      rfl

/-- Cron schedules every ten seconds, in UTC. -/
def everyTenSeconds : Calendar where
  Cron := Unit
  Tz := Empty
  parseCron expr := if expr = "*/10 * * * * *" then some () else none
  parseTz _ := none
  findNextOccurrence _ _ reference inclusive :=
    some (if inclusive && reference % 10000000000 = 0 then reference
      else (reference / 10000000000 + 1) * 10000000000)
  minUtc := -8334601228800000000000
  maxUtc := 8210266876799999999999

theorem everyTenSeconds_follows : CronSlots everyTenSeconds (some (.cron "*/10 * * * * *")) := by
  rintro cron ⟨⟩ -
  refine ⟨{t | t % 10000000000 = 0}, fun r s => ?_⟩
  have hnext : (slotWalkerNew everyTenSeconds (.cron "*/10 * * * * *")).nextAfter r =
      some ((r / 10000000000 + 1) * 10000000000) := rfl
  rw [hnext]
  constructor
  · rintro ⟨⟩
    refine ⟨⟨?_, by omega⟩, fun t ht => ?_⟩
    · show (r / 10000000000 + 1) * 10000000000 % 10000000000 = 0
      omega
    · obtain ⟨hslot, hlt⟩ := ht
      have : t % 10000000000 = 0 := hslot
      omega
  · rintro ⟨⟨hslot, hlt⟩, hleast⟩
    have hs : s % 10000000000 = 0 := hslot
    have hle := hleast (show (r / 10000000000 + 1) * 10000000000 ∈
      {t : Int | t ∈ {t : Int | t % 10000000000 = 0} ∧ r < t} from
        ⟨show _ % _ = (0 : Int) by omega, by omega⟩)
    congr 1
    omega

theorem bounded_plans_agree_every_ten_seconds :
    catchupRunPlan everyTenSeconds (some (.cron "*/10 * * * * *")) 0 35000000000
        (.window 20000000000) none =
      some ⟨[20000000000, 30000000000], some 40000000000, 2⟩ := by
  obtain ⟨slots, next, hall, -, hwindow, -⟩ := bounded_plans_agree everyTenSeconds
    (some (.cron "*/10 * * * * *")) 0 35000000000 none 20000000000 everyTenSeconds_follows
    ⟨by decide, by decide, by simp, by simp, by decide⟩
  have hslots : catchupRunPlan everyTenSeconds (some (.cron "*/10 * * * * *")) 0 35000000000
      .unbounded none = some ⟨[0, 10000000000, 20000000000, 30000000000], some 40000000000, 0⟩ := by
    decide +kernel
  rw [hslots] at hall
  cases hall
  exact hwindow

/-- The jump of the walked window is for cron slots. From the cutoff, the steps of an interval
miss its slots. -/
theorem walked_window_of_interval_differs :
    Representable everyTenSeconds (some (.interval 10000000000)) 0 35000000000 none 20000000000 ∧
    closedFormWindow everyTenSeconds 0 10000000000 35000000000 none 15000000000 =
      some [20000000000, 30000000000] ∧
    walkedWindow everyTenSeconds (some (.interval 10000000000)) 0 35000000000 none 15000000000 =
      some [24999999999, 34999999999] := by
  refine ⟨⟨by decide, by decide, by simp, ?_, by decide⟩, by decide +kernel, by decide +kernel⟩
  rintro d ⟨⟩
  decide

end Plans

end Harvest.Scheduler
