import Mathlib.Order.Interval.Finset.Basic
import Mathlib.Data.Int.Interval
import Mathlib.Tactic.NormNum
import Mathlib.Data.Int.ConditionallyCompleteOrder

/-!
# Business-day arithmetic

Model of `is_business_day` and `add_business_days_bounded` in `calendar.rs`. A date is the number of
its day from 1970-01-01, within the range of `NaiveDate`; the scan looks at one date a turn.

Proved here:
* `scanAll_spec`: what a scan that succeeds has counted and stepped over.
* `scanAll_add`: a scan for more business days goes on where the scan for fewer ends.
* `business_days_count_and_compose`: the deadline of `n` business days is exact, and resolving in
  two steps is resolving at once.
-/

namespace Harvest.Calendar

/-! ## Dates -/

/-- `NaiveDate::MIN`: -262143-01-01. -/
def minDay : Int := -96465292

/-- `NaiveDate::MAX`: 262142-12-31. -/
def maxDay : Int := 95026236

/-- `NaiveDate`: a day from 1970-01-01 that `chrono` can represent. -/
abbrev NaiveDate := {day : Int // minDay ≤ day ∧ day ≤ maxDay}

/-- `NaiveTime`: the second of the day, and nanoseconds that a leap second may carry over. -/
structure NaiveTime where
  secs : Fin 86400
  nanos : Fin 2000000000
deriving DecidableEq

structure UtcDateTime where
  date : NaiveDate
  time : NaiveTime
deriving DecidableEq

namespace NaiveDate

/-- `checked_add_days` of one day. -/
def next (date : NaiveDate) : Option NaiveDate :=
  if h : date.val + 1 ≤ maxDay then some ⟨date.val + 1, by have := date.property; omega⟩ else none

/-- 1970-01-01 is a Thursday, and weekdays are numbered from Monday. -/
def weekday (date : NaiveDate) : Int := (date.val + 3) % 7

/-- The days up to `NaiveDate::MAX`. -/
def daysLeft (date : NaiveDate) : Nat := (maxDay - date.val).toNat

theorem next_eq_some {date later : NaiveDate} (h : date.next = some later) :
    later.val = date.val + 1 ∧ date.daysLeft = later.daysLeft + 1 := by
  unfold next at h
  split_ifs at h with hle
  obtain rfl := Option.some.inj h
  refine ⟨rfl, ?_⟩
  unfold daysLeft
  dsimp only
  omega

end NaiveDate

/-- Saturday or Sunday. -/
def isWeekend (date : NaiveDate) : Bool := 5 ≤ date.weekday

def isBusinessDay (date : NaiveDate) (holidays : Finset NaiveDate) : Bool :=
  ! isWeekend date && ! decide (date ∈ holidays)

/-! ## The scan -/

/-- `MAX_BUSINESS_DAYS` -/
def maxBusinessDays : Nat := 3650

/-- `MAX_NON_BUSINESS_RUN_DAYS` -/
def maxNonBusinessRunDays : Nat := 30

structure BusinessDayResolution where
  deadline : UtcDateTime
  skipped : List NaiveDate
deriving DecidableEq

inductive BusinessDayRejection
  | scanExhausted (scannedDays : Nat)
  | coverageExhausted (coverageEnd : NaiveDate)
  | dateOverflow
  | tooManyBusinessDays (requested max : Nat)
deriving DecidableEq

/-- The last date that the calendar knows, when the date is later. -/
def uncovered (coverageEnd : Option NaiveDate) (date : NaiveDate) : Option NaiveDate :=
  coverageEnd.filter fun last => last.val < date.val

/-- The variables of the loop. -/
structure Scan where
  cursor : NaiveDate
  remaining : Nat
  run : Nat
  skipped : List NaiveDate

/-- What one turn of the loop does: it ends the scan, or goes on. -/
inductive Turn
  | done (result : Except BusinessDayRejection (NaiveDate × List NaiveDate))
  | on (scan : Scan)

namespace Scan

variable (holidays : Finset NaiveDate) (coverageEnd : Option NaiveDate)

/-- The end of a turn. -/
def advance (s : Scan) : Turn :=
  match s.cursor.next with
  | none => .done (.error .dateOverflow)
  | some cursor => .on { s with cursor := cursor }

def turn (s : Scan) : Turn :=
  match uncovered coverageEnd s.cursor with
  | some last => .done (.error (.coverageExhausted last))
  | none =>
    if isBusinessDay s.cursor holidays then
      match s.remaining with
      | 0 => .done (.ok (s.cursor, s.skipped))
      | remaining + 1 => { s with remaining := remaining, run := 0 }.advance
    else
      let s := { s with skipped := s.skipped ++ [s.cursor], run := s.run + 1 }
      if maxNonBusinessRunDays < s.run then .done (.error (.scanExhausted s.run))
      else s.advance

/-- The loop. A turn that goes on moves the cursor by a day, so the days that are left bound the
turns. -/
def loop : Nat → Scan → Except BusinessDayRejection (NaiveDate × List NaiveDate)
  | 0, _ => .error .dateOverflow
  | fuel + 1, s =>
    match s.turn holidays coverageEnd with
    | .done result => result
    | .on s => loop fuel s

def scanAll (s : Scan) : Except BusinessDayRejection (NaiveDate × List NaiveDate) :=
  s.loop holidays coverageEnd (s.cursor.daysLeft + 1)

end Scan

def addBusinessDaysBounded (anchor : UtcDateTime) (n : Nat) (holidays : Finset NaiveDate)
    (coverageEnd : Option NaiveDate) : Except BusinessDayRejection BusinessDayResolution :=
  if maxBusinessDays < n then .error (.tooManyBusinessDays n maxBusinessDays)
  else
    (Scan.scanAll holidays coverageEnd ⟨anchor.date, n, 0, []⟩).map fun (cursor, skipped) =>
      ⟨⟨cursor, anchor.time⟩, skipped⟩

/-! ## One turn -/

namespace Scan

variable {holidays : Finset NaiveDate} {coverageEnd : Option NaiveDate} {s s' : Scan}

/-- What a turn that goes on has done with the date at the cursor. -/
inductive Goes (holidays : Finset NaiveDate) (s : Scan) (cursor : NaiveDate) : Scan → Prop
  | business {remaining : Nat} (hday : isBusinessDay s.cursor holidays)
      (hremaining : s.remaining = remaining + 1) :
      Goes holidays s cursor ⟨cursor, remaining, 0, s.skipped⟩
  | skip (hday : ¬ isBusinessDay s.cursor holidays) :
      Goes holidays s cursor ⟨cursor, s.remaining, s.run + 1, s.skipped ++ [s.cursor]⟩

/-- Every way in which a turn can go. -/
theorem turn_cases (s : Scan) :
    (∃ rejection, s.turn holidays coverageEnd = .done (.error rejection)) ∨
      (s.turn holidays coverageEnd = .done (.ok (s.cursor, s.skipped)) ∧
        isBusinessDay s.cursor holidays ∧ s.remaining = 0) ∨
      ∃ cursor later, s.cursor.next = some cursor ∧ s.turn holidays coverageEnd = .on later ∧
        Goes holidays s cursor later := by
  unfold turn
  cases uncovered coverageEnd s.cursor with
  | some last => exact .inl ⟨_, rfl⟩
  | none =>
    dsimp only
    split_ifs with hday hrun
    · cases hremaining : s.remaining with
      | zero => exact .inr (.inl ⟨rfl, hday, rfl⟩)
      | succ remaining =>
        cases hnext : s.cursor.next with
        | none => exact .inl ⟨.dateOverflow, by simp [advance, hnext]⟩
        | some cursor =>
          exact .inr (.inr ⟨cursor, _, rfl, by simp [advance, hnext], .business hday hremaining⟩)
    · exact .inl ⟨_, rfl⟩
    · cases hnext : s.cursor.next with
      | none => exact .inl ⟨.dateOverflow, by simp [advance, hnext]⟩
      | some cursor => exact .inr (.inr ⟨cursor, _, rfl, by simp [advance, hnext], .skip hday⟩)

theorem daysLeft_of_turn (h : s.turn holidays coverageEnd = .on s') :
    s.cursor.daysLeft = s'.cursor.daysLeft + 1 := by
  rcases @turn_cases holidays coverageEnd s with ⟨_, herror⟩ | ⟨hdone, -⟩ |
    ⟨cursor, later, hnext, hon, hgoes⟩
  · rw [herror] at h
    cases h
  · rw [hdone] at h
    cases h
  · rw [hon] at h
    obtain rfl := Turn.on.inj h
    obtain ⟨-, hleft⟩ := NaiveDate.next_eq_some hnext
    cases hgoes with
    | business => exact hleft
    | skip => exact hleft

/-- The loop has turns enough. -/
theorem scanAll_eq (s : Scan) : s.scanAll holidays coverageEnd =
    match s.turn holidays coverageEnd with
    | .done result => result
    | .on later => later.scanAll holidays coverageEnd := by
  rw [scanAll, loop]
  cases hturn : s.turn holidays coverageEnd with
  | done result => rfl
  | on later =>
    dsimp only
    rw [scanAll, daysLeft_of_turn hturn]

/-- Induction over the turns of a scan. -/
theorem turns_induction {P : Scan → Prop} (holidays : Finset NaiveDate)
    (coverageEnd : Option NaiveDate)
    (h : ∀ s, (∀ later, s.turn holidays coverageEnd = .on later → P later) → P s) (s : Scan) :
    P s := by
  obtain ⟨n, hn⟩ : ∃ n, s.cursor.daysLeft = n := ⟨_, rfl⟩
  induction n generalizing s with
  | zero =>
    refine h s fun later hturn => ?_
    have hleft := daysLeft_of_turn hturn
    omega
  | succ n ih =>
    refine h s fun later hturn => ih later ?_
    have hleft := daysLeft_of_turn hturn
    omega

/-! ## Whole scans -/

/-- The dates of a day and of the days after it. -/
theorem Ico_eq_insert {date later last : NaiveDate} (hnext : date.next = some later)
    (hlt : later ≤ last) : Finset.Ico date last = insert date (Finset.Ico later last) := by
  obtain ⟨hval, -⟩ := NaiveDate.next_eq_some hnext
  ext x
  rw [Finset.mem_insert, Finset.mem_Ico, Finset.mem_Ico, Subtype.ext_iff]
  simp only [← Subtype.coe_le_coe, ← Subtype.coe_lt_coe] at hlt ⊢
  omega

theorem notMem_Ico_next {date later last : NaiveDate} (hnext : date.next = some later) :
    date ∉ Finset.Ico later last := by
  obtain ⟨hval, -⟩ := NaiveDate.next_eq_some hnext
  rw [Finset.mem_Ico]
  simp only [← Subtype.coe_le_coe]
  omega

/-- What a scan from the date to `last` has counted and stepped over. -/
structure Covers (holidays : Finset NaiveDate) (first last : NaiveDate) (counted : Nat)
    (skipped : List NaiveDate) : Prop where
  le : first ≤ last
  business : isBusinessDay last holidays
  count : ((Finset.Ico first last).filter (isBusinessDay · holidays)).card = counted
  sorted : skipped.Pairwise (· < ·)
  mem : ∀ date, date ∈ skipped ↔ first ≤ date ∧ date ≤ last ∧ ¬ isBusinessDay date holidays

theorem Covers.here {date : NaiveDate} (hday : isBusinessDay date holidays) :
    Covers holidays date date 0 [] := by
  refine ⟨le_rfl, hday, by rw [Finset.Ico_self]; rfl, .nil, fun x => ⟨nofun, ?_⟩⟩
  rintro ⟨hle, hge, hnot⟩
  exact absurd (le_antisymm hge hle ▸ hday) hnot

/-- One more business day in front. -/
theorem Covers.count_day {date later last : NaiveDate} {counted : Nat} {skipped : List NaiveDate}
    (hnext : date.next = some later) (hday : isBusinessDay date holidays)
    (h : Covers holidays later last counted skipped) :
    Covers holidays date last (counted + 1) skipped := by
  obtain ⟨hval, -⟩ := NaiveDate.next_eq_some hnext
  have hle := h.le
  simp only [← Subtype.coe_le_coe] at hle
  refine ⟨Subtype.coe_le_coe.mp (by omega), h.business, ?_, h.sorted, fun x => ?_⟩
  · rw [Ico_eq_insert hnext h.le, Finset.filter_insert, if_pos hday, Finset.card_insert_of_notMem
      fun hmem => notMem_Ico_next hnext (Finset.mem_filter.mp hmem).1, h.count]
  · rw [h.mem x]
    simp only [← Subtype.coe_le_coe]
    constructor
    · rintro ⟨hfirst, hlast, hnot⟩
      exact ⟨by omega, hlast, hnot⟩
    · rintro ⟨hfirst, hlast, hnot⟩
      refine ⟨?_, hlast, hnot⟩
      by_contra hbefore
      have hsame : x = date := Subtype.ext (by omega)
      exact hnot (hsame ▸ hday)

/-- One more date in front that is no business day. -/
theorem Covers.skip_day {date later last : NaiveDate} {counted : Nat} {skipped : List NaiveDate}
    (hnext : date.next = some later) (hday : ¬ isBusinessDay date holidays)
    (h : Covers holidays later last counted skipped) :
    Covers holidays date last counted (date :: skipped) := by
  obtain ⟨hval, -⟩ := NaiveDate.next_eq_some hnext
  have hle := h.le
  simp only [← Subtype.coe_le_coe] at hle
  refine ⟨Subtype.coe_le_coe.mp (by omega), h.business, ?_, ?_, fun x => ?_⟩
  · rw [Ico_eq_insert hnext h.le, Finset.filter_insert, if_neg hday, h.count]
  · refine .cons (fun x hx => ?_) h.sorted
    have hfirst := ((h.mem x).mp hx).1
    simp only [← Subtype.coe_le_coe] at hfirst
    exact Subtype.coe_lt_coe.mp (by omega)
  · rw [List.mem_cons, h.mem x]
    simp only [← Subtype.coe_le_coe]
    constructor
    · rintro (rfl | ⟨hfirst, hlast, hnot⟩)
      · exact ⟨le_rfl, by omega, hday⟩
      · exact ⟨by omega, hlast, hnot⟩
    · rintro ⟨hfirst, hlast, hnot⟩
      by_cases hsame : x.val = date.val
      · exact .inl (Subtype.ext hsame)
      · exact .inr ⟨by omega, hlast, hnot⟩

/-- **What a scan finds.** -/
theorem scanAll_spec {s : Scan} {last : NaiveDate} {skipped : List NaiveDate}
    (h : s.scanAll holidays coverageEnd = .ok (last, skipped)) :
    ∃ more, skipped = s.skipped ++ more ∧ Covers holidays s.cursor last s.remaining more := by
  induction s using turns_induction holidays coverageEnd with
  | h s ih =>
  rw [scanAll_eq] at h
  rcases @turn_cases holidays coverageEnd s with ⟨rejection, hturn⟩ | ⟨hturn, hday, hzero⟩ |
    ⟨cursor, later, hnext, hturn, hgoes⟩
  · rw [hturn] at h
    cases h
  · rw [hturn] at h
    obtain ⟨rfl, rfl⟩ := Prod.mk.inj (Except.ok.inj h)
    rw [hzero]
    exact ⟨[], (List.append_nil _).symm, .here hday⟩
  · rw [hturn] at h
    obtain ⟨more, hskipped, hcovers⟩ := ih later hturn h
    cases hgoes with
    | business hday hremaining =>
      rw [hremaining]
      exact ⟨more, hskipped, hcovers.count_day hnext hday⟩
    | skip hday =>
      refine ⟨s.cursor :: more, ?_, hcovers.skip_day hnext hday⟩
      rw [hskipped, List.append_assoc]
      rfl

/-! ## Two scans, one after the other -/

/-- The scan with more business days to go. -/
def more (s : Scan) (extra : Nat) : Scan := { s with remaining := s.remaining + extra }

/-- The scan with dates that were stepped over before it. -/
def after (s : Scan) (front : List NaiveDate) : Scan := { s with skipped := front ++ s.skipped }

/-- A turn that does not end the scan with success does the same with more business days to go. -/
theorem turn_more (extra : Nat) (hnot : ∀ found, s.turn holidays coverageEnd ≠ .done (.ok found)) :
    (s.more extra).turn holidays coverageEnd =
      match s.turn holidays coverageEnd with
      | .done result => .done result
      | .on later => .on (later.more extra) := by
  unfold turn at hnot ⊢
  simp only [more] at hnot ⊢
  cases hcovered : uncovered coverageEnd s.cursor with
  | some last => rfl
  | none =>
    rw [hcovered] at hnot
    by_cases hday : isBusinessDay s.cursor holidays
    · simp only [hday, if_true] at hnot ⊢
      cases hremaining : s.remaining with
      | zero =>
        rw [hremaining] at hnot
        exact absurd rfl (hnot _)
      | succ remaining =>
        rw [Nat.add_right_comm]
        simp only [advance]
        cases s.cursor.next with
        | none => rfl
        | some cursor => rfl
    · simp only [hday, Bool.false_eq_true, if_false]
      by_cases hrun : maxNonBusinessRunDays < s.run + 1
      · simp only [hrun, if_true]
      · simp only [hrun, if_false, advance]
        cases s.cursor.next with
        | none => rfl
        | some cursor => rfl

/-- On a business day the run before it does not matter. -/
theorem turn_run (hday : isBusinessDay s.cursor holidays) (run : Nat) :
    { s with run := run }.turn holidays coverageEnd = s.turn holidays coverageEnd := by
  unfold turn
  dsimp only
  rw [if_pos hday, if_pos hday]

/-- **A scan for more business days** goes on where the scan for fewer ends. -/
theorem scanAll_add {extra : Nat} {last : NaiveDate} {skipped : List NaiveDate}
    (h : s.scanAll holidays coverageEnd = .ok (last, skipped)) :
    (s.more extra).scanAll holidays coverageEnd =
      scanAll holidays coverageEnd ⟨last, extra, 0, skipped⟩ := by
  induction s using turns_induction holidays coverageEnd with
  | h s ih =>
  rw [scanAll_eq] at h
  rcases @turn_cases holidays coverageEnd s with ⟨rejection, hturn⟩ | ⟨hturn, hday, hzero⟩ |
    ⟨cursor, later, hnext, hturn, hgoes⟩
  · rw [hturn] at h
    cases h
  · rw [hturn] at h
    obtain ⟨rfl, rfl⟩ := Prod.mk.inj (Except.ok.inj h)
    have hsame : s.more extra = { (⟨s.cursor, extra, 0, s.skipped⟩ : Scan) with run := s.run } := by
      rw [more, hzero, Nat.zero_add]
    rw [hsame, scanAll_eq, scanAll_eq ⟨s.cursor, extra, 0, s.skipped⟩,
      @turn_run holidays coverageEnd ⟨s.cursor, extra, 0, s.skipped⟩ hday s.run]
  · rw [hturn] at h
    rw [scanAll_eq, turn_more extra fun found => by rw [hturn]; exact nofun, hturn]
    exact ih later hturn h

/-- A scan for fewer business days ends where the scan for more does. -/
theorem scanAll_fewer {extra : Nat} {result : NaiveDate × List NaiveDate}
    (h : (s.more extra).scanAll holidays coverageEnd = .ok result) :
    ∃ earlier, s.scanAll holidays coverageEnd = .ok earlier := by
  induction s using turns_induction holidays coverageEnd with
  | h s ih =>
  rw [scanAll_eq s]
  rcases @turn_cases holidays coverageEnd s with ⟨rejection, hturn⟩ | ⟨hturn, -⟩ |
    ⟨cursor, later, hnext, hturn, hgoes⟩
  · rw [scanAll_eq, turn_more extra fun found => by rw [hturn]; exact nofun, hturn] at h
    cases h
  · rw [hturn]
    exact ⟨_, rfl⟩
  · rw [scanAll_eq, turn_more extra fun found => by rw [hturn]; exact nofun, hturn] at h
    rw [hturn]
    exact ih later hturn h

theorem turn_after (front : List NaiveDate) :
    (s.after front).turn holidays coverageEnd =
      match s.turn holidays coverageEnd with
      | .done result => .done (result.map fun (last, skipped) => (last, front ++ skipped))
      | .on later => .on (later.after front) := by
  unfold turn
  simp only [after]
  cases hcovered : uncovered coverageEnd s.cursor with
  | some last => rfl
  | none =>
    by_cases hday : isBusinessDay s.cursor holidays
    · simp only [hday, if_true]
      cases s.remaining with
      | zero => rfl
      | succ remaining =>
        simp only [advance]
        cases s.cursor.next with
        | none => rfl
        | some cursor => rfl
    · simp only [hday, Bool.false_eq_true, if_false]
      by_cases hrun : maxNonBusinessRunDays < s.run + 1
      · simp only [hrun, if_true]
        rfl
      · simp only [hrun, if_false, advance, List.append_assoc]
        cases s.cursor.next with
        | none => rfl
        | some cursor => rfl

theorem scanAll_after (front : List NaiveDate) (s : Scan) :
    (s.after front).scanAll holidays coverageEnd =
      (s.scanAll holidays coverageEnd).map fun (last, skipped) => (last, front ++ skipped) := by
  induction s using turns_induction holidays coverageEnd with
  | h s ih =>
  rw [scanAll_eq, scanAll_eq s, turn_after]
  cases hturn : s.turn holidays coverageEnd with
  | done result => rfl
  | on later => exact ih later hturn

end Scan

/-! ## Resolving a deadline -/

section Resolve

variable {anchor : UtcDateTime} {n : Nat} {holidays : Finset NaiveDate}
  {coverageEnd : Option NaiveDate} {r : BusinessDayResolution}

theorem resolve_eq_ok :
    addBusinessDaysBounded anchor n holidays coverageEnd = .ok r ↔
      n ≤ maxBusinessDays ∧ r.deadline.time = anchor.time ∧
        Scan.scanAll holidays coverageEnd ⟨anchor.date, n, 0, []⟩ =
          .ok (r.deadline.date, r.skipped) := by
  unfold addBusinessDaysBounded
  split_ifs with hmax
  · exact ⟨nofun, fun h => by omega⟩
  · cases Scan.scanAll holidays coverageEnd ⟨anchor.date, n, 0, []⟩ with
    | error rejection => exact ⟨nofun, fun h => by cases h.2.2⟩
    | ok found =>
      obtain ⟨cursor, skipped⟩ := found
      constructor
      · intro h
        obtain rfl := Except.ok.inj h
        exact ⟨by omega, rfl, rfl⟩
      · rintro ⟨-, htime, hfound⟩
        obtain ⟨rfl, rfl⟩ := Prod.mk.inj (Except.ok.inj hfound)
        rw [← htime]
        rfl

theorem resolve_covers (h : addBusinessDaysBounded anchor n holidays coverageEnd = .ok r) :
    Scan.Covers holidays anchor.date r.deadline.date n r.skipped := by
  obtain ⟨-, -, hscan⟩ := resolve_eq_ok.mp h
  obtain ⟨more, hskipped, hcovers⟩ := Scan.scanAll_spec hscan
  rw [List.nil_append] at hskipped
  rw [hskipped]
  exact hcovers

/-- Resolving in two steps is resolving at once. -/
theorem resolve_add {a b : Nat} (h : addBusinessDaysBounded anchor a holidays coverageEnd = .ok r)
    (hmax : a + b ≤ maxBusinessDays) :
    addBusinessDaysBounded anchor (a + b) holidays coverageEnd =
      (addBusinessDaysBounded r.deadline b holidays coverageEnd).map fun later =>
        ⟨later.deadline, r.skipped ++ later.skipped⟩ := by
  obtain ⟨-, htime, hscan⟩ := resolve_eq_ok.mp h
  have hadd := @Scan.scanAll_add holidays coverageEnd ⟨anchor.date, a, 0, []⟩ b _ _ hscan
  have hafter := @Scan.scanAll_after holidays coverageEnd r.skipped ⟨r.deadline.date, b, 0, []⟩
  simp only [Scan.more] at hadd
  simp only [Scan.after, List.append_nil] at hafter
  unfold addBusinessDaysBounded
  rw [if_neg (by omega), if_neg (by omega), hadd, hafter, htime]
  cases Scan.scanAll holidays coverageEnd ⟨r.deadline.date, b, 0, []⟩ with
  | error rejection => rfl
  | ok found => rfl

/-- A deadline of fewer business days is earlier. -/
theorem resolve_fewer {m : Nat} (h : addBusinessDaysBounded anchor n holidays coverageEnd = .ok r)
    (hlt : m < n) :
    ∃ earlier, addBusinessDaysBounded anchor m holidays coverageEnd = .ok earlier ∧
      earlier.deadline.date < r.deadline.date ∧ earlier.deadline.time = r.deadline.time ∧
      earlier.skipped <+: r.skipped := by
  obtain ⟨extra, rfl⟩ : ∃ extra, n = m + (extra + 1) := ⟨n - m - 1, by omega⟩
  obtain ⟨hmax, htime, hscan⟩ := resolve_eq_ok.mp h
  obtain ⟨found, hfound⟩ := @Scan.scanAll_fewer holidays coverageEnd ⟨anchor.date, m, 0, []⟩
    (extra + 1) _ hscan
  have hearlier : addBusinessDaysBounded anchor m holidays coverageEnd =
      .ok ⟨⟨found.1, anchor.time⟩, found.2⟩ :=
    resolve_eq_ok.mpr ⟨by omega, rfl, hfound⟩
  rw [resolve_add hearlier hmax] at h
  cases hrest : addBusinessDaysBounded ⟨found.1, anchor.time⟩ (extra + 1) holidays coverageEnd with
  | error rejection =>
    rw [hrest] at h
    cases h
  | ok later =>
    rw [hrest] at h
    obtain rfl := Except.ok.inj h
    have hcovers := resolve_covers hrest
    refine ⟨_, hearlier, lt_of_le_of_ne hcovers.le fun hsame => ?_, htime.symm,
      List.prefix_append _ _⟩
    -- a business day lies between them
    have hcount := hcovers.count
    rw [← hsame, Finset.Ico_self] at hcount
    cases hcount

/-- **Business-day arithmetic counts exactly and composes.** A deadline is a business day with the
anchor's time, `n` business days lie before it, and what was skipped is every other date, in order.
Resolving `a` and then `b` business days is resolving `a + b`, also when it is rejected, and fewer
business days give an earlier deadline. -/
theorem business_days_count_and_compose (anchor : UtcDateTime) (holidays : Finset NaiveDate)
    (coverageEnd : Option NaiveDate) :
    (∀ n r, addBusinessDaysBounded anchor n holidays coverageEnd = .ok r →
      anchor.date ≤ r.deadline.date ∧ isBusinessDay r.deadline.date holidays ∧
      ((Finset.Ico anchor.date r.deadline.date).filter (isBusinessDay · holidays)).card = n ∧
      r.skipped.Pairwise (· < ·) ∧
      (∀ date, date ∈ r.skipped ↔
        anchor.date ≤ date ∧ date ≤ r.deadline.date ∧ ¬ isBusinessDay date holidays) ∧
      r.deadline.time = anchor.time) ∧
    (∀ a b r, addBusinessDaysBounded anchor a holidays coverageEnd = .ok r →
      a + b ≤ maxBusinessDays →
      addBusinessDaysBounded anchor (a + b) holidays coverageEnd =
        (addBusinessDaysBounded r.deadline b holidays coverageEnd).map fun later =>
          ⟨later.deadline, r.skipped ++ later.skipped⟩) ∧
    (∀ m n r, m < n → addBusinessDaysBounded anchor n holidays coverageEnd = .ok r →
      ∃ earlier, addBusinessDaysBounded anchor m holidays coverageEnd = .ok earlier ∧
        earlier.deadline.date < r.deadline.date ∧ earlier.deadline.time = r.deadline.time ∧
        earlier.skipped <+: r.skipped) := by
  refine ⟨fun n r h => ?_, fun a b r h hmax => resolve_add h hmax, fun m n r hlt h =>
    resolve_fewer h hlt⟩
  have hcovers := resolve_covers h
  exact ⟨hcovers.le, hcovers.business, hcovers.count, hcovers.sorted, hcovers.mem,
    (resolve_eq_ok.mp h).2.1⟩

/-- Friday 1970-01-02 at midnight, and a holiday on the Monday after it: one business day later is
the Tuesday. -/
theorem one_business_day_after_friday :
    let friday : UtcDateTime := ⟨⟨1, by decide⟩, 0, 0⟩
    let holidays : Finset NaiveDate := {⟨4, by decide⟩}
    let tuesday : UtcDateTime := ⟨⟨5, by decide⟩, 0, 0⟩
    let skipped : List NaiveDate := [⟨2, by decide⟩, ⟨3, by decide⟩, ⟨4, by decide⟩]
    addBusinessDaysBounded friday 1 holidays none = .ok ⟨tuesday, skipped⟩ ∧
      ((Finset.Ico friday.date tuesday.date).filter (isBusinessDay · holidays)).card = 1 := by
  intro friday holidays tuesday skipped
  have hresolve : addBusinessDaysBounded friday 1 holidays none = .ok ⟨tuesday, skipped⟩ := by
    decide +kernel
  exact ⟨hresolve, ((business_days_count_and_compose friday holidays none).1 1 _ hresolve).2.2.1⟩

end Resolve

end Harvest.Calendar
