import Mathlib.Tactic.NormNum

/-!
# Civil dates

The day of the proleptic Gregorian calendar that is a number of days after 1970-01-01. Years are
counted from March, so that the leap day is the last of its year, and in eras of 400 years.

Proved here:
* `civilFromDays_bounds`, `natAbs_year_le`: months, days and years are in their range.
* `civilFromDays_inj`: two day numbers have different dates.
-/

namespace Harvest.Lib

structure CivilDate where
  year : Int
  month : Nat
  day : Nat
deriving DecidableEq, Repr

/-- The year that starts in March, the number of its month, and the day of that month. -/
structure MarchDate where
  year : Int
  month : Int
  day : Int

/-- Days from 0000-03-01 to 1970-01-01. -/
def epochDays : Int := 719468

def eraDays : Int := 146097

/-- The year of an era that holds a day of it. -/
def yearOfEra (dayOfEra : Int) : Int :=
  (dayOfEra - dayOfEra / 1460 + dayOfEra / 36524 - dayOfEra / 146096) / 365

def dayOfYear (dayOfEra : Int) : Int :=
  dayOfEra - (365 * yearOfEra dayOfEra + yearOfEra dayOfEra / 4 - yearOfEra dayOfEra / 100)

/-- Five months from March on have 153 days. -/
def marchDate (days : Int) : MarchDate :=
  let dayOfEra := (days + epochDays) % eraDays
  let month := (5 * dayOfYear dayOfEra + 2) / 153
  ⟨yearOfEra dayOfEra + (days + epochDays) / eraDays * 400, month,
    dayOfYear dayOfEra - (153 * month + 2) / 5⟩

def civilFromDays (days : Int) : CivilDate :=
  let date := marchDate days
  if date.month < 10 then ⟨date.year, (date.month + 3).toNat, (date.day + 1).toNat⟩
  else ⟨date.year + 1, (date.month - 9).toNat, (date.day + 1).toNat⟩

example : civilFromDays 0 = ⟨1970, 1, 1⟩ := by decide
example : civilFromDays 19782 = ⟨2024, 2, 29⟩ := by decide
example : civilFromDays (-719162) = ⟨1, 1, 1⟩ := by decide

theorem yearOfEra_bounds {dayOfEra : Int} (h : 0 ≤ dayOfEra) (h' : dayOfEra < eraDays) :
    0 ≤ yearOfEra dayOfEra ∧ yearOfEra dayOfEra < 400 := by
  unfold yearOfEra eraDays at *
  omega

/-- Before the last day of an era, the quotients count its centuries and leap days. -/
theorem yearOfEra_quotients {d e f g y : Int} (h : 0 ≤ d) (h' : d < 146096) (he : e = d / 1460)
    (hf : f = d / 36524) (hg : g = d / 146096) (hy : y = (d - e + f - g) / 365) :
    y / 100 = f ∧ y / 4 ≤ e ∧ e ≤ y / 4 + 1 := by
  have hcentury : f = 0 ∨ f = 1 ∨ f = 2 ∨ f = 3 := by omega
  rcases hcentury with rfl | rfl | rfl | rfl
  · exact ⟨by omega, by omega, by omega⟩
  · exact ⟨by omega, by omega, by omega⟩
  · exact ⟨by omega, by omega, by omega⟩
  · exact ⟨by omega, by omega, by omega⟩

theorem dayOfYear_bounds {dayOfEra : Int} (h : 0 ≤ dayOfEra) (h' : dayOfEra < eraDays) :
    0 ≤ dayOfYear dayOfEra ∧ dayOfYear dayOfEra < 366 := by
  by_cases hlast : dayOfEra = 146096
  · subst hlast
    decide
  · unfold eraDays at h'
    have hquotients := yearOfEra_quotients h (by omega) rfl rfl rfl rfl
    unfold dayOfYear yearOfEra
    omega

theorem marchDate_bounds (days : Int) :
    0 ≤ (marchDate days).month ∧ (marchDate days).month < 12 ∧
      0 ≤ (marchDate days).day ∧ (marchDate days).day < 31 := by
  have hera : 0 ≤ (days + epochDays) % eraDays ∧ (days + epochDays) % eraDays < eraDays := by
    unfold eraDays
    omega
  have hday := dayOfYear_bounds hera.1 hera.2
  unfold marchDate
  dsimp only
  generalize dayOfYear ((days + epochDays) % eraDays) = day at hday
  omega

theorem marchDate_inj {a b : Int} (hyear : (marchDate a).year = (marchDate b).year)
    (hmonth : (marchDate a).month = (marchDate b).month)
    (hday : (marchDate a).day = (marchDate b).day) : a = b := by
  have hera (days : Int) :
      0 ≤ (days + epochDays) % eraDays ∧ (days + epochDays) % eraDays < eraDays := by
    unfold eraDays
    omega
  have ha := yearOfEra_bounds (hera a).1 (hera a).2
  have hb := yearOfEra_bounds (hera b).1 (hera b).2
  have hsplita := Int.mul_ediv_add_emod (a + epochDays) eraDays
  have hsplitb := Int.mul_ediv_add_emod (b + epochDays) eraDays
  unfold marchDate dayOfYear at hyear hmonth hday
  dsimp only at hyear hmonth hday
  generalize (a + epochDays) % eraDays = x at *
  generalize (b + epochDays) % eraDays = y at *
  generalize yearOfEra x = i at *
  generalize yearOfEra y = j at *
  have hi : i = j ∧ (a + epochDays) / eraDays = (b + epochDays) / eraDays := by omega
  obtain ⟨rfl, hsame⟩ := hi
  rw [hmonth] at hday
  have hx : x = y := by omega
  rw [hsame, hx] at hsplita
  omega

theorem civilFromDays_bounds (days : Int) :
    1 ≤ (civilFromDays days).month ∧ (civilFromDays days).month ≤ 12 ∧
      1 ≤ (civilFromDays days).day ∧ (civilFromDays days).day ≤ 31 := by
  have hbounds := marchDate_bounds days
  unfold civilFromDays
  dsimp only
  split_ifs <;> dsimp only <;> omega

theorem natAbs_year_le (days : Int) : (civilFromDays days).year.natAbs ≤ days.natAbs + 3000 := by
  have hera : 0 ≤ (days + epochDays) % eraDays ∧ (days + epochDays) % eraDays < eraDays := by
    unfold eraDays
    omega
  have hyear := yearOfEra_bounds hera.1 hera.2
  unfold civilFromDays marchDate epochDays eraDays at *
  dsimp only
  generalize yearOfEra ((days + 719468) % 146097) = year at *
  split_ifs <;> dsimp only <;> omega

/-- **Two day numbers have different dates.** -/
theorem civilFromDays_inj {a b : Int} (h : civilFromDays a = civilFromDays b) : a = b := by
  have ha := marchDate_bounds a
  have hb := marchDate_bounds b
  unfold civilFromDays at h
  dsimp only at h
  split_ifs at h with hfirst hsecond hsecond <;> rw [CivilDate.mk.injEq] at h
  · exact marchDate_inj (by omega) (by omega) (by omega)
  · omega
  · omega
  · exact marchDate_inj (by omega) (by omega) (by omega)

end Harvest.Lib
