import Mathlib.Order.Monotone.Basic
import Mathlib.Tactic.IntervalCases
import Mathlib.Tactic.SplitIfs

/-!
# The Gregorian calendar

Days counted year by year and month by month, from the first of January of the
year 0, with the leap years of the Gregorian calendar throughout.
-/

namespace Cairn.Verified.Calendar

def IsLeap (year : Nat) : Prop := 4 ∣ year ∧ (¬100 ∣ year ∨ 400 ∣ year)

instance (year : Nat) : Decidable (IsLeap year) := inferInstanceAs (Decidable (_ ∧ _))

def yearLength (year : Nat) : Nat := if IsLeap year then 366 else 365

def monthLength (year : Nat) : Nat → Nat
  | 1 | 3 | 5 | 7 | 8 | 10 | 12 => 31
  | 4 | 6 | 9 | 11 => 30
  | 2 => if IsLeap year then 29 else 28
  | _ => 0

structure Date where
  year : Nat
  month : Nat
  day : Nat
deriving DecidableEq

def Date.Valid (d : Date) : Prop :=
  1 ≤ d.month ∧ d.month ≤ 12 ∧ 1 ≤ d.day ∧ d.day ≤ monthLength d.year d.month

instance (d : Date) : Decidable d.Valid := inferInstanceAs (Decidable (_ ∧ _))

def daysBeforeYear : Nat → Nat
  | 0 => 0
  | year + 1 => daysBeforeYear year + yearLength year

/-- Days of a year before one of its months. -/
def daysBeforeMonth (year : Nat) : Nat → Nat
  | 0 => 0
  | month + 1 => daysBeforeMonth year month + monthLength year month

/-- How many days a date is after the first of January of the year 0. -/
def Date.ordinal (d : Date) : Nat :=
  daysBeforeYear d.year + daysBeforeMonth d.year d.month + (d.day - 1)

/-- Years of 365 days, and the leap days among them. -/
theorem daysBeforeYear_add (year : Nat) :
    daysBeforeYear year + (year + 99) / 100 = 365 * year + (year + 3) / 4 + (year + 399) / 400 := by
  induction year with
  | zero => rfl
  | succ year ih =>
    rw [daysBeforeYear]
    by_cases hleap : IsLeap year
    · rw [yearLength, if_pos hleap]
      unfold IsLeap at hleap
      omega
    · rw [yearLength, if_neg hleap]
      unfold IsLeap at hleap
      omega

theorem monthLength_le (year month : Nat) : monthLength year month ≤ 31 := by
  unfold monthLength
  split <;> try decide
  split <;> decide

/-! ## Years begun in March -/

/-- The month counted from March, of a year that begins then. -/
def monthFromMarch (month : Nat) : Nat := if 2 < month then month - 3 else month + 9

/-- The year, begun in March, of a month. -/
def marchYear (year : Int) (month : Nat) : Int := if month ≤ 2 then year - 1 else year

/-- Months have 153 days in five from March on, and the leap day comes last. -/
theorem daysBeforeMonth_add {month : Nat} (year : Nat) (hlow : 1 ≤ month) (hhigh : month ≤ 12) :
    daysBeforeMonth year month + (if month ≤ 2 then 306 else 0) =
      (153 * monthFromMarch month + 2) / 5 +
        if month ≤ 2 then 0 else if IsLeap year then 60 else 59 := by
  by_cases hleap : IsLeap year
  · interval_cases month <;> simp [daysBeforeMonth, monthLength, monthFromMarch, hleap]
  · interval_cases month <;> simp [daysBeforeMonth, monthLength, monthFromMarch, hleap]

theorem toInt_ordinal {d : Date} (h : d.Valid) :
    (d.ordinal : Int) =
      365 * marchYear d.year d.month + marchYear d.year d.month / 4 -
        marchYear d.year d.month / 100 + marchYear d.year d.month / 400 +
        ((153 * monthFromMarch d.month + 2) / 5 : Nat) + d.day + 59 := by
  have hyears := daysBeforeYear_add d.year
  have hmonths := daysBeforeMonth_add d.year h.1 h.2.1
  have hday : 1 ≤ d.day := h.2.2.1
  unfold Date.ordinal marchYear
  by_cases hmonth : d.month ≤ 2
  · simp only [if_pos hmonth] at hmonths ⊢
    omega
  · simp only [if_neg hmonth] at hmonths ⊢
    by_cases hleap : IsLeap d.year
    · rw [if_pos hleap] at hmonths
      unfold IsLeap at hleap
      omega
    · rw [if_neg hleap] at hmonths
      unfold IsLeap at hleap
      omega

/-- The date of a day of a year begun in March. -/
def dateOfMarch (year day : Nat) : Date :=
  let month := (5 * day + 2) / 153
  { year := if month < 10 then year else year + 1
    month := if month < 10 then month + 3 else month - 9
    day := day - (153 * month + 2) / 5 + 1 }

theorem valid_dateOfMarch {year day : Nat} (h : day < 365 ∨ day = 365 ∧ IsLeap (year + 1)) :
    (dateOfMarch year day).Valid := by
  unfold dateOfMarch Date.Valid
  generalize hmonth : (5 * day + 2) / 153 = month
  have hlast : month ≤ 11 := by omega
  dsimp only
  interval_cases month <;> simp only [monthLength] <;> norm_num <;> try omega
  -- February, the last month of the year
  rcases h with h | ⟨rfl, hleap⟩
  · split <;> omega
  · split
    · omega
    · contradiction

theorem ordinal_dateOfMarch {year day : Nat} (h : day < 365 ∨ day = 365 ∧ IsLeap (year + 1)) :
    (dateOfMarch year day).ordinal + year / 100 =
      365 * year + year / 4 + year / 400 + day + 60 := by
  have hordinal := toInt_ordinal (valid_dateOfMarch h)
  have hlast : (5 * day + 2) / 153 ≤ 11 := by omega
  have hyear : marchYear (dateOfMarch year day).year (dateOfMarch year day).month = year := by
    unfold marchYear dateOfMarch
    dsimp only
    split_ifs <;> omega
  have hmonth : monthFromMarch (dateOfMarch year day).month = (5 * day + 2) / 153 := by
    unfold monthFromMarch dateOfMarch
    dsimp only
    split_ifs <;> omega
  have hday : (dateOfMarch year day).day = day - (153 * ((5 * day + 2) / 153) + 2) / 5 + 1 := rfl
  rw [hyear, hmonth, hday] at hordinal
  omega

/-! ## Eras of 400 years -/

/-- Days of an era before one of its years. -/
def eraStart (year : Nat) : Nat := 365 * year + year / 4 - year / 100

/-- Days of an era, with the leap days before them left out. -/
def leapless (day : Nat) : Nat := day + day / 36524 - (day / 1460 + day / 146096)

/-- The year of an era that a day is in. -/
def yearOfEra (day : Nat) : Nat := leapless day / 365

theorem leapless_mono : Monotone leapless := by
  refine monotone_nat_of_le_succ fun day => ?_
  unfold leapless
  omega

/-- Every year of an era has its first day in it, and the day before in the
year before. -/
theorem leapless_eraStart :
    ∀ year < 400, 365 * year ≤ leapless (eraStart year) ∧
      leapless (eraStart (year + 1) - 1) < 365 * (year + 1) := by decide +kernel

theorem yearOfEra_lt {day : Nat} (h : day < 146097) : yearOfEra day < 400 := by
  unfold yearOfEra leapless
  omega

theorem eraStart_yearOfEra_le (day : Nat) (h : day < 146097) : eraStart (yearOfEra day) ≤ day := by
  have hyear := yearOfEra_lt h
  have hscale : 365 * yearOfEra day ≤ leapless day := Nat.mul_div_le _ _
  by_contra hbefore
  cases hprevious : yearOfEra day with
  | zero =>
    rw [hprevious] at hbefore
    exact hbefore (Nat.zero_le _)
  | succ year =>
    rw [hprevious] at hbefore hyear hscale
    have hlast := (leapless_eraStart year (by omega)).2
    have hmono : leapless day ≤ leapless (eraStart (year + 1) - 1) := leapless_mono (by omega)
    omega

theorem lt_eraStart_yearOfEra {day : Nat} (h : yearOfEra day < 399) :
    day < eraStart (yearOfEra day + 1) := by
  have hscale : leapless day < 365 * (yearOfEra day + 1) := Nat.lt_mul_div_succ _ (by decide)
  by_contra hafter
  have hfirst := (leapless_eraStart (yearOfEra day + 1) (by omega)).1
  have hmono : leapless (eraStart (yearOfEra day + 1)) ≤ leapless day := leapless_mono (by omega)
  omega

/-- Only a leap year has a last day numbered 365. -/
theorem yearDay_lt {day : Nat} (era : Nat) (h : day < 146097) :
    day - eraStart (yearOfEra day) < 365 ∨
      day - eraStart (yearOfEra day) = 365 ∧ IsLeap (400 * era + yearOfEra day + 1) := by
  have hyear := yearOfEra_lt h
  have hnext := @lt_eraStart_yearOfEra day
  generalize yearOfEra day = year at hyear hnext ⊢
  have hfour : 4 ∣ 400 * era + year + 1 ↔ 4 ∣ year + 1 := by omega
  have hhundred : 100 ∣ 400 * era + year + 1 ↔ 100 ∣ year + 1 := by omega
  unfold eraStart at hnext ⊢
  unfold IsLeap
  rw [hfour, hhundred]
  by_cases hend : year = 399
  · omega
  · have hnext := hnext (by omega)
    by_cases hleap : 4 ∣ year + 1 ∧ ¬100 ∣ year + 1
    · omega
    · have hgap : (year + 1) / 4 - year / 4 ≤ (year + 1) / 100 - year / 100 := by omega
      omega

/-- The date so many days after the first of March of the year 0. -/
def dateOfDay (n : Nat) : Date :=
  dateOfMarch (400 * (n / 146097) + yearOfEra (n % 146097))
    (n % 146097 - eraStart (yearOfEra (n % 146097)))

theorem valid_dateOfDay (n : Nat) : (dateOfDay n).Valid :=
  valid_dateOfMarch (yearDay_lt (n / 146097) (Nat.mod_lt n (by decide)))

theorem ordinal_dateOfDay (n : Nat) : (dateOfDay n).ordinal = n + 60 := by
  have hday : n % 146097 < 146097 := Nat.mod_lt n (by decide)
  have hordinal := ordinal_dateOfMarch (yearDay_lt (n / 146097) hday)
  have hstart := eraStart_yearOfEra_le (n % 146097) hday
  have hyear := yearOfEra_lt hday
  unfold dateOfDay
  generalize yearOfEra (n % 146097) = year at hordinal hstart hyear ⊢
  have hfloor : eraStart year + year / 100 = 365 * year + year / 4 := by
    unfold eraStart
    omega
  have hfours : (400 * (n / 146097) + year) / 4 = 100 * (n / 146097) + year / 4 := by omega
  have hhundreds : (400 * (n / 146097) + year) / 100 = 4 * (n / 146097) + year / 100 := by omega
  have heras : (400 * (n / 146097) + year) / 400 = n / 146097 := by omega
  rw [hfours, hhundreds, heras] at hordinal
  omega

end Cairn.Verified.Calendar
