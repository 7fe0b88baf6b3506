import Mathlib.Tactic.IntervalCases
import Mathlib.Tactic.SplitIfs
import Mathlib.Data.Int.Order.Basic

/-!
# The proleptic Gregorian calendar

A `Date` is a year of any sign, a month and a day that the month has. Its `dayNumber` counts the
days from the first of January of the year 1, which is a Monday. The closed forms for the days
before a year and before a month are tied to the lengths of years and months by
`daysBeforeYear_succ` and `daysBeforeMonth_succ`. Day numbers and dates correspond one to one
(`dayNumber_ofDayNumber`, `ofDayNumber_dayNumber`), in the same order (`dayNumber_lt_iff`).
-/

namespace HakunaMatata.Base

/-- Every fourth year, but of the centuries only every fourth. -/
def IsLeap (year : Int) : Prop :=
  year % 4 = 0 ∧ (year % 100 ≠ 0 ∨ year % 400 = 0)

instance (year : Int) : Decidable (IsLeap year) :=
  inferInstanceAs (Decidable (_ ∧ _))

def yearLength (year : Int) : Int :=
  if IsLeap year then 366 else 365

def monthLength (year month : Int) : Int :=
  if month = 2 then if IsLeap year then 29 else 28
  else if month = 4 ∨ month = 6 ∨ month = 9 ∨ month = 11 then 30
  else 31

/-- The days between the first days of the year 1 and of this year. -/
def daysBeforeYear (year : Int) : Int :=
  365 * (year - 1) + (year - 1) / 4 - (year - 1) / 100 + (year - 1) / 400

/-- The days of the year before this month. -/
def daysBeforeMonth (year month : Int) : Int :=
  (367 * month - 362) / 12 - if month ≤ 2 then 0 else if IsLeap year then 1 else 2

/-- The number of the day that these fields stand for, also if the month has no such day. -/
def dayNumberOf (year month day : Int) : Int :=
  daysBeforeYear year + daysBeforeMonth year month + (day - 1)

/-- A day of the calendar. -/
structure Date where
  year : Int
  month : Int
  day : Int
  month_mem : 1 ≤ month ∧ month ≤ 12
  day_mem : 1 ≤ day ∧ day ≤ monthLength year month
  deriving DecidableEq

def Date.dayNumber (date : Date) : Int :=
  dayNumberOf date.year date.month date.day

theorem daysBeforeYear_succ (year : Int) :
    daysBeforeYear (year + 1) = daysBeforeYear year + yearLength year := by
  unfold daysBeforeYear yearLength IsLeap
  split_ifs <;> omega

theorem daysBeforeYear_mono {y₁ y₂ : Int} (h : y₁ ≤ y₂) :
    daysBeforeYear y₁ ≤ daysBeforeYear y₂ := by
  rcases Int.le_iff_eq_or_lt.mp h with rfl | hlt
  · exact Int.le_refl _
  · unfold daysBeforeYear
    omega

theorem daysBeforeMonth_one (year : Int) : daysBeforeMonth year 1 = 0 := by
  rfl

theorem daysBeforeMonth_succ (year : Int) {month : Int} (h : 1 ≤ month ∧ month ≤ 12) :
    daysBeforeMonth year month + monthLength year month =
      if month = 12 then yearLength year else daysBeforeMonth year (month + 1) := by
  obtain ⟨hlow, hhigh⟩ := h
  unfold daysBeforeMonth monthLength yearLength
  by_cases hleap : IsLeap year
  · simp only [if_pos hleap]
    interval_cases month <;> decide
  · simp only [if_neg hleap]
    interval_cases month <;> decide

theorem daysBeforeMonth_mono (year : Int) {m₁ m₂ : Int} (h₁ : 1 ≤ m₁) (h : m₁ ≤ m₂) :
    daysBeforeMonth year m₁ ≤ daysBeforeMonth year m₂ := by
  unfold daysBeforeMonth
  split_ifs <;> omega

theorem monthLength_pos (year month : Int) : 28 ≤ monthLength year month := by
  unfold monthLength
  split_ifs <;> omega

theorem monthLength_le (year month : Int) : monthLength year month ≤ 31 := by
  unfold monthLength
  split_ifs <;> omega

section Order

variable (date : Date)

theorem Date.dayNumber_in_month :
    daysBeforeYear date.year + daysBeforeMonth date.year date.month ≤ date.dayNumber ∧
      date.dayNumber < daysBeforeYear date.year + daysBeforeMonth date.year date.month +
        monthLength date.year date.month := by
  have hday := date.day_mem
  unfold Date.dayNumber dayNumberOf
  omega

/-- The day is in its year. -/
theorem Date.dayNumber_in_year :
    daysBeforeYear date.year ≤ date.dayNumber ∧
      date.dayNumber < daysBeforeYear (date.year + 1) := by
  obtain ⟨hlow, hhigh⟩ := date.dayNumber_in_month
  have hmonth := date.month_mem
  have hfirst := daysBeforeMonth_mono date.year (le_refl 1) hmonth.1
  rw [daysBeforeMonth_one] at hfirst
  have hlast : daysBeforeMonth date.year date.month + monthLength date.year date.month ≤
      yearLength date.year := by
    have hend := daysBeforeMonth_succ date.year (show (1 : Int) ≤ 12 ∧ (12 : Int) ≤ 12 by decide)
    have hlength := monthLength_pos date.year 12
    rw [daysBeforeMonth_succ date.year hmonth]
    split_ifs with h12
    · exact le_refl _
    · have hmono := daysBeforeMonth_mono date.year (show 1 ≤ date.month + 1 by omega)
        (show date.month + 1 ≤ 12 by omega)
      rw [if_pos rfl] at hend
      omega
  rw [daysBeforeYear_succ]
  omega

/-- The order of the dates by year, then by month, then by day. -/
def Date.Before (date date' : Date) : Prop :=
  date.year < date'.year ∨ date.year = date'.year ∧
    (date.month < date'.month ∨ date.month = date'.month ∧ date.day < date'.day)

theorem Date.Before.dayNumber_lt {date date' : Date} (h : date.Before date') :
    date.dayNumber < date'.dayNumber := by
  rcases h with hyear | ⟨hyear, hmonth | ⟨hmonth, hday⟩⟩
  · have hmono := daysBeforeYear_mono (show date.year + 1 ≤ date'.year by omega)
    have hin := date.dayNumber_in_year
    have hin' := date'.dayNumber_in_year
    omega
  · have hmem := date.month_mem
    have hmem' := date'.month_mem
    have hnext := daysBeforeMonth_succ date.year hmem
    rw [if_neg (show ¬ date.month = 12 by omega)] at hnext
    have hmono := daysBeforeMonth_mono date.year (show 1 ≤ date.month + 1 by omega)
      (show date.month + 1 ≤ date'.month by omega)
    have hin := date.dayNumber_in_month
    have hin' := date'.dayNumber_in_month
    rw [← hyear] at hin'
    omega
  · unfold Date.dayNumber dayNumberOf
    rw [hyear, hmonth]
    omega

theorem Date.before_trichotomy (date date' : Date) :
    date.Before date' ∨ date = date' ∨ date'.Before date := by
  by_cases heq : date.year = date'.year ∧ date.month = date'.month ∧ date.day = date'.day
  · right
    left
    obtain ⟨hyear, hmonth, hday⟩ := heq
    cases date
    cases date'
    simp only at hyear hmonth hday
    subst hyear hmonth hday
    rfl
  · unfold Date.Before
    omega

theorem dayNumber_lt_iff (date date' : Date) :
    date.dayNumber < date'.dayNumber ↔ date.Before date' := by
  refine ⟨fun hlt => ?_, Date.Before.dayNumber_lt⟩
  rcases date.before_trichotomy date' with hbefore | rfl | hafter
  · exact hbefore
  · exact absurd hlt (lt_irrefl _)
  · exact absurd hafter.dayNumber_lt (by omega)

theorem dayNumber_injective {date date' : Date} (h : date.dayNumber = date'.dayNumber) :
    date = date' := by
  rcases date.before_trichotomy date' with hbefore | heq | hafter
  · exact absurd hbefore.dayNumber_lt (by omega)
  · exact heq
  · exact absurd hafter.dayNumber_lt (by omega)

end Order

/-- The year of a day. The mean length of a year gives it up to one. -/
def yearOf (n : Int) : Int :=
  let year := 400 * n / 146097 + 1
  if n < daysBeforeYear year then year - 1
  else if daysBeforeYear (year + 1) ≤ n then year + 1
  else year

theorem yearOf_spec (n : Int) :
    daysBeforeYear (yearOf n) ≤ n ∧ n < daysBeforeYear (yearOf n + 1) := by
  unfold yearOf
  dsimp only
  split_ifs with hlow hhigh
  · refine ⟨?_, by rwa [Int.sub_add_cancel]⟩
    unfold daysBeforeYear
    omega
  · refine ⟨hhigh, ?_⟩
    unfold daysBeforeYear
    omega
  · omega

/-- From a month on and a number of days after its first day, the month in which this day is and
the days after the first one of that month. The first argument bounds the months to go. -/
def monthFrom (year : Int) : Nat → Int → Int → Int × Int
  | 0, month, rest => (month, rest)
  | limit + 1, month, rest =>
    if rest < monthLength year month then (month, rest)
    else monthFrom year limit (month + 1) (rest - monthLength year month)

theorem monthFrom_spec (year : Int) (limit : Nat) (month rest : Int) (hmonth : 1 ≤ month)
    (hlimit : month + limit = 12) (hrest : 0 ≤ rest)
    (hyear : daysBeforeMonth year month + rest < yearLength year) :
    (1 ≤ (monthFrom year limit month rest).1 ∧ (monthFrom year limit month rest).1 ≤ 12) ∧
      (0 ≤ (monthFrom year limit month rest).2 ∧
        (monthFrom year limit month rest).2 <
          monthLength year (monthFrom year limit month rest).1) ∧
      daysBeforeMonth year (monthFrom year limit month rest).1 +
        (monthFrom year limit month rest).2 = daysBeforeMonth year month + rest := by
  induction limit generalizing month rest with
  | zero =>
    have hdec : month = 12 := by omega
    have hend := daysBeforeMonth_succ year (show 1 ≤ month ∧ month ≤ 12 by omega)
    rw [if_pos hdec] at hend
    refine ⟨?_, ?_, rfl⟩
    · show 1 ≤ month ∧ month ≤ 12
      omega
    · show 0 ≤ rest ∧ rest < monthLength year month
      omega
  | succ limit ih =>
    rw [monthFrom]
    split_ifs with hin
    · refine ⟨?_, ⟨hrest, hin⟩, rfl⟩
      show 1 ≤ month ∧ month ≤ 12
      omega
    · have hnext := daysBeforeMonth_succ year (show 1 ≤ month ∧ month ≤ 12 by omega)
      rw [if_neg (show ¬ month = 12 by omega)] at hnext
      have hstep := ih (month + 1) (rest - monthLength year month) (by omega) (by omega)
        (by omega) (by omega)
      omega

/-- The month of a day of a year and the days after the first one of the month. -/
def monthOf (n : Int) : Int × Int :=
  monthFrom (yearOf n) 11 1 (n - daysBeforeYear (yearOf n))

theorem monthOf_spec (n : Int) :
    (1 ≤ (monthOf n).1 ∧ (monthOf n).1 ≤ 12) ∧
      (0 ≤ (monthOf n).2 ∧ (monthOf n).2 < monthLength (yearOf n) (monthOf n).1) ∧
      daysBeforeMonth (yearOf n) (monthOf n).1 + (monthOf n).2 = n - daysBeforeYear (yearOf n) := by
  obtain ⟨hlow, hhigh⟩ := yearOf_spec n
  rw [daysBeforeYear_succ] at hhigh
  have hspec := monthFrom_spec (yearOf n) 11 1 (n - daysBeforeYear (yearOf n)) (le_refl 1)
    (by decide) (by omega) (by rw [daysBeforeMonth_one]; omega)
  rw [daysBeforeMonth_one, Int.zero_add] at hspec
  exact hspec

/-- The date of a day. -/
def Date.ofDayNumber (n : Int) : Date where
  year := yearOf n
  month := (monthOf n).1
  day := (monthOf n).2 + 1
  month_mem := (monthOf_spec n).1
  day_mem := ⟨by have h := (monthOf_spec n).2.1; omega, by have h := (monthOf_spec n).2.1; omega⟩

@[simp] theorem dayNumber_ofDayNumber (n : Int) : (Date.ofDayNumber n).dayNumber = n := by
  have hspec := (monthOf_spec n).2.2
  simp only [Date.dayNumber, Date.ofDayNumber, dayNumberOf]
  omega

@[simp] theorem ofDayNumber_dayNumber (date : Date) : Date.ofDayNumber date.dayNumber = date :=
  dayNumber_injective (dayNumber_ofDayNumber _)

example : Date.ofDayNumber 738042 = ⟨2021, 9, 10, by decide, by decide⟩ := by decide +kernel

theorem Date.year_le_of_dayNumber_le {date date' : Date} (h : date.dayNumber ≤ date'.dayNumber) :
    date.year ≤ date'.year := by
  by_contra hlt
  have hbefore : date'.Before date := Or.inl (by omega)
  have hnumber := hbefore.dayNumber_lt
  omega

theorem Date.le_year_iff (year : Int) (date : Date) :
    year ≤ date.year ↔ daysBeforeYear year ≤ date.dayNumber := by
  constructor
  · intro hle
    have hin := date.dayNumber_in_year
    have hmono := daysBeforeYear_mono hle
    omega
  · intro hle
    by_contra hlt
    have hin := date.dayNumber_in_year
    have hmono := daysBeforeYear_mono (show date.year + 1 ≤ year by omega)
    omega

end HakunaMatata.Base
