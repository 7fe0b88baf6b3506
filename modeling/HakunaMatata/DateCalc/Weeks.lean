import HakunaMatata.DateCalc.Encoding

/-!
# Weeks

The Monday of a date's week is the date whose number is the last multiple of 7 up to its own
(`mondayOf`), since the day with the number 0 is a Monday. `firstDayOfWeek` gives this date, and
`calcNatureWeek` the one that is a number of weeks later.
-/

namespace HakunaMatata.DateCalc

open Base

/-- The Monday of the week. -/
def mondayOf (t : Date) : Date :=
  Date.ofDayNumber (t.dayNumber - t.dayNumber % 7)

/-- The date that is some weeks later. -/
def addWeeks (t : Date) (weeks : Int) : Date :=
  Date.ofDayNumber (t.dayNumber + weeks * 7)

theorem dayNumber_mondayOf (t : Date) : (mondayOf t).dayNumber = t.dayNumber - t.dayNumber % 7 :=
  dayNumber_ofDayNumber _

theorem dayNumber_addWeeks (t : Date) (weeks : Int) :
    (addWeeks t weeks).dayNumber = t.dayNumber + weeks * 7 :=
  dayNumber_ofDayNumber _

theorem deltaDay_weekday (t : Date) : deltaDay (weekday t) = -(t.dayNumber % 7) := by
  have hrange : 0 ≤ t.dayNumber % 7 ∧ t.dayNumber % 7 < 7 := by omega
  unfold weekday
  generalize t.dayNumber % 7 = r at hrange
  obtain ⟨hlow, hhigh⟩ := hrange
  interval_cases r <;> decide

theorem weekday_eq_monday_iff (t : Date) : weekday t = .monday ↔ t.dayNumber % 7 = 0 := by
  have hdelta : weekday t = .monday ↔ deltaDay (weekday t) = 0 := by
    cases weekday t <;> decide
  rw [hdelta, deltaDay_weekday, Int.neg_eq_zero]

/-- The Monday is the only one from which the date is at most six days away. -/
theorem eq_mondayOf_iff (t m : Date) :
    m = mondayOf t ↔
      weekday m = .monday ∧ 0 ≤ t.dayNumber - m.dayNumber ∧ t.dayNumber - m.dayNumber ≤ 6 := by
  rw [weekday_eq_monday_iff]
  constructor
  · rintro rfl
    rw [dayNumber_mondayOf]
    omega
  · intro hweek
    refine dayNumber_injective ?_
    rw [dayNumber_mondayOf]
    omega

theorem mondayOf_mondayOf (t : Date) : mondayOf (mondayOf t) = mondayOf t := by
  refine dayNumber_injective ?_
  rw [dayNumber_mondayOf, dayNumber_mondayOf]
  omega

theorem mondayOf_addWeeks (t : Date) (weeks : Int) :
    mondayOf (addWeeks (mondayOf t) weeks) = addWeeks (mondayOf t) weeks := by
  refine dayNumber_injective ?_
  rw [dayNumber_mondayOf, dayNumber_addWeeks, dayNumber_mondayOf]
  omega

theorem addWeeks_addWeeks (t : Date) (a b : Int) :
    addWeeks (addWeeks t a) b = addWeeks t (a + b) := by
  refine dayNumber_injective ?_
  rw [dayNumber_addWeeks, dayNumber_addWeeks, dayNumber_addWeeks]
  omega

theorem mondayOf_year_le (t : Date) : (mondayOf t).year ≤ t.year := by
  refine Date.year_le_of_dayNumber_le ?_
  rw [dayNumber_mondayOf]
  omega

/-- The first day of the year 1 is a Monday, so that a date of a positive year has a Monday in a
positive year. -/
theorem mondayOf_year_pos {t : Date} (h : 0 < t.year) : 0 < (mondayOf t).year := by
  have hone : daysBeforeYear 1 = 0 := by decide
  have hnumber := (Date.le_year_iff 1 t).mp h
  have hmonday := (Date.le_year_iff 1 (mondayOf t)).mpr
  rw [dayNumber_mondayOf] at hmonday
  exact hmonday (by omega)

section Weeks

variable (now : Date) {t : Date}

theorem firstDayOfWeek_eq (date : Int) :
    firstDayOfWeek now date = getYMD (mondayOf (getDate now date)) := by
  simp only [firstDayOfWeek]
  rw [deltaDay_weekday, addDate_days]
  rfl

theorem calcNatureWeek_eq (date weeks : Int) (h : 0 ≤ (mondayOf (getDate now date)).year) :
    calcNatureWeek now date weeks = getYMD (addWeeks (mondayOf (getDate now date)) weeks) := by
  simp only [calcNatureWeek, firstDayOfWeek_eq]
  split_ifs with hweeks
  · rw [calcDate_days, getDate_getYMD now _ h]
    rfl
  · rw [not_not.mp hweeks, addWeeks, Int.zero_mul, Int.add_zero, ofDayNumber_dayNumber]

/-- For every date of a positive year, and of the year 0 if the Monday is not before it: the first
day of the week is the only Monday at most six days before the date, it is its own first day and
the one of every date of its week. A move by weeks gives the Monday that many weeks later, and
moves are added up if the dates that are reached are in positive years. -/
theorem week_laws (t : Date) (h : 0 < t.year ∨ 0 ≤ (mondayOf t).year) :
    ∃ monday : Date,
      firstDayOfWeek now (getYMD t) = getYMD monday ∧
      (∀ m : Date, m = monday ↔
        weekday m = .monday ∧ 0 ≤ t.dayNumber - m.dayNumber ∧ t.dayNumber - m.dayNumber ≤ 6) ∧
      firstDayOfWeek now (firstDayOfWeek now (getYMD t)) = firstDayOfWeek now (getYMD t) ∧
      (∀ t' : Date, monday.dayNumber ≤ t'.dayNumber → t'.dayNumber ≤ monday.dayNumber + 6 →
        firstDayOfWeek now (getYMD t') = firstDayOfWeek now (getYMD t)) ∧
      (∀ d, ∃ target : Date, target.dayNumber = monday.dayNumber + 7 * d ∧
        calcNatureWeek now (getYMD t) d = getYMD target) ∧
      (∀ a b, 0 < (addWeeks monday a).year →
        calcNatureWeek now (calcNatureWeek now (getYMD t) a) b =
          calcNatureWeek now (getYMD t) (a + b)) := by
  have hmonday : 0 ≤ (mondayOf t).year := by
    rcases h with hpos | hnonneg
    · exact (mondayOf_year_pos hpos).le
    · exact hnonneg
  have hread : getDate now (getYMD t) = t :=
    getDate_getYMD now t (hmonday.trans (mondayOf_year_le t))
  have hfirst : firstDayOfWeek now (getYMD t) = getYMD (mondayOf t) := by
    rw [firstDayOfWeek_eq, hread]
  have hweek : ∀ d, calcNatureWeek now (getYMD t) d = getYMD (addWeeks (mondayOf t) d) := by
    intro d
    have heq := calcNatureWeek_eq now (getYMD t) d (by rw [hread]; exact hmonday)
    rwa [hread] at heq
  refine ⟨mondayOf t, hfirst, eq_mondayOf_iff t, ?_, ?_, ?_, ?_⟩
  · rw [hfirst, firstDayOfWeek_eq, getDate_getYMD now _ hmonday, mondayOf_mondayOf]
  · intro t' hlow hhigh
    have hyear : 0 ≤ t'.year := hmonday.trans (Date.year_le_of_dayNumber_le hlow)
    rw [hfirst, firstDayOfWeek_eq, getDate_getYMD now t' hyear]
    congr 1
    refine dayNumber_injective ?_
    rw [dayNumber_mondayOf] at hlow hhigh ⊢
    rw [dayNumber_mondayOf]
    omega
  · intro d
    exact ⟨_, by rw [dayNumber_addWeeks, Int.mul_comm], hweek d⟩
  · intro a b hyear
    have hread' := getDate_getYMD now _ hyear.le
    have hself := mondayOf_addWeeks t a
    have hmove := calcNatureWeek_eq now (getYMD (addWeeks (mondayOf t) a)) b
      (by rw [hread', hself]; exact hyear.le)
    rw [hweek, hweek, hmove, hread', hself, addWeeks_addWeeks]

/-- The tenth of September 2021, a Friday, with itself as the current date. -/
theorem week_laws_friday :
    ∃ friday : Date, getYMD friday = 20210910 ∧ 0 < friday.year ∧ ∃ monday : Date,
      firstDayOfWeek friday 20210910 = getYMD monday ∧ weekday monday = .monday := by
  refine ⟨⟨2021, 9, 10, by decide, by decide⟩, by decide, by decide, ?_⟩
  obtain ⟨monday, hfirst, hmonday, _⟩ := week_laws ⟨2021, 9, 10, by decide, by decide⟩
    ⟨2021, 9, 10, by decide, by decide⟩ (Or.inl (by decide))
  exact ⟨monday, hfirst, ((hmonday monday).mp rfl).1⟩

end Weeks

end HakunaMatata.DateCalc
