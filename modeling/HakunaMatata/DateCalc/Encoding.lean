import HakunaMatata.DateCalc.Model

/-!
# The decimal encoding of dates

The encoding of a date that is not before the year 0 is positive and is read back as the same date
(`getDate_getYMD`). Moving by days is adding to the day number (`addDate_days`), so that moves in
the encoding compose as long as no date in between is before the year 0 (`calcDate_calcDate`).
-/

namespace HakunaMatata.DateCalc

open Base

section Fields

theorem fields_mem (t : Date) :
    (1 ≤ t.month ∧ t.month ≤ 12) ∧ (1 ≤ t.day ∧ t.day ≤ 31) :=
  ⟨t.month_mem, t.day_mem.1, t.day_mem.2.trans (monthLength_le _ _)⟩

/-- The encodings of the dates from the year 0 on are the positive ones. -/
theorem getYMD_pos_iff (t : Date) : 0 < getYMD t ↔ 0 ≤ t.year := by
  have hfields := fields_mem t
  unfold getYMD
  omega

theorem getDate_of_pos (now : Date) {date : Int} (h : 0 < date) :
    getDate now date = timeDate (date / 10000) (date % 10000 / 100) (date % 100) := by
  have hmod : 0 ≤ date % 10000 := Int.emod_nonneg date (by decide)
  rw [getDate, if_neg (by omega)]
  simp only [Int.tdiv_eq_ediv_of_nonneg h.le, Int.tmod_eq_emod_of_nonneg h.le,
    Int.tdiv_eq_ediv_of_nonneg hmod]

theorem timeDate_fields (t : Date) (days : Int) :
    timeDate t.year t.month (t.day + days) = Date.ofDayNumber (t.dayNumber + days) := by
  have hmonth := t.month_mem
  have hyear : t.year + (t.month - 1) / 12 = t.year := by omega
  have hmonth' : (t.month - 1) % 12 + 1 = t.month := by omega
  rw [timeDate, hyear, hmonth']
  congr 1
  unfold Date.dayNumber dayNumberOf
  omega

theorem addDate_days (t : Date) (days : Int) :
    addDate t 0 0 days = Date.ofDayNumber (t.dayNumber + days) := by
  rw [addDate, Int.add_zero, Int.add_zero, timeDate_fields]

theorem getDate_getYMD (now t : Date) (h : 0 ≤ t.year) : getDate now (getYMD t) = t := by
  obtain ⟨hmonth, hday⟩ := fields_mem t
  have hfields : getYMD t / 10000 = t.year ∧ getYMD t % 10000 / 100 = t.month ∧
      getYMD t % 100 = t.day := by
    unfold getYMD
    omega
  obtain ⟨hy, hm, hd⟩ := hfields
  rw [getDate_of_pos now ((getYMD_pos_iff t).mpr h), hy, hm, hd]
  have hself := timeDate_fields t 0
  rwa [Int.add_zero, Int.add_zero, ofDayNumber_dayNumber] at hself

theorem getYMD_lt_iff (t t' : Date) : getYMD t < getYMD t' ↔ t.dayNumber < t'.dayNumber := by
  have hfields := fields_mem t
  have hfields' := fields_mem t'
  rw [dayNumber_lt_iff]
  unfold getYMD Date.Before
  omega

/-- From 10000 on, no carry leads to a date before the year 0. -/
theorem getDate_year_nonneg (now : Date) {date : Int} (h : 10000 ≤ date) :
    0 ≤ (getDate now date).year := by
  rw [getDate_of_pos now (by omega), Date.le_year_iff, timeDate, dayNumber_ofDayNumber]
  have hday : 0 ≤ date % 100 := by omega
  have hmonth : 0 ≤ date % 10000 / 100 := by omega
  have hyear : 1 ≤ date / 10000 := by omega
  generalize date % 100 = d at hday
  generalize date % 10000 / 100 = m at hmonth
  generalize date / 10000 = y at hyear
  have hzero : daysBeforeYear 0 = -366 := by decide
  rcases Int.le_iff_eq_or_lt.mp (show 0 ≤ y + (m - 1) / 12 by omega) with heq | hpos
  · -- only the month 0 of the year 1 is carried to the year 0, to its last month
    have hm : (m - 1) % 12 + 1 = 12 := by omega
    have hlast : daysBeforeMonth 0 12 = 335 := by decide
    rw [← heq, hm, dayNumberOf, hlast]
    omega
  · have hstart := daysBeforeYear_mono (show 1 ≤ y + (m - 1) / 12 by omega)
    have hone : daysBeforeYear 1 = 0 := by decide
    have hmono := daysBeforeMonth_mono (y + (m - 1) / 12) (le_refl 1)
      (show 1 ≤ (m - 1) % 12 + 1 by omega)
    rw [daysBeforeMonth_one] at hmono
    unfold dayNumberOf
    omega

end Fields

section Moves

variable (now : Date)

theorem calcDate_days (date days : Int) :
    calcDate now date 0 0 days =
      getYMD (Date.ofDayNumber ((getDate now date).dayNumber + days)) := by
  rw [calcDate, addDate_days]

/-- Two moves are one, if the date in between is not before the year 0. -/
theorem calcDate_calcDate (date a b : Int)
    (h : 0 ≤ (Date.ofDayNumber ((getDate now date).dayNumber + a)).year) :
    calcDate now (calcDate now date 0 0 a) 0 0 b = calcDate now date 0 0 (a + b) := by
  rw [calcDate_days now date a, calcDate_days, getDate_getYMD now _ h, dayNumber_ofDayNumber,
    calcDate_days, Int.add_assoc]

/-- A number from 10000 on is the encoding of a date exactly if reading and encoding gives it back;
what is given back is the encoding of a date from the year 0 on, and is given back itself. The
encoding keeps the order of the dates. A move by days goes to the date that is that many days off,
and moves are added up if the dates that are reached are in positive years, from every date. -/
theorem encoding_laws :
    (∀ d, 10000 ≤ d →
      (getYMD (getDate now d) = d ↔ ∃ t : Date, getYMD t = d) ∧
      (∃ t : Date, 0 ≤ t.year ∧ getYMD (getDate now d) = getYMD t) ∧
      getYMD (getDate now (getYMD (getDate now d))) = getYMD (getDate now d)) ∧
    (∀ t t' : Date, 0 < t.year → 0 < t'.year →
      (t.dayNumber < t'.dayNumber ↔ getYMD t < getYMD t')) ∧
    (∀ date days, calcDate now date 0 0 days =
      getYMD (Date.ofDayNumber ((getDate now date).dayNumber + days))) ∧
    (∀ date a b, 0 < (addDate (getDate now date) 0 0 a).year →
      calcDate now (calcDate now date 0 0 a) 0 0 b = calcDate now date 0 0 (a + b)) := by
  refine ⟨fun d hd => ⟨⟨fun h => ⟨_, h⟩, ?_⟩, ⟨_, getDate_year_nonneg now hd, rfl⟩, ?_⟩, ?_,
    calcDate_days now, ?_⟩
  · rintro ⟨t, rfl⟩
    rw [getDate_getYMD now t ((getYMD_pos_iff t).mp (by omega))]
  · rw [getDate_getYMD now _ (getDate_year_nonneg now hd)]
  · intro t t' _ _
    exact (getYMD_lt_iff t t').symm
  · intro date a b h
    rw [addDate_days] at h
    exact calcDate_calcDate now date a b h.le

example : calcDate (Date.ofDayNumber 0) 20210910 0 0 (-1) = 20210909 := by decide +kernel

theorem calcNatureYear_eq (t : Date) (h : 0 ≤ t.year) (deltaYear : Int) :
    calcNatureYear now (getYMD t) deltaYear = (t.year + deltaYear) * 10000 + 101 := by
  have hfields := fields_mem t
  have hpos := (getYMD_pos_iff t).mpr h
  have hyear : getYMD t / 10000 = t.year := by
    unfold getYMD
    omega
  simp only [calcNatureYear, if_neg (show ¬ getYMD t ≤ 0 by omega)]
  rw [Int.tdiv_eq_ediv_of_nonneg hpos.le, hyear]
  omega

end Moves

end HakunaMatata.DateCalc
