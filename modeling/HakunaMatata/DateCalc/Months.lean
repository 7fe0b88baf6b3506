import HakunaMatata.DateCalc.Encoding

/-!
# Months

`calcNatureMonth` takes whole years off a move only if it is longer than a year, and it adds the
rest to the field of the month without a carry. A move of `deltaMonth` months changes the number
`yyyymm` by `88 * yearPart deltaMonth + deltaMonth` (`calcNatureMonth_eq`), where it should change
by 88 for every year that is crossed. So a move is right exactly if the field of the month stays
within the year, and two moves are added up exactly if the years that are taken off are.
-/

namespace HakunaMatata.DateCalc

open Base

/-- The number of a month, from the first one of the year 0 on. -/
def monthIndex (t : Date) : Int :=
  12 * t.year + t.month - 1

/-- The encoding of the first day of a month. -/
def monthDate (index : Int) : Int :=
  index / 12 * 10000 + (index % 12 + 1) * 100 + 1

/-- The field of the month. -/
def monthField (date : Int) : Int :=
  date % 10000 / 100

theorem parts_eq (deltaMonth : Int) :
    12 * yearPart deltaMonth + monthPart deltaMonth = deltaMonth ∧
      -12 ≤ monthPart deltaMonth ∧ monthPart deltaMonth ≤ 12 := by
  unfold yearPart monthPart
  split_ifs with hlong
  · have hsplit := Int.mul_tdiv_add_tmod deltaMonth 12
    have habs : (deltaMonth.tmod 12).natAbs < 12 := by
      rw [Int.natAbs_tmod]
      exact Nat.mod_lt _ (by decide)
    omega
  · omega

variable (now : Date)

theorem calcNatureMonth_eq {date : Int} (h : 0 < date) (deltaMonth : Int) :
    calcNatureMonth now date deltaMonth =
      (date / 100 + 88 * yearPart deltaMonth + deltaMonth) * 100 + 1 := by
  have hparts := (parts_eq deltaMonth).1
  have hmod : 0 ≤ date % 10000 := Int.emod_nonneg date (by decide)
  simp only [calcNatureMonth, if_neg (show ¬ date ≤ 0 by omega), Int.tdiv_eq_ediv_of_nonneg h.le,
    Int.tmod_eq_emod_of_nonneg h.le, Int.tdiv_eq_ediv_of_nonneg hmod]
  omega

theorem getYMD_div (t : Date) : getYMD t / 100 = 88 * t.year + monthIndex t + 1 := by
  have hfields := fields_mem t
  unfold getYMD monthIndex
  omega

theorem calcNatureMonth_pos {t : Date} (ht : 0 < t.year) {deltaMonth : Int}
    (h : 0 < (monthIndex t + deltaMonth) / 12) :
    0 < calcNatureMonth now (getYMD t) deltaMonth := by
  have hparts := parts_eq deltaMonth
  have hmonth := t.month_mem
  rw [calcNatureMonth_eq now ((getYMD_pos_iff t).mpr ht.le), getYMD_div]
  unfold monthIndex at *
  omega

/-- The result is the encoding of the month that is reached, exactly if the field of the month is
between 1 and 12, and this field is the month of the date and the months that are left. -/
theorem calcNatureMonth_right_iff {t : Date} (ht : 0 < t.year) (deltaMonth : Int) :
    calcNatureMonth now (getYMD t) deltaMonth = monthDate (monthIndex t + deltaMonth) ↔
      1 ≤ t.month + monthPart deltaMonth ∧ t.month + monthPart deltaMonth ≤ 12 := by
  have hparts := (parts_eq deltaMonth).1
  rw [calcNatureMonth_eq now ((getYMD_pos_iff t).mpr ht.le), getYMD_div]
  unfold monthDate monthIndex
  omega

theorem monthField_monthDate (index : Int) :
    1 ≤ monthField (monthDate index) ∧ monthField (monthDate index) ≤ 12 := by
  unfold monthField monthDate
  omega

/-- Two moves are one exactly if the years that are taken off are added up. -/
theorem calcNatureMonth_add_iff {t : Date} (ht : 0 < t.year) {a : Int}
    (ha : 0 < (monthIndex t + a) / 12) (b : Int) :
    calcNatureMonth now (calcNatureMonth now (getYMD t) a) b =
      calcNatureMonth now (getYMD t) (a + b) ↔ yearPart a + yearPart b = yearPart (a + b) := by
  have hpos := (getYMD_pos_iff t).mpr ht.le
  have hbetween := calcNatureMonth_pos now ht ha
  rw [calcNatureMonth_eq now hbetween, calcNatureMonth_eq now hpos, calcNatureMonth_eq now hpos]
  omega

/-- For a date of a positive year and a move to a month of a positive year, the result is the
encoding of the month that is reached, with a field between 1 and 12, exactly if the date's month
and the part of the move that is not taken off as years add up to a month of the year. Two such
moves are one exactly if the years that are taken off are added up. -/
theorem month_laws_iff (t : Date) (ht : 0 < t.year) (a b : Int)
    (ha : 0 < (monthIndex t + a) / 12) :
    ((calcNatureMonth now (getYMD t) a = monthDate (monthIndex t + a) ∧
        1 ≤ monthField (calcNatureMonth now (getYMD t) a) ∧
        monthField (calcNatureMonth now (getYMD t) a) ≤ 12) ↔
      1 ≤ t.month + monthPart a ∧ t.month + monthPart a ≤ 12) ∧
    (calcNatureMonth now (calcNatureMonth now (getYMD t) a) b =
        calcNatureMonth now (getYMD t) (a + b) ↔
      yearPart a + yearPart b = yearPart (a + b)) := by
  refine ⟨⟨?_, ?_⟩, calcNatureMonth_add_iff now ht ha b⟩
  · rintro ⟨hright, _⟩
    exact (calcNatureMonth_right_iff now ht a).mp hright
  · intro hfield
    have hright := (calcNatureMonth_right_iff now ht a).mpr hfield
    rw [hright]
    exact ⟨rfl, monthField_monthDate _⟩

/-- From the tenth of September 2021 by one month, and then by two. -/
theorem month_laws_iff_september :
    ∃ t : Date, getYMD t = 20210910 ∧ 0 < t.year ∧ 0 < (monthIndex t + 1) / 12 ∧
      calcNatureMonth t (getYMD t) 1 = monthDate (monthIndex t + 1) ∧
      calcNatureMonth t (calcNatureMonth t (getYMD t) 1) 2 =
        calcNatureMonth t (getYMD t) (1 + 2) := by
  refine ⟨⟨2021, 9, 10, by decide, by decide⟩, by decide, by decide, by decide, ?_⟩
  have hlaws := month_laws_iff ⟨2021, 9, 10, by decide, by decide⟩
    ⟨2021, 9, 10, by decide, by decide⟩ (by decide) 1 2 (by decide)
  exact ⟨(hlaws.1.mpr (by decide)).1, hlaws.2.mpr (by decide)⟩

/-- From the tenth of December 2021, one month on is the month 13 of 2021 and not January 2022; and
twelve months and then one more are not thirteen. -/
theorem month_laws_lost :
    ∃ t : Date, getYMD t = 20211210 ∧ calcNatureMonth t 20211210 1 = 20211301 ∧
      monthDate (monthIndex t + 1) = 20220101 ∧
      calcNatureMonth t (calcNatureMonth t 20211210 12) 1 = 20212501 ∧
      calcNatureMonth t 20211210 (12 + 1) = 20221301 :=
  ⟨⟨2021, 12, 10, by decide, by decide⟩, by decide, by decide, by decide, by decide, by decide⟩

end HakunaMatata.DateCalc
