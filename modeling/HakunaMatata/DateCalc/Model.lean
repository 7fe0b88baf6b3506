import HakunaMatata.Base.Calendar

/-!
# Dates as decimal numbers, `date_utils.go`

A date is passed as the integer `yyyymmdd`. Of a `time.Time` only the date is modelled: no function
reads the clock time, and the location is UTC. `timeDate` and `addDate` are `time.Date` and
`Time.AddDate` of the package `time`, which carry months and days that are out of range. An integer
that is not positive stands for the current date, which is the parameter `now`.
-/

namespace HakunaMatata.DateCalc

open Base

/-- `time.Date`, at midnight. -/
def timeDate (year month day : Int) : Date :=
  Date.ofDayNumber (dayNumberOf (year + (month - 1) / 12) ((month - 1) % 12 + 1) day)

/-- `Time.AddDate`. -/
def addDate (t : Date) (years months days : Int) : Date :=
  timeDate (t.year + years) (t.month + months) (t.day + days)

inductive Weekday where
  | sunday
  | monday
  | tuesday
  | wednesday
  | thursday
  | friday
  | saturday
  deriving DecidableEq, Repr

/-- `Time.Weekday`: the day with the number 0 is a Monday. -/
def weekday (t : Date) : Weekday :=
  match (t.dayNumber % 7).toNat with
  | 0 => .monday
  | 1 => .tuesday
  | 2 => .wednesday
  | 3 => .thursday
  | 4 => .friday
  | 5 => .saturday
  | _ => .sunday

def getYMD (date : Date) : Int :=
  date.year * 10000 + date.month * 100 + date.day

def getDate (now : Date) (date : Int) : Date :=
  if date ≤ 0 then now
  else
    let y := date.tdiv 10000
    let m := (date.tmod 10000).tdiv 100
    let d := date.tmod 100
    timeDate y m d

def calcDate (now : Date) (date deltaYear deltaMonth deltaDay : Int) : Int :=
  getYMD (addDate (getDate now date) deltaYear deltaMonth deltaDay)

def calcNatureYear (now : Date) (date deltaYear : Int) : Int :=
  let date := if date ≤ 0 then getYMD now else date
  let y := date.tdiv 10000
  (y + deltaYear) * 10000 + 1 * 100 + 1

/-- The years that `CalcNatureMonth` takes off a number of months. -/
def yearPart (deltaMonth : Int) : Int :=
  if 12 < deltaMonth.natAbs then deltaMonth.tdiv 12 else 0

/-- The months that are left, which are added to the field of the month. -/
def monthPart (deltaMonth : Int) : Int :=
  if 12 < deltaMonth.natAbs then deltaMonth.tmod 12 else deltaMonth

def calcNatureMonth (now : Date) (date deltaMonth : Int) : Int :=
  let date := if date ≤ 0 then getYMD now else date
  let y := date.tdiv 10000
  let m := (date.tmod 10000).tdiv 100
  (y + yearPart deltaMonth) * 10000 + (m + monthPart deltaMonth) * 100 + 1

/-- The `switch` of `FirstDayOfWeek`. -/
def deltaDay : Weekday → Int
  | .sunday => -6
  | .monday => 0
  | .tuesday => -1
  | .wednesday => -2
  | .thursday => -3
  | .friday => -4
  | .saturday => -5

def firstDayOfWeek (now : Date) (date : Int) : Int :=
  let dateTime := getDate now date
  getYMD (addDate dateTime 0 0 (deltaDay (weekday dateTime)))

def calcNatureWeek (now : Date) (date deltaWeek : Int) : Int :=
  let date := firstDayOfWeek now date
  if deltaWeek ≠ 0 then calcDate now date 0 0 (deltaWeek * 7) else date

end HakunaMatata.DateCalc
