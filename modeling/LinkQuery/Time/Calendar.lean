/-!
# Calendar

The Gregorian calendar, extended to all years before its introduction and with a year 0. Days are
numbered from 0001-01-01, a Monday, which is day 0.

- `Date.dayNumber`: the number of a date.
- `Date.ofDayNumber`: the date with a given number.
-/
namespace LinkQuery.Time

/-- A leap year has a 29 February. -/
def isLeapYear (year : Int) : Bool :=
  year % 4 == 0 && (year % 100 != 0 || year % 400 == 0)

/-- The number of the first day of a year. -/
def yearStart (year : Int) : Int :=
  let before := year - 1
  365 * before + before / 4 - before / 100 + before / 400

/-- The lengths of the months of a year. -/
def monthLengths (leap : Bool) : List Nat :=
  [31, if leap then 29 else 28, 31, 30, 31, 30, 31, 31, 30, 31, 30, 31]

/-- The number of days of a month, 0 for a month that does not exist. -/
def monthLength (year : Int) (month : Nat) : Nat :=
  if month = 0 then 0 else ((monthLengths (isLeapYear year))[month - 1]?).getD 0

/-- The number of days of a year in front of a month. -/
def daysBeforeMonth (year : Int) (month : Nat) : Nat :=
  ((monthLengths (isLeapYear year)).take (month - 1)).foldl Nat.add 0

/-- A day of the calendar; months and days count from 1. -/
structure Date where
  year : Int
  month : Nat
  day : Nat
deriving Repr, DecidableEq

namespace Date

/-- The first and last year that dates are kept in. -/
def firstYear : Int := -262143
def lastYear : Int := 262142

/-- The date exists and lies in the years that dates are kept in. -/
def isValid (d : Date) : Bool :=
  firstYear ≤ d.year && d.year ≤ lastYear && 1 ≤ d.day && d.day ≤ monthLength d.year d.month

/-- The number of a date. -/
def dayNumber (d : Date) : Int :=
  yearStart d.year + daysBeforeMonth d.year d.month + d.day - 1

/-- The year that a day lies in: a first guess from the mean length of a year, corrected by one. -/
def yearOf (dayNumber : Int) : Int :=
  let guess := dayNumber * 400 / 146097 + 1
  if dayNumber < yearStart guess then guess - 1
  else if yearStart (guess + 1) ≤ dayNumber then guess + 1
  else guess

/-- Month and day of the day that stands `days` days after the start of the month `month`. -/
def monthAndDay (month : Nat) : List Nat → Nat → Nat × Nat
  | [], days => (month, days + 1)
  | length :: lengths, days =>
    if days < length then (month, days + 1) else monthAndDay (month + 1) lengths (days - length)

/-- The date of a day. -/
def ofDayNumber (n : Int) : Date :=
  let year := yearOf n
  let (month, day) := monthAndDay 1 (monthLengths (isLeapYear year)) (n - yearStart year).toNat
  ⟨year, month, day⟩

/-- The date `count` months later, on the last day of a month that is too short. -/
def addMonths (d : Date) (count : Int) : Date :=
  let months := d.year * 12 + ((d.month : Int) - 1) + count
  let year := months / 12
  let month := (months % 12).toNat + 1
  ⟨year, month, min d.day (monthLength year month)⟩

end Date

/-- The days since the last Monday. -/
def daysSinceMonday (dayNumber : Int) : Int :=
  dayNumber % 7

end LinkQuery.Time
