/-!
# The Gregorian calendar

Dates of the proleptic Gregorian calendar, with a year zero, and their numbering
by days from 1970-01-01.  Years are counted from March, so that the leap day is
the last day of a year, and in eras of 400 years, which all have 146097 days.
-/

namespace JsonTypedef

/-- A day of the calendar. -/
structure Date where
  year : Int
  month : Nat
  day : Nat
deriving DecidableEq

namespace Date

/-- The year has a 29th of February. -/
def isLeapYear (year : Int) : Bool :=
  year % 4 = 0 && (year % 100 ≠ 0 || year % 400 = 0)

/-- The number of days of a month, zero for a month that does not exist. -/
def daysInMonth (year : Int) (month : Nat) : Nat :=
  match month with
  | 1 | 3 | 5 | 7 | 8 | 10 | 12 => 31
  | 4 | 6 | 9 | 11 => 30
  | 2 => if isLeapYear year then 29 else 28
  | _ => 0

/-- The calendar has the day. -/
def isValid (d : Date) : Bool :=
  1 ≤ d.day && d.day ≤ daysInMonth d.year d.month

/-- The number of days from 1970-01-01 to a date. -/
def dayNumber (d : Date) : Int :=
  let year := if d.month ≤ 2 then d.year - 1 else d.year
  let era := year / 400
  let yearOfEra := year % 400
  let monthFromMarch : Int := ((d.month : Int) + 9) % 12
  let dayOfYear := (153 * monthFromMarch + 2) / 5 + (d.day : Int) - 1
  let dayOfEra := yearOfEra * 365 + yearOfEra / 4 - yearOfEra / 100 + dayOfYear
  era * 146097 + dayOfEra - 719468

/-- The date that lies the given number of days after 1970-01-01. -/
def ofDayNumber (n : Int) : Date :=
  let shifted := n + 719468
  let era := shifted / 146097
  let dayOfEra := shifted % 146097
  let yearOfEra :=
    (dayOfEra - dayOfEra / 1460 + dayOfEra / 36524 - dayOfEra / 146096) / 365
  let dayOfYear := dayOfEra - (365 * yearOfEra + yearOfEra / 4 - yearOfEra / 100)
  let monthFromMarch := (5 * dayOfYear + 2) / 153
  let day := dayOfYear - (153 * monthFromMarch + 2) / 5 + 1
  let month := if monthFromMarch < 10 then monthFromMarch + 3 else monthFromMarch - 9
  let year := yearOfEra + era * 400
  ⟨if month ≤ 2 then year + 1 else year, month.toNat, day.toNat⟩

end Date

end JsonTypedef
