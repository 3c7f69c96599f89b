set_option autoImplicit false

/-!
# The calendar

Days counted from 1 January 1970 and dates of the Gregorian calendar, extended
to all years before and after.  Year 0 is a leap year.
-/

namespace Marginalia.Time

/-- A day of the calendar. -/
structure Date where
  year : Int
  month : Nat
  day : Nat
  deriving DecidableEq, Repr, Inhabited

/-- Whether a year has 366 days. -/
def isLeapYear (y : Int) : Bool := y % 4 == 0 && (y % 100 != 0 || y % 400 == 0)

/-- The days between the start of year 0 and the start of a year, less one:
year 1 starts 365 days later than the count's origin. -/
def daysBeforeYear (y : Int) : Int :=
  365 * y + (y - 1) / 4 - (y - 1) / 100 + (y - 1) / 400

/-- The lengths of the twelve months. -/
def monthLengths (leap : Bool) : List Nat :=
  [31, if leap then 29 else 28, 31, 30, 31, 30, 31, 31, 30, 31, 30, 31]

/-- The number of days in a month, zero for a number that names no month. -/
def daysInMonth (leap : Bool) (month : Nat) : Nat :=
  if month = 0 then 0 else (monthLengths leap).getD (month - 1) 0

/-- The number of days in months of the given lengths. -/
def daysOf : List Nat → Nat
  | [] => 0
  | length :: rest => length + daysOf rest

/-- The count of `daysBeforeYear` at 1 January 1970. -/
def epochDays : Int := daysBeforeYear 1970

/-- The year that a day of `daysBeforeYear`'s count falls in.  The mean length of
a year gives a guess that is at most one off. -/
def yearOf (n : Int) : Int :=
  let guess := 400 * n / 146097
  if daysBeforeYear (guess + 1) ≤ n then guess + 1
  else if daysBeforeYear guess ≤ n then guess
  else guess - 1

/-- The month and the day in it of the `n`-th day of the months listed, the
first of which has the given number. -/
def splitMonth : List Nat → Nat → Nat → Nat × Nat
  | [], month, n => (month, n + 1)
  | length :: rest, month, n =>
    if n < length then (month, n + 1) else splitMonth rest (month + 1) (n - length)

namespace Date

/-- The date a number of days after 1 January 1970. -/
def ofEpochDay (days : Int) : Date :=
  let n := days + epochDays
  let year := yearOf n
  let inYear := (n - daysBeforeYear year).toNat
  let (month, day) := splitMonth (monthLengths (isLeapYear year)) 1 inYear
  ⟨year, month, day⟩

/-- The number of days from 1 January 1970 to a date. -/
def toEpochDay (d : Date) : Int :=
  daysBeforeYear d.year + daysOf ((monthLengths (isLeapYear d.year)).take (d.month - 1))
    + d.day - 1 - epochDays

/-- Whether month and day exist in the year. -/
def isValid (d : Date) : Bool :=
  1 ≤ d.month && d.month ≤ 12 && 1 ≤ d.day && d.day ≤ daysInMonth (isLeapYear d.year) d.month

end Date

end Marginalia.Time
