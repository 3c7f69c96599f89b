import Marginalia.Text.Decimal
import Marginalia.Time.Instant

set_option autoImplicit false

/-!
# Timestamps as text

Writing and reading of RFC 3339 timestamps.  Years outside 0 to 9999 are
written with a sign, which no reader of the format accepts back.
-/

namespace Marginalia.Time

open Marginalia.Text

/-- How the fraction of a second is written. -/
inductive Fraction where
  /-- no digits, or as many groups of three as the value needs -/
  | asNeeded
  /-- always six digits; what lies below a microsecond is cut -/
  | micros
  deriving DecidableEq, Repr, Inhabited

/-- A year in four digits, or with a sign when four digits do not hold it. -/
def yearText (y : Int) : List Char :=
  if 0 ≤ y && y ≤ 9999 then padded 4 y.natAbs
  else (if y < 0 then '-' else '+') :: padded 4 y.natAbs

/-- The fraction of a second with its point. -/
def fractionText (fraction : Fraction) (nanos : Nat) : List Char :=
  match fraction with
  | .micros => '.' :: padded 6 (nanos / nanosPerMicro)
  | .asNeeded =>
    if nanos = 0 then []
    else if nanos % 1000000 = 0 then '.' :: padded 3 (nanos / 1000000)
    else if nanos % 1000 = 0 then '.' :: padded 6 (nanos / 1000)
    else '.' :: padded 9 nanos

/-- Year, month and day with hyphens. -/
def dateText (d : Date) : List Char :=
  yearText d.year ++ '-' :: padded 2 d.month ++ '-' :: padded 2 d.day

/-- Hour and minute with a colon. -/
def hourMinuteText (c : ClockTime) : List Char := padded 2 c.hour ++ ':' :: padded 2 c.minute

namespace Instant

/-- Date and time up to the fraction of the second, joined by `T`. -/
def localText (fraction : Fraction) (t : Instant) : List Char :=
  let c := t.toClock
  dateText c.date ++ 'T' :: hourMinuteText c ++ ':' :: padded 2 c.second
    ++ fractionText fraction c.nanos

/-- The timestamp with the offset written as `+00:00`. -/
def toOffsetText (t : Instant) : String :=
  String.ofList (t.localText .asNeeded ++ "+00:00".toList)

/-- The timestamp with the offset written as `Z`. -/
def toZuluText (t : Instant) : String := String.ofList (t.localText .asNeeded ++ ['Z'])

/-- The timestamp in whole microseconds, as it is stored. -/
def toStoredText (t : Instant) : String := String.ofList (t.localText .micros ++ ['Z'])

/-- Date, hour and minute, joined by a blank. -/
def toMinuteText (t : Instant) : String :=
  String.ofList (dateText t.toClock.date ++ ' ' :: hourMinuteText t.toClock)

/-- Date, hour, minute and second, joined by a blank. -/
def toSecondText (t : Instant) : String :=
  String.ofList (dateText t.toClock.date ++ ' ' :: hourMinuteText t.toClock ++
    ':' :: padded 2 t.toClock.second)

end Instant

/-! ## Reading

Each step takes its part off the front of the text and hands on the rest. -/

/-- Reads exactly `count` digits. -/
def readDigits (count : Nat) (s : List Char) : Option (Nat × List Char) :=
  let digits := s.take count
  if digits.length = count && digits.all isDigit then some (digitsValue digits 0, s.drop count)
  else none

/-- Reads one character that satisfies a test. -/
def readChar (accept : Char → Bool) : List Char → Option (List Char)
  | c :: s => if accept c then some s else none
  | [] => none

/-- Reads the fraction of a second, if there is one.  Nine digits count. -/
def readFraction : List Char → Option (Nat × List Char)
  | '.' :: s =>
    let digits := s.takeWhile isDigit
    if digits.isEmpty then none
    else
      let kept := digits.take 9
      some (digitsValue kept 0 * Nat.pow 10 (9 - kept.length), s.drop digits.length)
  | s => some (0, s)

/-- Reads an offset from UTC, in minutes. -/
def readOffset : List Char → Option (Int × List Char)
  | [] => none
  | sign :: s =>
    if sign = 'Z' || sign = 'z' then some (0, s)
    else if sign = '+' || sign = '-' || sign = '\u2212' then do
      let (hours, s) ← readDigits 2 s
      let s ← readChar (· == ':') s
      let (minutes, s) ← readDigits 2 s
      if minutes ≤ 59 && hours ≤ 23 then
        let size : Int := (hours * 60 + minutes : Nat)
        some (if sign = '+' then size else -size, s)
      else none
    else none

/-- Reads a timestamp and moves it to UTC.  Nothing may follow it. -/
def Instant.read? (text : List Char) : Option Instant := do
  let (year, s) ← readDigits 4 text
  let s ← readChar (· == '-') s
  let (month, s) ← readDigits 2 s
  let s ← readChar (· == '-') s
  let (day, s) ← readDigits 2 s
  let s ← readChar (fun c => c == 'T' || c == 't' || c == ' ') s
  let (hour, s) ← readDigits 2 s
  let s ← readChar (· == ':') s
  let (minute, s) ← readDigits 2 s
  let s ← readChar (· == ':') s
  let (second, s) ← readDigits 2 s
  let (nanos, s) ← readFraction s
  let (offset, s) ← readOffset s
  let date : Date := ⟨year, month, day⟩
  if s.isEmpty && date.isValid && hour ≤ 23 && minute ≤ 59 && second ≤ 60 then
    let shown := Instant.ofClock ⟨date, hour, minute, second, nanos⟩
    some ⟨shown.seconds - offset * 60, shown.nanos⟩
  else none

end Marginalia.Time
