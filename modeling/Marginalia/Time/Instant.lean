import Marginalia.Time.Calendar

set_option autoImplicit false

/-!
# Instants

A point in time is a count of seconds since 1970 and nanoseconds into the
second, without a time zone.  Nanoseconds from one to two thousand million say
that the instant lies in a leap second inserted after the counted one.
-/

namespace Marginalia.Time

/-- A point in time. -/
structure Instant where
  seconds : Int
  nanos : Nat
  deriving DecidableEq, Repr, Inhabited

/-- A point in time as a clock in UTC shows it; the second is 60 inside a leap
second. -/
structure ClockTime where
  date : Date
  hour : Nat
  minute : Nat
  second : Nat
  nanos : Nat
  deriving DecidableEq, Repr, Inhabited

/-- Nanoseconds in a second. -/
def nanosPerSecond : Nat := 1000000000

/-- Nanoseconds in a microsecond. -/
def nanosPerMicro : Nat := 1000

namespace Instant

/-- Whether an instant lies in a leap second. -/
def isLeap (t : Instant) : Bool := nanosPerSecond ≤ t.nanos

/-- Whether one instant is not after another. -/
def notAfter (a b : Instant) : Bool :=
  a.seconds < b.seconds || (a.seconds == b.seconds && a.nanos ≤ b.nanos)

/-- The later of two instants. -/
def latest (a b : Instant) : Instant := if a.notAfter b then b else a

/-- The instant one microsecond later.  A leap second is left only when its
nanoseconds are used up. -/
def nextMicro (t : Instant) : Instant :=
  let nanos := t.nanos + nanosPerMicro
  if t.isLeap then
    if nanos < 2 * nanosPerSecond then ⟨t.seconds, nanos⟩
    else ⟨t.seconds + 1, nanos - 2 * nanosPerSecond⟩
  else if nanos < nanosPerSecond then ⟨t.seconds, nanos⟩
  else ⟨t.seconds + 1, nanos - nanosPerSecond⟩

/-- What a clock in UTC shows. -/
def toClock (t : Instant) : ClockTime :=
  let inDay := (t.seconds % 86400).toNat
  { date := Date.ofEpochDay (t.seconds / 86400)
    hour := inDay / 3600
    minute := inDay / 60 % 60
    second := inDay % 60 + t.nanos / nanosPerSecond
    nanos := t.nanos % nanosPerSecond }

/-- The instant at which a clock in UTC shows a time.  Second 60 is the leap
second after second 59. -/
def ofClock (c : ClockTime) : Instant :=
  let second := if c.second = 60 then 59 else c.second
  let nanos := if c.second = 60 then c.nanos + nanosPerSecond else c.nanos
  ⟨c.date.toEpochDay * 86400 + (c.hour * 3600 + c.minute * 60 + second : Nat), nanos⟩

/-- The year in UTC. -/
def year (t : Instant) : Int := t.toClock.date.year

end Instant

end Marginalia.Time
