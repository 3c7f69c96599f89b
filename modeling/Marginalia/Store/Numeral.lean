import Marginalia.Text.Decimal

set_option autoImplicit false

/-!
# Numbers that texts look like

A number column makes a number of a text that looks like one: digits with a sign
before them, a point among them and an exponent after them, and white space
around all of it.  The number is an approximation.  Of the digits it takes what
a word of 64 bits holds, it scales them by powers of ten with 64 significant
bits, and what comes out has 53.
-/

namespace Marginalia.Numeral

open Marginalia.Text

/-! ## Rounding -/

/-- A number times a power of two. -/
def timesPower (x : Rat) (e : Int) : Rat :=
  if 0 ≤ e then x * (Nat.pow 2 e.toNat : Nat) else x / (Nat.pow 2 e.natAbs : Nat)

/-- The exponent of the largest power of two that is not above a positive number. -/
def exponentOf (x : Rat) : Int :=
  let e : Int := (x.num.natAbs.log2 : Int) - (x.den.log2 : Int)
  if timesPower 1 e ≤ x then e else e - 1

/-- The whole number nearest to a number, and of two the even one. -/
def nearest (x : Rat) : Int :=
  let below := x.floor
  let rest := x - below
  if rest < mkRat 1 2 || (rest == mkRat 1 2 && below % 2 == 0) then below else below + 1

/-- How exact a binary number is: its significant bits, and the exponent of the
smallest step it can make. -/
structure Precision where
  bits : Nat
  least : Int
  deriving DecidableEq, Repr

namespace Precision

/-- The precision of a product on the way to a number. -/
def working : Precision := ⟨64, -16445⟩

/-- The precision of a number in a column. -/
def stored : Precision := ⟨53, -1074⟩

/-- The nearest number of a precision, for a number that is not negative. -/
def round (p : Precision) (x : Rat) : Rat :=
  if x ≤ 0 then 0
  else
    let step := max (exponentOf x + 1 - p.bits) p.least
    timesPower (nearest (timesPower x (-step))) step

end Precision

/-! ## Digits and exponents -/

/-- A number as digits and the power of ten they are counted in. -/
structure Scaled where
  digits : Nat
  exponent : Int
  deriving DecidableEq, Repr, Inhabited

namespace Scaled

/-- Digits are taken as long as the number they make is below this. -/
def digitLimit : Nat := 1844674407370955160

/-- Takes a digit of the whole part. -/
def takeWhole (s : Scaled) (c : Char) : Scaled :=
  if s.digits < digitLimit then ⟨10 * s.digits + digitValue c, s.exponent⟩
  else ⟨s.digits, s.exponent + 1⟩

/-- Takes a digit after the point. -/
def takePart (s : Scaled) (c : Char) : Scaled :=
  if s.digits < digitLimit then ⟨10 * s.digits + digitValue c, s.exponent - 1⟩ else s

/-- The same number in smaller powers of ten, as long as the digits fit. -/
def spread : Nat → Scaled → Scaled
  | 0, s => s
  | bound + 1, s =>
    if 0 < s.exponent && s.digits < 1844674407370955161 then
      spread bound ⟨10 * s.digits, s.exponent - 1⟩
    else s

/-- The same number without zeros at the end of what lies after the point. -/
def shorten : Nat → Scaled → Scaled
  | 0, s => s
  | bound + 1, s =>
    if s.exponent < 0 && s.digits % 10 == 0 then shorten bound ⟨s.digits / 10, s.exponent + 1⟩
    else s

/-- Multiplies a number a number of times, each product kept to the working
precision. -/
def multiply (factor : Rat) : Nat → Rat → Rat
  | 0, x => x
  | count + 1, x => multiply factor count (Precision.working.round (x * factor))

/-- Multiplies a number by a power of ten in steps of a hundred powers, ten and
one. -/
def scaleUp (count : Nat) (power : Nat → Rat) (x : Rat) : Rat :=
  let factor (n : Nat) := Precision.working.round (power n)
  multiply (factor 1) (count % 10)
    (multiply (factor 10) (count % 100 / 10) (multiply (factor 100) (count / 100) x))

/-- The largest number a column can hold. -/
def largest : Rat := timesPower (Nat.pow 2 53 - 1 : Nat) 971

/-- The number as a column holds it; none if it is too large. -/
def toStored? (s : Scaled) : Option Rat :=
  if s.digits = 0 then some 0
  else
    let s := shorten 20 (spread 20 s)
    if s.exponent = 0 then some (Precision.stored.round (s.digits : Rat))
    else
      let power (n : Nat) : Rat := (Nat.pow 10 n : Nat)
      let power := if 0 < s.exponent then power else fun n => 1 / power n
      let x := scaleUp s.exponent.natAbs power (Precision.working.round (s.digits : Rat))
      if largest < x then none else some (Precision.stored.round x)

end Scaled

/-! ## Reading -/

/-- A text that looks like a number. -/
structure Reading where
  /-- whether a minus sign stands in front -/
  negative : Bool
  /-- the digits before the point -/
  whole : List Char
  /-- the digits after the point -/
  part : List Char
  /-- whether there are digits alone -/
  plain : Bool
  exponent : Int
  deriving DecidableEq, Repr, Inhabited

/-- Whether a character may surround a number in a text. -/
def isPadding (c : Char) : Bool :=
  c == ' ' || c == '\t' || c == '\n' || c == '\x0b' || c == '\x0c' || c == '\r'

/-- A sign in front of a number, and the rest. -/
def splitSign : List Char → Bool × List Char
  | '-' :: s => (true, s)
  | '+' :: s => (false, s)
  | s => (false, s)

/-- An exponent, held within bounds that no column value needs. -/
def exponent? (s : List Char) : Option Int :=
  match s with
  | [] => some 0
  | c :: t =>
    if c == 'e' || c == 'E' then
      let (negative, digits) := splitSign t
      (readDecimal? digits).map fun n =>
        let bounded : Int := (min n 10000 : Nat)
        if negative then -bounded else bounded
    else none

/-- Reads a text that looks like a number. -/
def read? (s : String) : Option Reading :=
  let trimmed := ((s.toList.dropWhile isPadding).reverse.dropWhile isPadding).reverse
  let (negative, body) := splitSign trimmed
  let whole := body.takeWhile isDigit
  let after := body.dropWhile isDigit
  let (part, rest) := match after with
    | '.' :: t => (t.takeWhile isDigit, t.dropWhile isDigit)
    | t => ([], t)
  if whole.isEmpty && part.isEmpty then none
  else (exponent? rest).map fun e => ⟨negative, whole, part, after.isEmpty, e⟩

namespace Reading

/-- The number in a text of digits alone. -/
def toInt (r : Reading) : Int :=
  let n : Int := (digitsValue r.whole 0 : Nat)
  if r.negative then -n else n

/-- The number in a text as a column holds it, without its sign; none if it is
too large. -/
def toStored? (r : Reading) : Option Rat :=
  let s := r.part.foldl Scaled.takePart (r.whole.foldl Scaled.takeWhole ⟨0, 0⟩)
  Scaled.toStored? ⟨s.digits, s.exponent + r.exponent⟩

end Reading

end Marginalia.Numeral
