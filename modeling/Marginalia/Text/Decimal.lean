set_option autoImplicit false

/-!
# Whole numbers in decimal

Writing gives no leading zeros; reading takes any number of them and refuses a
text without digits.
-/

namespace Marginalia.Text

/-- The character of a digit below ten. -/
def digitChar (d : Nat) : Char := Char.ofNat ('0'.toNat + d)

/-- Whether a character is one of 0 to 9. -/
def isDigit (c : Char) : Bool := '0' ≤ c && c ≤ '9'

/-- The value of a digit. -/
def digitValue (c : Char) : Nat := c.toNat - '0'.toNat

/-- The decimal form of a number. -/
def decimal (n : Nat) : List Char :=
  if n < 10 then [digitChar n] else decimal (n / 10) ++ [digitChar (n % 10)]
termination_by n

/-- The decimal form of a number, with zeros in front up to a width. -/
def padded (width n : Nat) : List Char :=
  let digits := decimal n
  List.replicate (width - digits.length) '0' ++ digits

/-- The number that a run of digits stands for after a number read so far. -/
def digitsValue (digits : List Char) (soFar : Nat) : Nat :=
  digits.foldl (fun n c => 10 * n + digitValue c) soFar

/-- Reads a text that consists of digits. -/
def readDecimal? (s : List Char) : Option Nat :=
  if s.isEmpty || !s.all isDigit then none else some (digitsValue s 0)

/-- The decimal form of a number as a string. -/
def decimalString (n : Nat) : String := String.ofList (decimal n)

/-- The decimal form of a number of either sign. -/
def decimalInt (n : Int) : List Char :=
  if n < 0 then '-' :: decimal n.natAbs else decimal n.natAbs

end Marginalia.Text
