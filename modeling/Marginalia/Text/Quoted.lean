import Marginalia.Text.Range
import Marginalia.Text.Unprintable
import Marginalia.Text.Utf8

set_option autoImplicit false

/-!
# Quoted text

A text in double quotes on one line.  Backslash, the double quote and the
common controls are written with a backslash; a character without a visible
form of its own is written by its number, and so is a byte that is no character.
-/

namespace Marginalia.Text

/-- The hexadecimal digit of a number below sixteen, small letters. -/
def hexDigit (d : Nat) : Char :=
  if d < 10 then Char.ofNat ('0'.toNat + d) else Char.ofNat ('a'.toNat + (d - 10))

/-- The hexadecimal form of a number. -/
def hexadecimal (n : Nat) : List Char :=
  if n < 16 then [hexDigit n] else hexadecimal (n / 16) ++ [hexDigit (n % 16)]
termination_by n

/-- Whether a character is written by its number. -/
def isUnprintable (c : Char) : Bool :=
  decide (c.toNat < 0x20) || inStretches unprintableStretches c.toNat

/-- The written form of one character inside quotes. -/
def quoteChar (c : Char) : List Char :=
  match c with
  | '\x00' => ['\\', '0']
  | '\t' => ['\\', 't']
  | '\r' => ['\\', 'r']
  | '\n' => ['\\', 'n']
  | '\\' => ['\\', '\\']
  | '"' => ['\\', '"']
  | c => if isUnprintable c then ['\\', 'u', '\x7b'] ++ hexadecimal c.toNat ++ ['\x7d'] else [c]

/-- A string in double quotes. -/
def quoted (s : String) : String :=
  String.ofList (['"'] ++ s.toList.flatMap quoteChar ++ ['"'])

/-- The written form of a byte that is no character, which takes two digits. -/
def quoteByte (b : UInt8) : List Char :=
  ['\\', 'x'] ++ (hexadecimal b.toNat).map Char.toUpper

/-- The written form of a piece of bytes inside quotes. -/
def quotePiece : RawText.Piece → List Char
  | .char c => quoteChar c
  | .broken bytes => bytes.flatMap quoteByte

end Marginalia.Text

namespace Marginalia.RawText

/-- Bytes in double quotes. -/
def quoted (r : RawText) : String :=
  String.ofList (['"'] ++ r.pieces.flatMap Text.quotePiece ++ ['"'])

end Marginalia.RawText
