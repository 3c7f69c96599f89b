import Marginalia.Text.Range

set_option autoImplicit false

/-!
# Blank characters and trimming

A character is blank when it has the Unicode property White_Space.  Trimming
drops blank characters from an end of a text and nothing else.
-/

namespace Marginalia.Text

/-- The stretches of blank characters. -/
def blankStretches : List (Nat × Nat) :=
  [(0x9, 0xd), (0x20, 0x20), (0x85, 0x85), (0xa0, 0xa0), (0x1680, 0x1680), (0x2000, 0x200a),
   (0x2028, 0x2029), (0x202f, 0x202f), (0x205f, 0x205f), (0x3000, 0x3000)]

/-- Whether a character is white space. -/
def isBlank (c : Char) : Bool := inStretches blankStretches c.toNat

/-- The text from its first character that is not blank. -/
def trimStart (s : List Char) : List Char := s.dropWhile isBlank

/-- The text up to its last character that is not blank. -/
def trimEnd (s : List Char) : List Char := (s.reverse.dropWhile isBlank).reverse

/-- The text without blank characters at either end. -/
def trim (s : List Char) : List Char := trimEnd (trimStart s)

/-- What is left of a text after trimming, if anything is. -/
def trimmed? (s : String) : Option String :=
  match trim s.toList with
  | [] => none
  | c :: rest => some (String.ofList (c :: rest))

end Marginalia.Text
