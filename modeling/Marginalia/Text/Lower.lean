import Marginalia.Text.CaseIgnorable
import Marginalia.Text.CaseShift
import Marginalia.Text.Cased

set_option autoImplicit false

/-!
# Lowering a text

Full lower-casing as Unicode defines it.  Almost every character has one
lowered form.  Two rules go beyond that: the dotted capital I becomes a small i
followed by a combining dot, and a capital sigma becomes the final sigma when
it closes a word.
-/

namespace Marginalia.Text

/-- Whether a character has letter case. -/
def isCased (c : Char) : Bool := inStretches casedStretches c.toNat

/-- Whether a character is passed over when the letter next to it is looked
for. -/
def isCaseIgnorable (c : Char) : Bool := inStretches caseIgnorableStretches c.toNat

/-- Whether the first character that case does not ignore is a cased one. -/
def meetsCased (s : List Char) : Bool :=
  match s.dropWhile isCaseIgnorable with
  | c :: _ => isCased c
  | [] => false

/-- The lowered form of a character that has just one. -/
def lowerChar (c : Char) : Char := Char.ofNat (CaseShift.move lowerShifts c.toNat)

/-- The lowered form of a character between the text before it, given
backwards, and the text after it. -/
def lowerBetween (before : List Char) (c : Char) (after : List Char) : List Char :=
  if c = 'Σ' then
    if meetsCased before && !meetsCased after then ['ς'] else ['σ']
  else if c = 'İ' then ['i', '\u0307']
  else [lowerChar c]

/-- Lowers a text that follows the given one, which is held backwards. -/
def lowerAfter : List Char → List Char → List Char
  | _, [] => []
  | before, c :: after => lowerBetween before c after ++ lowerAfter (c :: before) after

/-- The lowered form of a text. -/
def lower (s : List Char) : List Char := lowerAfter [] s

/-- Lowers the capitals A to Z only. -/
def lowerAscii (s : List Char) : List Char :=
  s.map fun c => if 'A' ≤ c && c ≤ 'Z' then Char.ofNat (c.toNat + 32) else c

end Marginalia.Text
