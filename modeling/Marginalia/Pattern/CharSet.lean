import Marginalia.Text.Blank
import Marginalia.Text.DecimalDigit
import Marginalia.Text.Fold
import Marginalia.Text.WordCharacter

set_option autoImplicit false

/-!
# Sets of characters in patterns

The set algebra that a bracketed class is written in.  A set is held as its
stretches of code points, in rising order and with a character between any two
of them, so that two sets with the same characters are equal.
-/

namespace Marginalia.Pattern

open Marginalia.Text

/-- A set of characters, as stretches of code points with both ends included. -/
structure CharSet where
  stretches : List (Nat × Nat)
  deriving DecidableEq, Repr, Inhabited

namespace CharSet

/-! ## Code points -/

/-- The largest code point. -/
def lastPoint : Nat := 0x10ffff

/-- The code point of the next character. -/
def next (n : Nat) : Nat := if n = 0xd7ff then 0xe000 else n + 1

/-- The code point of the character before. -/
def previous (n : Nat) : Nat := if n = 0xe000 then 0xd7ff else n - 1

/-- Whether a code point lies in stretches that are in rising order. -/
def covers : List (Nat × Nat) → Nat → Bool
  | [], _ => false
  | (first, last) :: rest, n => first ≤ n && (n ≤ last || covers rest n)

/-- Whether a character is in a set. -/
def holds (s : CharSet) (c : Char) : Bool := covers s.stretches c.toNat

/-! ## Making sets -/

/-- Stretches in rising order with one more, which may overlap or touch others. -/
def insert (first last : Nat) : List (Nat × Nat) → List (Nat × Nat)
  | [] => [(first, last)]
  | (a, b) :: rest =>
    if next last < a then (first, last) :: (a, b) :: rest
    else if next b < first then (a, b) :: insert first last rest
    else insert (min first a) (max last b) rest

/-- The set of the characters in some stretches. -/
def ofStretches (stretches : List (Nat × Nat)) : CharSet :=
  ⟨stretches.foldl (fun kept s => insert s.1 s.2 kept) []⟩

/-- The set without characters. -/
def empty : CharSet := ⟨[]⟩

/-- The set of all characters. -/
def any : CharSet := ⟨[(0, lastPoint)]⟩

/-- The characters between two, both included. -/
def range (first last : Char) : CharSet := ⟨[(first.toNat, last.toNat)]⟩

/-- The set of one character. -/
def single (c : Char) : CharSet := range c c

/-- The decimal digits of all scripts. -/
def digit : CharSet := ⟨decimalDigitStretches⟩

/-- White space. -/
def blank : CharSet := ⟨blankStretches⟩

/-- The characters of words. -/
def word : CharSet := ⟨wordStretches⟩

/-- The decimal digits of ASCII. -/
def asciiDigit : CharSet := ⟨[(0x30, 0x39)]⟩

/-- White space of ASCII. -/
def asciiBlank : CharSet := ⟨[(0x09, 0x0d), (0x20, 0x20)]⟩

/-- The characters of words of ASCII. -/
def asciiWord : CharSet := ⟨[(0x30, 0x39), (0x41, 0x5a), (0x5f, 0x5f), (0x61, 0x7a)]⟩

/-! ## Set operations -/

/-- The characters of either set. -/
def union (a b : CharSet) : CharSet :=
  ⟨b.stretches.foldl (fun kept s => insert s.1 s.2 kept) a.stretches⟩

/-- The gaps between stretches in rising order, from a code point on. -/
def gapsFrom (start : Nat) : List (Nat × Nat) → List (Nat × Nat)
  | [] => if start ≤ lastPoint then [(start, lastPoint)] else []
  | (first, last) :: rest =>
    if start < first then (start, previous first) :: gapsFrom (next last) rest
    else gapsFrom (next last) rest

/-- The characters that are not in a set. -/
def complement (s : CharSet) : CharSet := ⟨gapsFrom 0 s.stretches⟩

/-- The characters of both sets. -/
def inter (a b : CharSet) : CharSet := (a.complement.union b.complement).complement

/-- The characters of the first set that are not in the second. -/
def difference (a b : CharSet) : CharSet := a.inter b.complement

/-- The characters of exactly one of two sets. -/
def symmetricDifference (a b : CharSet) : CharSet := (a.difference b).union (b.difference a)

/-- The characters of at least one of several sets. -/
def unions (sets : List CharSet) : CharSet := sets.foldl union empty

/-- A set with further characters. -/
def withChars (s : CharSet) (cs : List Char) : CharSet :=
  ⟨cs.foldl (fun kept c => insert c.toNat c.toNat kept) s.stretches⟩

/-- The characters that have a case variant in a set. -/
def anyCase (s : CharSet) : CharSet :=
  s.withChars ((variedChars.filter s.holds).flatMap caseVariants)

/-- The letters of ASCII. -/
def asciiLetters : List Char :=
  (List.range 26).flatMap fun i => [Char.ofNat (0x41 + i), Char.ofNat (0x61 + i)]

/-- The characters that have a case variant of ASCII in a set. -/
def anyAsciiCase (s : CharSet) : CharSet :=
  s.withChars ((asciiLetters.filter s.holds).flatMap fun c => [c.toUpper, c.toLower])

/-! ## Sorts of sets -/

/-- The character of a set that has only one. -/
def single? (s : CharSet) : Option Char :=
  match s.stretches with
  | [(first, last)] => if first = last then some (Char.ofNat first) else none
  | _ => none

/-- Whether all characters of a set are ASCII. -/
def isAscii (s : CharSet) : Bool := s.stretches.all fun r => r.2 < 0x80

/-- The stretches of ASCII that have a name. -/
def named? (name : String) : Option CharSet :=
  let ranges (l : List (Char × Char)) := some (ofStretches (l.map fun r => (r.1.toNat, r.2.toNat)))
  match name with
  | "alnum" => ranges [('0', '9'), ('A', 'Z'), ('a', 'z')]
  | "alpha" => ranges [('A', 'Z'), ('a', 'z')]
  | "ascii" => ranges [('\x00', '\x7f')]
  | "blank" => ranges [('\t', '\t'), (' ', ' ')]
  | "cntrl" => ranges [('\x00', '\x1f'), ('\x7f', '\x7f')]
  | "digit" => ranges [('0', '9')]
  | "graph" => ranges [('!', '~')]
  | "lower" => ranges [('a', 'z')]
  | "print" => ranges [(' ', '~')]
  | "punct" => ranges [('!', '/'), (':', '@'), ('[', '\x60'), ('\x7b', '~')]
  | "space" => ranges [('\t', '\r'), (' ', ' ')]
  | "upper" => ranges [('A', 'Z')]
  | "word" => ranges [('0', '9'), ('A', 'Z'), ('_', '_'), ('a', 'z')]
  | "xdigit" => ranges [('0', '9'), ('A', 'F'), ('a', 'f')]
  | _ => none

end CharSet

/-- Whether a character is part of a word. -/
def isWordChar (c : Char) : Bool := CharSet.word.holds c

/-- Whether a character of ASCII is part of a word. -/
def isAsciiWordChar (c : Char) : Bool := CharSet.asciiWord.holds c

end Marginalia.Pattern
