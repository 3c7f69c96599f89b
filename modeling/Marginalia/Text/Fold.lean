import Marginalia.Text.CaseShift

set_option autoImplicit false

/-!
# Comparing characters without regard to case

Simple case folding sends all case variants of a character to one of them.  Two
characters are variants of each other when they fold to the same one.
-/

namespace Marginalia.Text

/-- The representative of a code point among its case variants. -/
def foldPoint (n : Nat) : Nat :=
  match foldExceptions.find? (·.covers n) with
  | some s => s.apply n
  | none => CaseShift.move lowerShifts n

/-- The code points that a list of shifts may move to `target`. -/
def shiftSources (shifts : List CaseShift) (target : Nat) : List Nat :=
  shifts.filterMap fun s =>
    let source := ((target : Int) - s.distance).toNat
    if s.covers source && s.apply source == target then some source else none

/-- The code points that a shift moves, together with those they move to. -/
def shiftEnds (s : CaseShift) : List Nat :=
  (List.range (s.last + 1 - s.first)).flatMap fun i =>
    if i % s.step = 0 then [s.first + i, s.apply (s.first + i)] else []

/-- The characters that have case variants, some of them more than once. -/
def variedChars : List Char :=
  ((foldExceptions ++ lowerShifts).flatMap shiftEnds).map Char.ofNat

/-- A character together with all its case variants. -/
def caseVariants (c : Char) : List Char :=
  let target := foldPoint c.toNat
  let sources := target :: shiftSources foldExceptions target ++ shiftSources lowerShifts target
  c :: (sources.filter (foldPoint · == target)).map Char.ofNat

end Marginalia.Text
