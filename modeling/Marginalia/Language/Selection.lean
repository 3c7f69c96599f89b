import Marginalia.Note.Comment
import Marginalia.Pattern.Match
import Marginalia.TagSet

set_option autoImplicit false

/-!
# Choosing comments among the matches of several patterns

Each pattern is run over the whole text on its own; all that counts of it is what it
finds.  Of all that is found those parts are taken, from left to right, that start at
or after the end of the one taken before; of several that start at one place the
longest is taken.
-/

namespace Marginalia.Language

open Marginalia.Text
open Marginalia.Pattern (Cursor Span)

/-- A way to find parts of a text.  The matches of a machine are one. -/
abbrev Finder := List Char → List Span

/-- An engine gives the finder of each pattern that it can read under some options. -/
abbrev Engine := Pattern.Options → String → Option Finder

/-- The engine that runs machines. -/
def machineEngine : Engine := fun o pattern =>
  (Pattern.Machine.read? o pattern).map (·.spans)

/-- Whether a span comes before another in the order of choice: by start, and at
one start the longer first. -/
def comesFirst (a b : Span) : Bool :=
  a.first.offset < b.first.offset ||
    (a.first.offset == b.first.offset && b.last.offset ≤ a.last.offset)

/-- All parts of a text that finders find and that hold at least one character. -/
def found (finders : List Finder) (text : List Char) : List Span :=
  (finders.flatMap (· text)).filter fun s => s.first.offset < s.last.offset

/-- What is found, in the order of choice. -/
def candidates (finders : List Finder) (text : List Char) : List Span :=
  (found finders text).mergeSort comesFirst

/-- The spans that start at or after the end of the one taken before. -/
def disjointFrom (covered : Nat) : List Span → List Span
  | [] => []
  | s :: rest =>
    if s.first.offset < covered then disjointFrom covered rest
    else s :: disjointFrom s.last.offset rest

/-- The spans that are taken as comments. -/
def selected (finders : List Finder) (text : List Char) : List Span :=
  disjointFrom 0 (candidates finders text)

/-- The line of a place, counted from one. -/
def lineAt (p : Cursor) : UInt32 := UInt32.ofNat (1 + p.row)

/-- The comment that a span is. -/
def commentOf (filepath : String) (tags : TagSet) (s : Span) : Comment :=
  let body := trimEnd s.text
  { filepath := filepath
    text := String.ofList body
    line := lineAt s.first
    kind := tags.classify body
    multiline := body.contains '\n' }

/-- The comments that are chosen among what finders find in a text. -/
def patternComments (finders : List Finder) (filepath : String) (text : List Char)
    (tags : TagSet) : List Comment :=
  (selected finders text).map (commentOf filepath tags)

end Marginalia.Language
