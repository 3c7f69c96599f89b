import Marginalia.Pattern.CharSet

set_option autoImplicit false

/-!
# Patterns

The tree of a pattern, in the simple form that reading gives it.  Patterns in a
row and alternatives are never nested in their own kind, neighbouring literal
characters form one text, a class of one character is that character, and what
can only match the empty text is repeated once at most.  The functions that
build patterns keep this form.
-/

namespace Marginalia.Pattern

/-- A condition on the place between two characters.  For words it is given whether
those of ASCII only count. -/
inductive Anchor where
  /-- before the first character -/
  | textStart
  /-- after the last character -/
  | textEnd
  /-- before the first character or after a line feed -/
  | lineStart
  /-- after the last character or before a line feed -/
  | lineEnd
  /-- at the start of a line, where a carriage return may end the line before -/
  | returnLineStart
  /-- at the end of a line, which a carriage return may end -/
  | returnLineEnd
  /-- between a word character and something else -/
  | wordBoundary (ascii : Bool)
  /-- not between a word character and something else -/
  | insideOrOutside (ascii : Bool)
  /-- before a word -/
  | wordStart (ascii : Bool)
  /-- after a word -/
  | wordEnd (ascii : Bool)
  /-- not after a word character -/
  | notAfterWord (ascii : Bool)
  /-- not before a word character -/
  | notBeforeWord (ascii : Bool)
  deriving DecidableEq, Repr, Inhabited

/-- A pattern. -/
inductive Node where
  /-- the empty text -/
  | empty
  /-- the characters of a text, which is not empty -/
  | text (s : List Char)
  /-- one character of a set -/
  | set (s : CharSet)
  /-- no character, at a place of the given sort -/
  | anchor (a : Anchor)
  /-- a group that is told apart from others by a number, and its name -/
  | group (mark : Nat) (name : Option (List Char)) (r : Node)
  /-- one pattern and then another -/
  | seq (a b : Node)
  /-- the first pattern, or else the second -/
  | alt (a b : Node)
  /-- a pattern a number of times in a row, as often as possible or as seldom -/
  | repeated (r : Node) (least : Nat) (most : Option Nat) (greedy : Bool)
  deriving DecidableEq, Repr, Inhabited

namespace Node

/-- The patterns that follow one another in a pattern. -/
def parts : Node → List Node
  | .empty => []
  | .seq a b => a :: parts b
  | r => [r]

/-- The alternatives of a pattern. -/
def branches : Node → List Node
  | .alt a b => a :: branches b
  | r => [r]

/-- The names of the groups in a pattern. -/
def groupNames : Node → List (List Char)
  | .group _ name r => name.toList ++ groupNames r
  | .seq a b => groupNames a ++ groupNames b
  | .alt a b => groupNames a ++ groupNames b
  | .repeated r _ _ _ => groupNames r
  | _ => []

/-! ## What a pattern can match -/

/-- The least number of characters that a pattern matches; none if it is known
never to match. -/
def minLength : Node → Option Nat
  | .empty => some 0
  | .text s => some s.length
  | .set s => if s.stretches.isEmpty then none else some 1
  | .anchor _ => some 0
  | .group _ _ r => minLength r
  | .seq a b => do return (← minLength a) + (← minLength b)
  | .alt a b => do return min (← minLength a) (← minLength b)
  | .repeated r least _ _ => (minLength r).map (least * ·)

/-- Whether a pattern matches at least one character whenever it matches. -/
def consumes (r : Node) : Bool := r.minLength.any (0 < ·)

/-- Whether a pattern can match the empty text only. -/
def isZeroWidth : Node → Bool
  | .empty => true
  | .text _ => false
  | .set _ => false
  | .anchor _ => true
  | .group _ _ r => isZeroWidth r
  | .seq a b => isZeroWidth a && isZeroWidth b
  | .alt a b => isZeroWidth a && isZeroWidth b
  | .repeated r _ most _ => isZeroWidth r && most.isSome

/-! ## Building patterns -/

/-- The pattern of a set of characters. -/
def ofSet (s : CharSet) : Node :=
  match s.single? with
  | some c => .text [c]
  | none => .set s

/-- The pattern that never matches. -/
def fail : Node := .set .empty

/-- Patterns with neighbouring texts made one. -/
def joinTexts : List Node → List Node
  | [] => []
  | r :: rest =>
    match r, joinTexts rest with
    | .text s, .text t :: rest => .text (s ++ t) :: rest
    | r, rest => r :: rest

/-- The pattern with the given parts. -/
def ofParts : List Node → Node
  | [] => .empty
  | [r] => r
  | r :: rest => .seq r (ofParts rest)

/-- Patterns one after the other. -/
def sequence (rs : List Node) : Node := ofParts (joinTexts (rs.flatMap parts))

/-- The pattern with the given alternatives. -/
def ofBranches : List Node → Node
  | [] => fail
  | [r] => r
  | r :: rest => .alt r (ofBranches rest)

/-- The set of a pattern that is a single literal character. -/
def charSet? : Node → Option CharSet
  | .text [c] => some (.single c)
  | _ => none

/-- The set of a pattern that is a class. -/
def classSet? : Node → Option CharSet
  | .set s => some s
  | _ => none

/-- What two lists begin with in common. -/
def commonStart : List Node → List Node → List Node
  | a :: as, b :: bs => if a = b then a :: commonStart as bs else []
  | _, _ => []

/-- The parts that several patterns begin with in common, provided each has more
than one part. -/
def commonParts (rs : List Node) : List Node :=
  let lists := rs.map parts
  if lists.any (·.length < 2) then []
  else
    match lists with
    | [] => []
    | first :: rest => rest.foldl commonStart first

/-- The first of several patterns that leads to a match.  Alternatives that are
all characters or all classes make one class.  What all of them begin with comes
before the choice.  The bound is the number of times this is done. -/
def choiceWithin : Nat → List Node → Node
  | bound, rs =>
    let rs := rs.flatMap branches
    match rs with
    | [] => fail
    | [r] => r
    | rs =>
      match rs.mapM charSet?, rs.mapM classSet? with
      | some sets, _ => ofSet (.unions sets)
      | _, some sets => ofSet (.unions sets)
      | none, none =>
        match bound, commonParts rs with
        | _, [] => ofBranches rs
        | 0, _ => ofBranches rs
        | bound + 1, common =>
          let rests := rs.map fun r => ofParts (r.parts.drop common.length)
          sequence (common ++ [choiceWithin bound rests])

/-- The first of several patterns that leads to a match. -/
def choice (rs : List Node) : Node := choiceWithin ((rs.flatMap (·.parts)).length + 1) rs

/-- A pattern a number of times in a row. -/
def times (r : Node) (least : Nat) (most : Option Nat) (greedy : Bool) : Node :=
  let (least, most) :=
    if r.isZeroWidth then (min least 1, some ((most.map (min · 1)).getD 1)) else (least, most)
  if most = some 0 then .empty
  else if least = 1 && most = some 1 then r
  else .repeated r least most greedy

end Node

end Marginalia.Pattern
