set_option autoImplicit false

/-!
# Wildcard patterns

A wildcard pattern is matched against a whole path.  A question mark stands for
one character and a star for any run of characters, slashes included.  Two stars
must be a path component of their own and stand for any number of components.
Brackets hold a set of characters, or with an exclamation mark the characters
outside it.
-/

namespace Marginalia

/-- A piece of a wildcard pattern. -/
inductive GlobToken where
  /-- a character that stands for itself -/
  | char (c : Char)
  /-- one character -/
  | one
  /-- any run of characters -/
  | run
  /-- any number of path components -/
  | components
  /-- one character in one of the ranges -/
  | within (ranges : List (Char × Char))
  /-- one character in none of the ranges -/
  | except (ranges : List (Char × Char))
  deriving DecidableEq, Repr, Inhabited

/-- A wildcard pattern. -/
structure Glob where
  tokens : List GlobToken
  deriving DecidableEq, Repr, Inhabited

namespace Glob

/-! ## Reading -/

/-- The ranges that the inside of brackets lists; a single character is a range of
its own. -/
def rangesOf : List Char → List (Char × Char)
  | first :: '-' :: last :: rest => (first, last) :: rangesOf rest
  | c :: rest => (c, c) :: rangesOf rest
  | [] => []

/-- The inside of brackets and the text after them.  The first character belongs
to the inside even if it is a closing bracket. -/
def splitBrackets : List Char → Option (List Char × List Char)
  | [] => none
  | c :: s =>
    match s.dropWhile (· != ']') with
    | _ :: rest => some (c :: s.takeWhile (· != ']'), rest)
    | [] => none

/-- Reads the tokens of a pattern.  `fresh` tells whether a path component starts
here.  The bound is the length of the pattern. -/
def readTokens : Nat → Bool → List Char → Option (List GlobToken)
  | _, _, [] => some []
  | 0, _, _ :: _ => none
  | bound + 1, fresh, c :: s =>
    match c with
    | '?' => (readTokens bound false s).map (.one :: ·)
    | '*' =>
      match s with
      | '*' :: '*' :: _ => none
      | '*' :: '/' :: rest =>
        if fresh then (readTokens bound true rest).map (.components :: ·) else none
      | ['*'] => if fresh then some [.components] else none
      | '*' :: _ => none
      | _ => (readTokens bound false s).map (.run :: ·)
    | '[' =>
      match s with
      | '!' :: t => do
        let (inside, rest) ← splitBrackets t
        (readTokens bound false rest).map (.except (rangesOf inside) :: ·)
      | t => do
        let (inside, rest) ← splitBrackets t
        (readTokens bound false rest).map (.within (rangesOf inside) :: ·)
    | c => (readTokens bound (c == '/') s).map (.char c :: ·)

/-- The pattern that a text denotes. -/
def read? (text : String) : Option Glob :=
  (readTokens text.toList.length true text.toList).map (⟨·⟩)

/-! ## Matching -/

/-- Whether a character lies in one of the ranges. -/
def inRanges (ranges : List (Char × Char)) (c : Char) : Bool :=
  ranges.any fun r => r.1 ≤ c && c ≤ r.2

/-- The text and all its endings. -/
def suffixes : List Char → List (List Char)
  | [] => [[]]
  | c :: s => (c :: s) :: suffixes s

/-- The endings of a text that follow a slash, and the empty one. -/
def componentSuffixes : List Char → List (List Char)
  | [] => [[]]
  | c :: s => if c = '/' then s :: componentSuffixes s else componentSuffixes s

/-- Whether a token stands for one character and this may be it. -/
def standsFor (token : GlobToken) (c : Char) : Bool :=
  match token with
  | .char d => d == c
  | .one => true
  | .within ranges => inRanges ranges c
  | .except ranges => !inRanges ranges c
  | .run | .components => false

/-- What may be left of a text after one more token, given what may be left of it
before.  Endings come with the longest first and each once.  A run may leave all
that the longest one holds.  Components begin where a component begins, so the
longest ending holds all that they may leave. -/
def leave (rests : List (List Char)) (token : GlobToken) : List (List Char) :=
  match token, rests with
  | _, [] => []
  | .run, longest :: _ => suffixes longest
  | .components, longest :: _ => longest :: componentSuffixes longest
  | token, rests =>
    rests.filterMap fun
      | c :: rest => if standsFor token c then some rest else none
      | [] => none

/-- Whether a pattern matches a path. -/
def matchesPath (g : Glob) (path : String) : Bool :=
  (g.tokens.foldl leave [path.toList]).any List.isEmpty

end Glob

end Marginalia
