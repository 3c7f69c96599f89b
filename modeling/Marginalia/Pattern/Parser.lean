import Marginalia.Json.Reader
import Marginalia.Pattern.Node
import Marginalia.Pattern.Property

set_option autoImplicit false

/-!
# Reading a pattern

The notation of patterns: literal characters, `.`, classes in brackets with set
operations, sets by the names of their properties, the anchors, groups,
alternatives, repetition in greedy and lazy form, and options that are set inside
the pattern.  A pattern outside the notation is refused; there is no look-around
and no reference to a group.  So is a pattern that is nested too deeply: reading
keeps count of the groups, repetitions, classes, alternatives and patterns in a row
around each other.

Where a pattern is set to octets, its sets hold characters of ASCII only: a set with
others would also match octets that are no characters of a text, and is refused.
-/

namespace Marginalia.Pattern

open Marginalia.Text

/-- The options in force at a place of a pattern. -/
structure Options where
  /-- case does not count -/
  anyCase : Bool := false
  /-- `^` and `$` also stand for the ends of lines -/
  multiLine : Bool := false
  /-- `.` also stands for a line feed -/
  dotAll : Bool := false
  /-- a carriage return, with or without a line feed after it, also ends a line -/
  returns : Bool := false
  /-- plain repetition is lazy and marked repetition greedy -/
  swapGreed : Bool := false
  /-- white space and comments in the pattern do not count -/
  layout : Bool := false
  /-- classes, words and case are those of ASCII, and sets are sets of octets -/
  octets : Bool := false
  /-- the sets that have names -/
  properties : PropertyTable := .basic
  deriving DecidableEq, Repr, Inhabited

/-- Drops white space and comments; a comment lasts until the end of its line. -/
def dropLayout : Bool → List Char → List Char
  | _, [] => []
  | true, c :: s => dropLayout (c != '\n') s
  | false, c :: s =>
    if isBlank c then dropLayout false s
    else if c = '#' then dropLayout true s
    else c :: s

/-- The text from the next place that counts. -/
def skip (o : Options) (s : List Char) : List Char :=
  if o.layout then dropLayout false s else s

/-! ## Sets under options -/

/-- A set as the options in force have it. -/
def Options.apply (o : Options) (s : CharSet) : CharSet :=
  if !o.anyCase then s else if o.octets then s.anyAsciiCase else s.anyCase

/-- A set, or its complement, unless the options in force forbid what is in it. -/
def Options.admit? (o : Options) (negated : Bool) (s : CharSet) : Option CharSet :=
  let s := if negated then s.complement else s
  if o.octets && !s.isAscii then none else some s

/-- The set of a class that has an escape of its own. -/
def Options.class? (o : Options) (negated : Bool) (wide ascii : CharSet) : Option CharSet :=
  o.admit? negated (if o.octets then ascii else wide)

/-! ## Escapes -/

/-- What a backslash and the characters after it stand for. -/
inductive Escape where
  | char (c : Char)
  | set (s : CharSet)
  | anchor (a : Anchor)
  deriving DecidableEq, Repr

/-- Reads a given number of hexadecimal digits after a number read so far. -/
def readHexDigits (o : Options) : Nat → Nat → List Char → Option (Nat × List Char)
  | 0, value, s => some (value, s)
  | _ + 1, _, [] => none
  | count + 1, value, c :: s => do
    let d ← Json.hexValue? c
    readHexDigits o count (16 * value + d) (skip o s)

/-- Reads hexadecimal digits up to a closing brace; `seen` tells whether there
was one already. -/
def readHexBraced (o : Options) : Nat → Bool → Nat → List Char → Option (Nat × List Char)
  | 0, _, _, _ => none
  | _ + 1, _, _, [] => none
  | bound + 1, seen, value, c :: s =>
    if c = '\x7d' then if seen then some (value, skip o s) else none
    else do
      let d ← Json.hexValue? c
      readHexBraced o bound true (16 * value + d) (skip o s)

/-- Reads a character that is given by its number in a field of the given
width, or in braces.  A field of two digits may stand for an octet. -/
def readHexChar (o : Options) (width : Nat) (s : List Char) : Option (Char × List Char) := do
  let (value, rest) ← match skip o s with
    | '\x7b' :: t => readHexBraced o (t.length + 1) false 0 (skip o t)
    | t => do
      let (value, rest) ← readHexDigits o width 0 t
      if o.octets && width = 2 && 0x80 ≤ value then none else some (value, rest)
  if value.isValidChar then some (Char.ofNat value, rest) else none

/-- Reads a name up to a closing brace; `seen` holds what was read so far. -/
def readNameBraced (o : Options) : Nat → List Char → List Char → Option (List Char × List Char)
  | 0, _, _ => none
  | _ + 1, _, [] => none
  | bound + 1, seen, c :: s =>
    if c = '\x7d' then some (seen.reverse, s) else readNameBraced o bound (c :: seen) (skip o s)

/-- Reads the set of a property, which is named by one letter or in braces.  The
options count before the set is turned round. -/
def readProperty (o : Options) (negated : Bool) (s : List Char) :
    Option (CharSet × List Char) := do
  let (key, rest) ← match skip o s with
    | [] => none
    | '\\' :: _ => none
    | '\x7b' :: t => do
      let (name, rest) ← readNameBraced o (t.length + 1) [] (skip o t)
      some (propertyKey name, rest)
    | c :: t => some (normalName [c], t)
  let set ← o.properties.lookup key
  if o.octets then none
  else
    let set ← o.admit? negated (o.apply set)
    some (set, rest)

/-- The sort of word boundary that a name in braces asks for.  What is no name
is left for a repetition. -/
def readBoundary (ascii : Bool) (s : List Char) : Option (Anchor × List Char) :=
  match s with
  | '\x7b' :: t =>
    let isNameChar (c : Char) := ('a' ≤ c && c ≤ 'z') || ('A' ≤ c && c ≤ 'Z') || c == '-'
    let name := (t.dropWhile isBlank).takeWhile isNameChar
    let after := ((t.dropWhile isBlank).dropWhile isNameChar).dropWhile isBlank
    if name.isEmpty then some (.wordBoundary ascii, s)
    else
      match after with
      | '\x7d' :: rest =>
        match String.ofList name with
        | "start" => some (.wordStart ascii, rest)
        | "end" => some (.wordEnd ascii, rest)
        | "start-half" => some (.notAfterWord ascii, rest)
        | "end-half" => some (.notBeforeWord ascii, rest)
        | _ => none
      | _ => none
  | _ => some (.wordBoundary ascii, s)

/-- Reads an escape after its backslash. -/
def readEscape (o : Options) : List Char → Option (Escape × List Char)
  | [] => none
  | c :: s =>
    match c with
    | 'x' => (readHexChar o 2 s).map fun (c, rest) => (.char c, rest)
    | 'u' => (readHexChar o 4 s).map fun (c, rest) => (.char c, rest)
    | 'U' => (readHexChar o 8 s).map fun (c, rest) => (.char c, rest)
    | 'd' => (o.class? false .digit .asciiDigit).map fun set => (.set set, s)
    | 's' => (o.class? false .blank .asciiBlank).map fun set => (.set set, s)
    | 'w' => (o.class? false .word .asciiWord).map fun set => (.set set, s)
    | 'D' => (o.class? true .digit .asciiDigit).map fun set => (.set set, s)
    | 'S' => (o.class? true .blank .asciiBlank).map fun set => (.set set, s)
    | 'W' => (o.class? true .word .asciiWord).map fun set => (.set set, s)
    | 'p' => (readProperty o false s).map fun (set, rest) => (.set set, rest)
    | 'P' => (readProperty o true s).map fun (set, rest) => (.set set, rest)
    | 'a' => some (.char '\x07', s)
    | 'f' => some (.char '\x0c', s)
    | 't' => some (.char '\t', s)
    | 'n' => some (.char '\n', s)
    | 'r' => some (.char '\r', s)
    | 'v' => some (.char '\x0b', s)
    | 'A' => some (.anchor .textStart, s)
    | 'z' => some (.anchor .textEnd, s)
    | 'b' => (readBoundary o.octets s).map fun (a, rest) => (.anchor a, rest)
    | 'B' => some (.anchor (.insideOrOutside o.octets), s)
    | '<' => some (.anchor (.wordStart o.octets), s)
    | '>' => some (.anchor (.wordEnd o.octets), s)
    | c => if c.toNat < 0x80 && !c.isAlphanum then some (.char c, s) else none

/-! ## Classes in brackets -/

/-- An operation between two sets in a class. -/
inductive SetOperation where
  | intersection
  | difference
  | symmetricDifference
  deriving DecidableEq, Repr

/-- The set that an operation makes of two. -/
def SetOperation.apply : SetOperation → CharSet → CharSet → CharSet
  | .intersection, a, b => .inter a b
  | .difference, a, b => a.difference b
  | .symmetricDifference, a, b => a.symmetricDifference b

/-- Something read, and how deeply it is nested. -/
structure Nested (α : Type) where
  item : α
  depth : Nat

/-- How deeply several things of one kind are nested that stand side by side: a
single one is as if it stood alone. -/
def depthOfAll (depths : List Nat) : Nat :=
  match depths with
  | [] => 0
  | [d] => d
  | ds => ds.foldl max 0 + 1

/-- One element of a class: a character or a set. -/
def readClassItem (o : Options) : List Char → Option (Escape × List Char)
  | [] => none
  | '\\' :: s => readEscape o s
  | c :: s => some (.char c, s)

/-- The set of one element of a class; a place between characters is none. -/
def Escape.toSet? (o : Options) : Escape → Option CharSet
  | .char c => o.admit? false (.single c)
  | .set s => some s
  | .anchor _ => none

/-- Reads an element of a class, or a range of characters. -/
def readClassRange (o : Options) (s : List Char) : Option (CharSet × List Char) := do
  let (first, s) ← readClassItem o s
  match skip o s with
  | [] => none
  | '-' :: t =>
    match skip o t with
    | [] => none
    | c :: t' =>
      if c = ']' || c = '-' then do
        let set ← first.toSet? o
        some (set, '-' :: t)
      else do
        let (last, rest) ← readClassItem o (c :: t')
        match first, last with
        | .char a, .char b => do
          let set ← o.admit? false (.range a b)
          if a.toNat ≤ b.toNat then some (set, rest) else none
        | _, _ => none
  | rest => do
    let set ← first.toSet? o
    some (set, rest)

/-- Reads a class of ASCII characters that is given by its name, after the opening
bracket, and whether it is to be turned round. -/
def readNamedClass (s : List Char) : Option ((CharSet × Bool) × List Char) :=
  match s with
  | ':' :: t =>
    let (negated, t) := match t with
      | '^' :: t => (true, t)
      | t => (false, t)
    let name := t.takeWhile (· != ':')
    match t.dropWhile (· != ':') with
    | ':' :: ']' :: rest => do
      let set ← CharSet.named? (String.ofList name)
      some ((set, negated), rest)
    | _ => none
  | _ => none

/-- Takes hyphens off the front of a class, where they stand for themselves. -/
def readHyphens (o : Options) :
    Nat → List (Nested CharSet) → List Char → List (Nested CharSet) × List Char
  | 0, sets, s => (sets, s)
  | bound + 1, sets, s =>
    match s with
    | '-' :: t => readHyphens o bound (⟨.single '-', 0⟩ :: sets) (skip o t)
    | _ => (sets, s)

/-- The set that is read so far: the sets collected since the last operation, and
the set and operation before them. -/
def classSoFar (o : Options) (pending : Option (Nested CharSet × SetOperation))
    (sets : List (Nested CharSet)) : Nested CharSet :=
  let collected := o.apply (.unions (sets.map (·.item)))
  let depth := depthOfAll (sets.map (·.depth))
  match pending with
  | some (left, op) => ⟨op.apply left.item collected, max left.depth depth + 1⟩
  | none => ⟨collected, depth⟩

mutual
/-- Reads a class after its opening bracket. -/
def readClass (o : Options) : Nat → List Char → Option (Nested CharSet × List Char)
  | 0, _ => none
  | bound + 1, s => do
    let (negated, s) := match skip o s with
      | '^' :: t => (true, skip o t)
      | t => (false, t)
    let (sets, s) := readHyphens o s.length [] s
    let (sets, s) := match sets, s with
      | [], ']' :: t => ([⟨CharSet.single ']', 0⟩], skip o t)
      | sets, s => (sets, s)
    let (set, rest) ← readSets o bound none sets s
    let item ← o.admit? negated set.item
    some (⟨item, set.depth + 1⟩, rest)

/-- Reads the rest of a class, after the sets collected since the last operation
and the set and operation before them. -/
def readSets (o : Options) :
    Nat → Option (Nested CharSet × SetOperation) → List (Nested CharSet) → List Char →
    Option (Nested CharSet × List Char)
  | 0, _, _, _ => none
  | bound + 1, pending, sets, s =>
    let operation (op : SetOperation) (t : List Char) :=
      readSets o bound (some (classSoFar o pending sets, op)) [] t
    match skip o s with
    | [] => none
    | '[' :: t =>
      match readNamedClass t with
      | some ((set, negated), rest) => do
        let set ← o.admit? negated (o.apply set)
        readSets o bound pending (⟨set, 0⟩ :: sets) rest
      | none => do
        let (set, rest) ← readClass o bound t
        readSets o bound pending (set :: sets) rest
    | ']' :: t =>
      let set := classSoFar o pending sets
      some (⟨o.apply set.item, set.depth⟩, t)
    | '&' :: '&' :: t => operation .intersection t
    | '-' :: '-' :: t => operation .difference t
    | '~' :: '~' :: t => operation .symmetricDifference t
    | t => do
      let (set, rest) ← readClassRange o t
      readSets o bound pending (⟨set, 0⟩ :: sets) rest
end

/-! ## Repetition -/

/-- The largest count a repetition may be given. -/
def maxCount : Nat := 4294967295

/-- The digits of a count, with what may be skipped between them. -/
def readCountDigits (o : Options) : Nat → List Char → List Char → List Char × List Char
  | 0, digits, s => (digits.reverse, s)
  | bound + 1, digits, s =>
    match s with
    | c :: t =>
      if isDigit c then readCountDigits o bound (c :: digits) (skip o t) else (digits.reverse, s)
    | [] => (digits.reverse, s)

/-- Reads a count, with white space around it. -/
def readCount (o : Options) (s : List Char) : Option (Nat × List Char) :=
  let s := trimStart s
  let (digits, rest) := readCountDigits o s.length [] s
  match readDecimal? digits with
  | some n => if n ≤ maxCount then some (n, trimStart rest) else none
  | none => none

/-- Reads the bounds of a counted repetition after the opening brace, up to and
with the closing one. -/
def readBounds (o : Options) (s : List Char) : Option ((Nat × Option Nat) × List Char) := do
  let (least, s) ← readCount o (skip o s)
  match s with
  | '\x7d' :: rest => some ((least, some least), rest)
  | ',' :: t =>
    match skip o t with
    | '\x7d' :: rest => some ((least, none), rest)
    | t => do
      let (most, t) ← readCount o t
      match t with
      | '\x7d' :: rest => if least ≤ most then some ((least, some most), rest) else none
      | _ => none
  | _ => none

/-- Whether a repetition is greedy, by the mark that may follow it. -/
def readGreed (o : Options) (s : List Char) : Bool × List Char :=
  match s with
  | '?' :: rest => (o.swapGreed, rest)
  | _ => (!o.swapGreed, s)

/-! ## Groups -/

/-- What the head of a group asks for. -/
inductive GroupHead where
  /-- a group that counts, and its name -/
  | counted (name : Option (List Char))
  /-- a group that only holds together, whose inside has the given options -/
  | opened (inside : Options)
  /-- options for the rest of the group around it -/
  | options (o : Options)
  deriving DecidableEq, Repr

/-- The option that a letter names, set or taken back. -/
def Options.set? (o : Options) (letter : Char) (on : Bool) : Option Options :=
  match letter with
  | 'i' => some { o with anyCase := on }
  | 'm' => some { o with multiLine := on }
  | 's' => some { o with dotAll := on }
  | 'U' => some { o with swapGreed := on }
  | 'R' => some { o with returns := on }
  | 'x' => some { o with layout := on }
  | 'u' => some { o with octets := !on }
  | _ => none

/-- Reads the letters of options up to the colon or the closing parenthesis.
`seen` holds what was read so far, so that nothing is given twice. -/
def readOptions : Options → Bool → List Char → List Char → Option (GroupHead × List Char)
  | _, _, _, [] => none
  | o, on, seen, c :: s =>
    if c = ':' then if seen.head? = some '-' then none else some (.opened o, s)
    else if c = ')' then
      if seen.isEmpty || seen.head? = some '-' then none else some (.options o, s)
    else if seen.contains c then none
    else if c = '-' then readOptions o false (c :: seen) s
    else do
      let o ← o.set? c on
      readOptions o on (c :: seen) s

/-- Whether a character may stand in the name of a group. -/
def isNameChar (first : Bool) (c : Char) : Bool :=
  c == '_' || c.isAlpha || (0x80 ≤ c.toNat && isWordChar c) ||
    (!first && (c.isDigit || c == '.' || c == '[' || c == ']'))

/-- Reads the name of a group up to its closing angle bracket. -/
def readGroupName (s : List Char) : Option (GroupHead × List Char) :=
  let name := s.takeWhile (· != '>')
  match name, s.dropWhile (· != '>') with
  | c :: more, '>' :: rest =>
    if isNameChar true c && more.all (isNameChar false) then some (.counted (some name), rest)
    else none
  | _, _ => none

/-- Reads the head of a group after its opening parenthesis. -/
def readGroupHead (o : Options) (s : List Char) : Option (GroupHead × List Char) :=
  match skip o s with
  | '?' :: 'P' :: '<' :: t => readGroupName t
  | '?' :: '<' :: t => readGroupName t
  | '?' :: t => readOptions o true [] t
  | t => some (.counted none, t)

/-! ## Patterns -/

/-- The pattern of one literal character.  A character beyond ASCII stands for itself
among octets as well, but has no case there. -/
def literalNode? (o : Options) (c : Char) : Option Node :=
  if !o.anyCase then some (.text [c])
  else if o.octets then (o.admit? false (.single c)).map fun set => .ofSet set.anyAsciiCase
  else some (.ofSet ((CharSet.single c).withChars (caseVariants c)))

/-- The pattern of an escape. -/
def Escape.toNode? (o : Options) : Escape → Option Node
  | .char c => literalNode? o c
  | .set s => some (.ofSet s)
  | .anchor a => some (.anchor a)

/-- The set that `.` stands for. -/
def Options.dot? (o : Options) : Option CharSet :=
  o.admit? false
    (if o.dotAll then .any
    else if o.returns then (CharSet.empty.withChars ['\n', '\r']).complement
    else (CharSet.single '\n').complement)

/-- The place that `^` stands for. -/
def Options.caret (o : Options) : Anchor :=
  if !o.multiLine then .textStart else if o.returns then .returnLineStart else .lineStart

/-- The place that `$` stands for. -/
def Options.dollar (o : Options) : Anchor :=
  if !o.multiLine then .textEnd else if o.returns then .returnLineEnd else .lineEnd

/-- A part of a pattern.  Options leave a gap. -/
abbrev Part := Nested (Option Node)

/-- Joins the parts read so far, the last of them first. -/
def joinParts (parts : List Part) : Nested Node :=
  ⟨.sequence (parts.reverse.filterMap (·.item)), depthOfAll (parts.map (·.depth))⟩

/-- Makes alternatives of the patterns read so far, the last of them first. -/
def joinChoices (choices : List (Nested Node)) : Nested Node :=
  ⟨.choice (choices.reverse.map (·.item)), depthOfAll (choices.map (·.depth))⟩

/-- Puts a repetition around the last part.  Nothing can be repeated where there
is none or where options were set. -/
def repeatLast (parts : List Part) (least : Nat) (most : Option Nat) (greedy : Bool) :
    Option (List Part) :=
  match parts with
  | ⟨some r, depth⟩ :: rest => some (⟨some (r.times least most greedy), depth + 1⟩ :: rest)
  | _ => none

/-- Reads a pattern up to its end or to a closing parenthesis. `choices` holds
the alternatives that are complete, the last first, and `parts` the parts of the
one being read. -/
def readPattern :
    Nat → Options → List (Nested Node) → List Part → List Char → Option (Nested Node × List Char)
  | 0, _, _, _, _ => none
  | bound + 1, o, choices, parts, s =>
    let done := joinChoices (joinParts parts :: choices)
    let further (r : Node) (depth : Nat) (rest : List Char) :=
      readPattern bound o choices (⟨some r, depth⟩ :: parts) rest
    let repeated (least : Nat) (most : Option Nat) (greed : Bool × List Char) := do
      let parts ← repeatLast parts least most greed.1
      readPattern bound o choices parts greed.2
    match skip o s with
    | [] => some (done, [])
    | ')' :: rest => some (done, ')' :: rest)
    | '|' :: rest => readPattern bound o (joinParts parts :: choices) [] rest
    | '(' :: t => do
      let (head, t') ← readGroupHead o t
      let inside (o : Options) (close : Node → Node) := do
        let (r, t) ← readPattern bound o [] [] t'
        match t with
        | ')' :: rest => further (close r.item) (r.depth + 1) rest
        | _ => none
      match head with
      | .options o => readPattern bound o choices (⟨none, 0⟩ :: parts) t'
      | .opened o => inside o id
      | .counted name => inside o (.group t.length name)
    | '[' :: t => do
      let (set, rest) ← readClass o (2 * t.length + 2) t
      further (.ofSet set.item) set.depth rest
    | '*' :: rest => repeated 0 none (readGreed o rest)
    | '+' :: rest => repeated 1 none (readGreed o rest)
    | '?' :: rest => repeated 0 (some 1) (readGreed o rest)
    | '\x7b' :: t => do
      let ((least, most), rest) ← readBounds o t
      repeated least most (readGreed o (skip o rest))
    | '\\' :: t => do
      let (escape, rest) ← readEscape o t
      let r ← escape.toNode? o
      further r 0 rest
    | '.' :: rest => do
      let set ← o.dot?
      further (.set set) 0 rest
    | '^' :: rest => further (.anchor o.caret) 0 rest
    | '$' :: rest => further (.anchor o.dollar) 0 rest
    | c :: rest => do
      let r ← literalNode? o c
      further r 0 rest

/-- The depth to which a pattern may be nested. -/
def maxDepth : Nat := 250

/-- The pattern that a text denotes under the given options.  No two groups may
have one name. -/
def Node.read? (o : Options) (text : String) : Option Node :=
  match readPattern (text.toList.length + 1) o [] [] text.toList with
  | some (r, []) =>
    if r.depth ≤ maxDepth && r.item.groupNames.Nodup then some r.item else none
  | _ => none

end Marginalia.Pattern
