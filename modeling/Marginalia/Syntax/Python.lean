import Marginalia.Syntax.Tree

set_option autoImplicit false

/-!
# The outline of a Python source

The tree of what matters for finding comments: string literals, the replacement
fields inside formatted ones, the format part of a field, and comments.  A number
sign inside the text of a literal begins no comment; inside a replacement field,
which is code again, it does.

The reader takes one character at a time.  It keeps the literals and fields that
are open, the innermost first, each with the nodes already found in it.

It reads what the grammar takes for a literal, which is more than the language has:
backquotes, and any row of the letters that mark a literal.  Where a source is no
Python at all, as when a literal is still open at the end of its line, the grammar
recovers in a way of its own; the reader goes on there as if the literal had ended.
-/

namespace Marginalia.Syntax.Python

/-- What a node of the outline stands for. -/
inductive Label where
  /-- the whole source -/
  | source
  /-- a string literal -/
  | literal
  /-- a replacement field of a formatted literal -/
  | field
  /-- the format part of a replacement field -/
  | format
  /-- a comment, by the number of lines before it and its text -/
  | comment (row : Nat) (text : List Char)
  deriving DecidableEq, Repr, Inhabited

/-- The outline of a source. -/
abbrev Outline := Tree Label

/-- What is open at a place of the source. -/
inductive Frame where
  /-- the text of a literal: its quotation mark, whether three of them close it,
  whether backslashes stand for themselves, and whether it holds fields -/
  | literal (quote : Char) (triple raw formatted : Bool)
  /-- the code of a replacement field, with the number of open brackets -/
  | field (depth : Nat)
  /-- the format part of a replacement field -/
  | format
  deriving DecidableEq, Repr, Inhabited

/-- The state of the reader. -/
structure Reader where
  /-- line feeds passed -/
  row : Nat
  /-- characters that still belong to something read already -/
  ahead : Nat
  /-- the word just before the place, backwards -/
  word : List Char
  /-- what is open, each with its nodes, the last first -/
  opened : List (Frame × List Outline)
  /-- the nodes outside of all literals, the last first -/
  outer : List Outline
  deriving Inhabited

namespace Reader

/-- The state at the start of a source. -/
def start : Reader := ⟨0, 0, [], [], []⟩

/-- Adds a node to whatever is innermost. -/
def add (r : Reader) (t : Outline) : Reader :=
  match r.opened with
  | (frame, nodes) :: rest => { r with opened := (frame, t :: nodes) :: rest }
  | [] => { r with outer := t :: r.outer }

/-- Opens a literal, a field or a format part. -/
def push (r : Reader) (frame : Frame) : Reader := { r with opened := (frame, []) :: r.opened }

/-- The label of what a frame closes to. -/
def frameLabel : Frame → Label
  | .literal .. => .literal
  | .field _ => .field
  | .format => .format

/-- Closes what is innermost. -/
def pop (r : Reader) : Reader :=
  match r.opened with
  | (frame, nodes) :: rest =>
    { r with opened := rest }.add (.node (frameLabel frame) nodes.reverse)
  | [] => r

/-- Leaves a number of characters after this one unread. -/
def pass (r : Reader) (count : Nat) : Reader := { r with ahead := count }

/-- Changes the number of open brackets of the innermost field. -/
def setDepth (r : Reader) (depth : Nat) : Reader :=
  match r.opened with
  | (.field _, nodes) :: rest => { r with opened := (.field depth, nodes) :: rest }
  | _ => r

/-- Closes everything that is open. -/
def closeAll (r : Reader) : Nat → Reader
  | 0 => r
  | n + 1 => closeAll r.pop n

end Reader

/-- Whether a character continues a word. -/
def isWordPart (c : Char) : Bool := c.isAlphanum || c == '_' || 0x80 ≤ c.toNat

/-- Whether a letter in front of a quotation mark can belong to the literal. -/
def isLiteralMark (c : Char) : Bool := ['b', 'f', 'r', 'u'].contains c.toLower

/-- Whether the word in front of a quotation mark makes a literal raw, and whether it
makes it formatted.  A word with other letters does not belong to the literal. -/
def literalMarks (word : List Char) : Bool × Bool :=
  let marks := if word.all isLiteralMark then word.map Char.toLower else []
  (marks.contains 'r', marks.contains 'f')

/-- Whether a character can stand around a literal. -/
def isQuote (c : Char) : Bool := c == '"' || c == '\'' || c == '\x60'

/-- Reads a character of code.  A comment goes on up to the end of its line or up to a
character that is null. -/
def readCode (r : Reader) (c : Char) (after : List Char) : Reader :=
  if c = '#' then
    let text := after.takeWhile fun c => c != '\n' && c != '\x00'
    (r.add (.node (.comment r.row (c :: text)) [])).pass text.length
  else if isQuote c then
    let (raw, formatted) := literalMarks r.word
    let triple := c != '\x60' && after.take 2 == [c, c]
    (r.push (.literal c triple raw formatted)).pass (if triple then 2 else 0)
  else r

/-- Reads a character of a replacement field. -/
def readField (depth : Nat) (r : Reader) (c : Char) (after : List Char) : Reader :=
  if c = '(' || c = '[' || c = '\x7b' then r.setDepth (depth + 1)
  else if c = '\x7d' && depth == 0 then r.pop
  else if c = ')' || c = ']' || c = '\x7d' then r.setDepth (depth - 1)
  else if c = ':' && depth == 0 then r.push .format
  else readCode r c after

/-- Reads a character of the format part of a field. -/
def readFormat (r : Reader) (c : Char) : Reader :=
  if c = '\x7b' then r.push (.field 0)
  else if c = '\x7d' then r.pop.pop
  else r

/-- The number of characters that belong to a backslash inside a literal.  A
backslash takes the whole end of a line, however it is written, and a backquote in raw
literals only. -/
def escapeLength (raw formatted : Bool) (after : List Char) : Nat :=
  match after with
  | [] => 0
  | '\r' :: '\n' :: _ => 2
  | 'N' :: '\x7b' :: name =>
    if formatted && !raw then 3 + (name.takeWhile (· != '\x7d')).length else 1
  | c :: _ =>
    if (formatted && (c = '\x7b' || c = '\x7d')) || (!raw && c = '\x60') then 0 else 1

/-- Reads a character of the text of a literal. -/
def readLiteral (quote : Char) (triple raw formatted : Bool) (r : Reader) (c : Char)
    (after : List Char) : Reader :=
  if c = '\\' then r.pass (escapeLength raw formatted after)
  else if c = quote then
    if !triple then r.pop
    else if after.take 2 == [quote, quote] then r.pop.pass 2
    else r
  else if c = '\n' && !triple then r.pop
  else if formatted && (c = '\x7b' || c = '\x7d') then
    if after.head? = some c then r.pass 1
    else if c = '\x7b' then r.push (.field 0)
    else r
  else r

/-- Reads a character, given the text after it. -/
def step (r : Reader) (c : Char) (after : List Char) : Reader :=
  let read :=
    if r.ahead ≠ 0 then { r with ahead := r.ahead - 1 }
    else
      match r.opened with
      | (.literal quote triple raw formatted, _) :: _ =>
        readLiteral quote triple raw formatted r c after
      | (.field depth, _) :: _ => readField depth r c after
      | (.format, _) :: _ => readFormat r c
      | [] => readCode r c after
  { read with
    row := if c = '\n' then r.row + 1 else r.row
    word := if isWordPart c then c :: r.word else [] }

/-- Reads a text to its end. -/
def readAll (r : Reader) : List Char → Reader
  | [] => r
  | c :: after => readAll (step r c after) after

/-- The outline of a source. -/
def outline (source : List Char) : Outline :=
  let r := readAll .start source
  .node .source (r.closeAll r.opened.length).outer.reverse

/-- Whether a node is a comment. -/
def Label.isComment : Label → Bool
  | .comment .. => true
  | _ => false

/-- The comments of a source as row and text, in source order. -/
def comments (source : List Char) : List (Nat × List Char) :=
  ((Cursor.root (outline source)).visit Label.isComment).filterMap fun
    | .comment row text => some (row, text)
    | _ => none

end Marginalia.Syntax.Python
