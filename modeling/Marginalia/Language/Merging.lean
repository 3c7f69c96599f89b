import Marginalia.Note.Comment
import Marginalia.Syntax.Python
import Marginalia.TagSet

set_option autoImplicit false

/-!
# Comments of one line each, merged in pairs

Where every comment ends with its line, a comment of two lines is two comments
in a row.  The second joins the first when it stands directly below the line
where the first began and carries no tag; so at most two lines make one
comment.
-/

namespace Marginalia.Language

open Marginalia.Text

/-- A comment of one line: where it stands and its text. -/
structure LineComment where
  line : UInt32
  text : List Char
  deriving DecidableEq, Repr, Inhabited

namespace LineComment

/-- The comment that a line is on its own. -/
def alone (filepath : String) (tags : TagSet) (c : LineComment) : Comment :=
  { filepath := filepath, text := String.ofList c.text, line := c.line
    kind := tags.classify c.text, multiline := false }

/-- Whether a line joins the comment before it. -/
def joins (tags : TagSet) (previous : Comment) (c : LineComment) : Bool :=
  c.line == previous.line + 1 && tags.classify c.text != .todo

end LineComment

/-- A comment with a further line. -/
def withLine (previous : Comment) (c : LineComment) : Comment :=
  { previous with
    text := previous.text ++ "\n" ++ String.ofList c.text
    multiline := true }

/-- The comments that lines make after a comment that is still open. -/
def mergeAfter (filepath : String) (tags : TagSet) (opened : Comment) :
    List LineComment → List Comment
  | [] => [opened]
  | c :: rest =>
    if c.joins tags opened then mergeAfter filepath tags (withLine opened c) rest
    else opened :: mergeAfter filepath tags (c.alone filepath tags) rest

/-- The comments that lines make. -/
def mergeLines (filepath : String) (tags : TagSet) : List LineComment → List Comment
  | [] => []
  | c :: rest => mergeAfter filepath tags (c.alone filepath tags) rest

/-- The text of a comment without its number sign and the blanks around it. -/
def stripHash (text : List Char) : List Char :=
  match text with
  | '#' :: rest => trim rest
  | text => trim text

/-- The line comments of a Python source. -/
def pythonLines (source : List Char) : List LineComment :=
  (Syntax.Python.comments source).map fun (row, text) =>
    ⟨UInt32.ofNat row + 1, stripHash text⟩

end Marginalia.Language
