import Marginalia.Note.Kind
import Marginalia.Text.Decimal

set_option autoImplicit false

/-!
# Comments and their locations

A comment is what one pass over the source files sees.  The file and the line
it starts at identify it; two texts in one place are the same comment at two
times.
-/

namespace Marginalia

/-- The key of a location: the file, a colon and the line in decimal.  The colon
before the last run of digits is the one that separates, so a key names one
location only. -/
def locationKey (filepath : String) (line : UInt32) : String :=
  filepath ++ ":" ++ Text.decimalString line.toNat

/-- A comment found in a source file. -/
structure Comment where
  /-- the file, relative to the source root -/
  filepath : String
  /-- the text, over several lines when lines were merged -/
  text : String
  /-- the line the comment starts at, counted from one -/
  line : UInt32
  kind : Kind
  /-- whether the comment spans more than one line -/
  multiline : Bool
  deriving DecidableEq, Repr, Inhabited

namespace Comment

/-- The key of the place where a comment starts. -/
def key (c : Comment) : String := locationKey c.filepath c.line

/-- A comment on one line of a listing. -/
def summary (c : Comment) : String := c.key ++ " - " ++ c.text

end Comment

end Marginalia
