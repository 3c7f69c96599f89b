import Marginalia.Json.Printer
import Marginalia.Json.Reader
import Marginalia.Store.Basic

set_option autoImplicit false

/-!
# The tables of a store as a JSON document

Each table is an array of rows and each row an array of its columns, so that a
file can keep what the tables hold, unreadable columns included.
-/

namespace Marginalia.Store

open Marginalia.Json (Value member)

/-- The number of either sign as a JSON value. -/
def integer (n : Int) : Value := .number (String.ofList (Text.decimalInt n))

/-- A line cell as a JSON value; a fraction is the pair of its terms, and an
infinite number tells whether it is negative. -/
def cellValue : LineCell → Value
  | .whole n => integer n
  | .fraction r => .array [integer r.num, integer r.den]
  | .infinite negative => .bool negative
  | .text s => .ofString s

/-- A row of the note table as a JSON value. -/
def rowValue (r : Row) : Value :=
  .array
    [.ofString r.id, .ofString r.filepath, cellValue r.line, .ofString r.kind,
     .ofOption r.username, .ofOption r.email, .ofString r.createdAt, .ofString r.updatedAt]

/-- A row of the text table as a JSON value. -/
def textRowValue (r : TextRow) : Value := .array [.ofString r.noteId, .ofString r.text]

/-- The document of a store. -/
def toValue (s : Store) : Value :=
  .object [member "notes" (.array (s.notes.map rowValue)),
    member "texts" (.array (s.texts.map textRowValue))]

/-- The text of the document. -/
def print (s : Store) : String := s.toValue.print

/-! ## Reading -/

/-- The number that a value is. -/
def integer? : Value → Option Int
  | .number literal =>
    match literal.toList with
    | '-' :: digits => (Text.readDecimal? digits).map fun n => -(n : Int)
    | digits => (Text.readDecimal? digits).map fun n => (n : Int)
  | _ => none

/-- The line cell that a value describes. -/
def cellOf? : Value → Option LineCell
  | .array [num, den] => do return .fraction (mkRat (← integer? num) (← integer? den).toNat)
  | .bool negative => some (.infinite negative)
  | .text content => content.map .text
  | v => (integer? v).map .whole

/-- The text that a value is, or the absence of one. -/
def optionalText? : Value → Option (Option String)
  | .null => some none
  | .text (some s) => some (some s)
  | _ => none

/-- The row of the note table that a value describes. -/
def rowOf? : Value → Option Row
  | .array [.text (some id), .text (some filepath), line, .text (some kind), username, email,
      .text (some createdAt), .text (some updatedAt)] => do
    return ⟨id, filepath, ← cellOf? line, kind, ← optionalText? username, ← optionalText? email,
      createdAt, updatedAt⟩
  | _ => none

/-- The row of the text table that a value describes. -/
def textRowOf? : Value → Option TextRow
  | .array [.text (some noteId), .text (some text)] => some ⟨noteId, text⟩
  | _ => none

/-- The store that a value describes. -/
def ofValue? : Value → Option Store
  | .object [(some "notes", .array notes), (some "texts", .array texts)] => do
    return ⟨← notes.mapM rowOf?, ← texts.mapM textRowOf?⟩
  | _ => none

/-- Reads a document. -/
def read? (text : String) : Option Store := (Value.read? text.toList).bind ofValue?

end Marginalia.Store
