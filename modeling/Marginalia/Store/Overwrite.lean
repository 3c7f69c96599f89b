import Marginalia.Store.Basic
import Marginalia.Store.Numeral

set_option autoImplicit false

/-!
# Writing columns behind the store's back

Whoever has the tables can put into a column what the store never would.  The
constraints of the tables hold for such writes too, all but the one that ties a
text to its note.  A line column makes a number of a text that looks like one;
the other columns make a text of a number.
-/

namespace Marginalia

open Marginalia.Text

/-- A value written into a column. -/
inductive RawValue where
  | number (n : Int)
  | text (s : String)
  deriving DecidableEq, Repr, Inhabited

namespace RawValue

/-- The value in a column of texts. -/
def toText : RawValue → String
  | .number n => String.ofList (decimalInt n)
  | .text s => s

/-- The cell of a number that a text looks like.  Digits alone are taken exactly
as long as they are in the range of whole numbers. -/
def cellOfReading (r : Numeral.Reading) : LineCell :=
  if r.plain && -9223372036854775808 ≤ r.toInt && r.toInt ≤ 9223372036854775807 then
    .whole r.toInt
  else
    match r.toStored? with
    | none => .infinite r.negative
    | some size =>
      let value := if r.negative then -size else size
      if size.den = 1 && size.num < 9223372036854775808 then .whole value.num else .fraction value

/-- The value in the column of lines. -/
def toLine : RawValue → LineCell
  | .number n => .whole n
  | .text s =>
    match Numeral.read? s with
    | some r => cellOfReading r
    | none => .text s

end RawValue

/-- A column that can be written directly. -/
inductive Column where
  | id
  | kind
  | line
  | createdAt
  | updatedAt
  deriving DecidableEq, Repr, Inhabited

/-- A row with another value in a column. -/
def Row.write (r : Row) (column : Column) (value : RawValue) : Row :=
  match column with
  | .id => { r with id := value.toText }
  | .kind => { r with kind := value.toText }
  | .line => { r with line := value.toLine }
  | .createdAt => { r with createdAt := value.toText }
  | .updatedAt => { r with updatedAt := value.toText }

namespace Store

/-- The constraint that a column takes part in. -/
def constraintOf? : Column → Option Constraint
  | .id => some .noteId
  | .line => some .location
  | _ => none

/-- Writes a column of the note at a location; says how many rows changed. -/
def overwrite (s : Store) (filepath : String) (line : UInt32) (column : Column)
    (value : RawValue) : Except StoreError (Nat × Store) :=
  match s.rowAt? filepath line with
  | none => .ok (0, s)
  | some r =>
    let written := r.write column value
    let others := s.notes.filter (·.id != r.id)
    let clash := match column with
      | .id => others.any (·.id == written.id)
      | .line => others.any (·.isAt written.filepath written.line)
      | _ => false
    match clash, constraintOf? column with
    | true, some c => .error (.backend (.unique c))
    | _, _ => .ok (1, { s with notes := s.notes.map fun o => if o.id == r.id then written else o })

/-- Removes the text of the note at a location; says how many rows changed. -/
def dropText (s : Store) (filepath : String) (line : UInt32) : Nat × Store :=
  match s.rowAt? filepath line with
  | none => (0, s)
  | some r =>
    let kept := s.texts.filter (·.noteId != r.id)
    (s.texts.length - kept.length, { s with texts := kept })

end Store

end Marginalia
