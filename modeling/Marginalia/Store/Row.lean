import Marginalia.Note.Basic
import Marginalia.Store.Fault

set_option autoImplicit false

/-!
# Rows of the note table

A row holds what a column can hold, which is more than a note can: texts that
are no identifier, kind or timestamp, and lines that are no number.  Reading a
row says which column is at fault, in a fixed order.
-/

namespace Marginalia

/-- What the line column holds.  It prefers whole numbers: a text or another
number is kept as such only when it is no whole number in range. -/
inductive LineCell where
  | whole (n : Int)
  /-- a number that is not whole or out of the range of whole numbers -/
  | fraction (r : Rat)
  /-- a number beyond all others on its side of zero -/
  | infinite (negative : Bool)
  | text (s : String)
  deriving DecidableEq, Repr, Inhabited

namespace LineCell

/-- The cell of a line number. -/
def ofLine (line : UInt32) : LineCell := .whole line.toNat

/-- Numbers by size. -/
def compareNumbers (a b : Rat) : Ordering := if a < b then .lt else if a = b then .eq else .gt

/-- The place of the sort of a cell in the order of cells. -/
def rank : LineCell → Nat
  | .infinite true => 0
  | .whole _ | .fraction _ => 1
  | .infinite false => 2
  | .text _ => 3

/-- The order of cells: numbers by size, then texts by their characters. -/
def compare : LineCell → LineCell → Ordering
  | .whole a, .whole b => Ord.compare a b
  | .whole a, .fraction b => compareNumbers a b
  | .fraction a, .whole b => compareNumbers a b
  | .fraction a, .fraction b => compareNumbers a b
  | .text a, .text b => Ord.compare a b
  | a, b => Ord.compare a.rank b.rank

/-- The line that a cell counts. -/
def read : LineCell → Except ColumnFault UInt32
  | .whole n =>
    if 0 ≤ n && n ≤ 4294967295 then .ok (UInt32.ofNat n.toNat) else .error (.lineRange n)
  | _ => .error .line

end LineCell

/-- A row of the note table. -/
structure Row where
  id : String
  filepath : String
  line : LineCell
  kind : String
  username : Option String
  email : Option String
  createdAt : String
  updatedAt : String
  deriving DecidableEq, Repr, Inhabited

namespace Row

/-- The row of a note. -/
def ofNote (n : Note) : Row :=
  { id := n.id.toText
    filepath := n.filepath
    line := .ofLine n.line
    kind := n.kind.name
    username := n.username
    email := n.email
    createdAt := n.createdAt.toStoredText
    updatedAt := n.updatedAt.toStoredText }

/-- A row with what a draft says, changed at a moment. -/
def revise (r : Row) (d : Draft) (updatedAt : Time.Instant) : Row :=
  { r with
    filepath := d.filepath, line := .ofLine d.line, kind := d.kind.name
    username := d.username, email := d.email, updatedAt := updatedAt.toStoredText }

/-- Whether a row is for a location. -/
def isAt (r : Row) (filepath : String) (line : LineCell) : Bool :=
  r.filepath == filepath && r.line.compare line == .eq

/-- Whether one row is not after another in the order of listings. -/
def notAfter (a b : Row) : Bool :=
  ((compare a.filepath b.filepath).then (a.line.compare b.line)).isLE

/-- A part of a column, or the fault that there is none. -/
def orFault {α : Type} (f : ColumnFault) : Option α → Except ColumnFault α
  | some a => .ok a
  | none => .error f

/-- Reads a row together with the text of the note.  A note without a text has
the empty one. -/
def read (r : Row) (text : Option String) : Except ColumnFault Note := do
  let id ← orFault .id (NoteId.read? r.id)
  let line ← r.line.read
  let kind ← orFault (.kind r.kind) (Kind.ofName? r.kind)
  let createdAt ← orFault .createdAt (Time.Instant.read? r.createdAt.toList)
  let updatedAt ← orFault .updatedAt (Time.Instant.read? r.updatedAt.toList)
  pure { filepath := r.filepath, line := line, kind := kind, text := text.getD ""
         username := r.username, email := r.email
         id := id, createdAt := createdAt, updatedAt := updatedAt }

end Row

end Marginalia
