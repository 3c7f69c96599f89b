import Marginalia.Note.Comment

set_option autoImplicit false

/-!
# What can go wrong in the store
-/

namespace Marginalia

/-- A place where at most one row may have a value. -/
inductive Constraint where
  /-- one note for an identifier -/
  | noteId
  /-- one note for a location -/
  | location
  /-- one text for an identifier -/
  | textId
  deriving DecidableEq, Repr, Inhabited

/-- The columns that a constraint is about. -/
def Constraint.columns : Constraint → String
  | .noteId => "notes.id"
  | .location => "notes.filepath, notes.line"
  | .textId => "note_contents.note_id"

/-- Why a stored column cannot be read. -/
inductive ColumnFault where
  /-- the text is no identifier -/
  | id
  /-- the line is no number -/
  | line
  /-- the line is a number that counts no line -/
  | lineRange (value : Int)
  /-- no kind goes by that word -/
  | kind (word : String)
  /-- the time of creation is no timestamp -/
  | createdAt
  /-- the time of the last change is no timestamp -/
  | updatedAt
  deriving DecidableEq, Repr, Inhabited

namespace ColumnFault

/-- The position of the column among those that are read. -/
def column : ColumnFault → Nat
  | .id => 0
  | .line => 2
  | .lineRange _ => 2
  | .kind _ => 3
  | .createdAt => 4
  | .updatedAt => 5

/-- What there is to say beyond the position. -/
def message? : ColumnFault → Option String
  | .kind word => some ("unknown note kind '" ++ word ++ "'")
  | _ => none

end ColumnFault

/-- A fault of the tables themselves. -/
inductive BackendFault where
  /-- a value is taken that must be unique -/
  | unique (c : Constraint)
  /-- a text has no note -/
  | foreignKey
  /-- a column of a row cannot be read -/
  | column (f : ColumnFault)
  deriving DecidableEq, Repr, Inhabited

/-- What is said of a fault of the tables, if it is not about a column. -/
def BackendFault.message? : BackendFault → Option String
  | .unique c => some ("UNIQUE constraint failed: " ++ c.columns)
  | .foreignKey => some "FOREIGN KEY constraint failed"
  | .column f => f.message?

/-- Why a call of the store fails. -/
inductive StoreError where
  /-- there is no note at the location -/
  | notFound (filepath : String) (line : UInt32)
  /-- there is a note at the location already -/
  | alreadyExists (filepath : String) (line : UInt32)
  /-- the tables do not allow it -/
  | backend (f : BackendFault)
  /-- a record makes no sense -/
  | corrupt (reason : String)
  deriving DecidableEq, Repr, Inhabited

/-- What is said of a failed call.  A fault of the tables speaks for itself. -/
def StoreError.message? : StoreError → Option String
  | .notFound filepath line => some ("Could not find a note at " ++ locationKey filepath line)
  | .alreadyExists filepath line => some ("A note already exists at " ++ locationKey filepath line)
  | .backend f => f.message?
  | .corrupt reason => some ("Corrupt note record: " ++ reason)

end Marginalia
