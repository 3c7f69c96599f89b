import Marginalia.Store.Row
import Marginalia.Text.Find
import Marginalia.Text.Lower

set_option autoImplicit false

/-!
# The store

Notes live in two tables: one describes them and one holds their texts, joined
by the identifier.  Every call changes both tables or neither.  Listings are in
the order of file and line.
-/

namespace Marginalia

open Marginalia.Time (Instant)

/-- The text of a note, by the identifier of the note. -/
structure TextRow where
  noteId : String
  text : String
  deriving DecidableEq, Repr, Inhabited

/-- The two tables. -/
structure Store where
  notes : List Row
  texts : List TextRow
  deriving DecidableEq, Repr, Inhabited

namespace Store

/-- The store without notes. -/
def empty : Store := ⟨[], []⟩

/-! ## Reading -/

/-- The text stored under an identifier. -/
def textOf? (s : Store) (id : String) : Option String :=
  (s.texts.find? (·.noteId == id)).map (·.text)

/-- Reads a row of the store. -/
def readRow (s : Store) (r : Row) : Except StoreError Note :=
  match r.read (s.textOf? r.id) with
  | .ok n => .ok n
  | .error f => .error (.backend (.column f))

/-- The rows in the order of listings. -/
def ordered (s : Store) : List Row := s.notes.mergeSort Row.notAfter

/-- The notes whose rows pass a test.  One row that cannot be read spoils the
whole listing. -/
def select (s : Store) (test : Row → Bool) : Except StoreError (List Note) :=
  (s.ordered.filter test).mapM s.readRow

/-- All notes. -/
def all (s : Store) : Except StoreError (List Note) := s.select fun _ => true

/-- The notes of a file. -/
def byFile (s : Store) (filepath : String) : Except StoreError (List Note) :=
  s.select (·.filepath == filepath)

/-- The notes of a kind. -/
def byKind (s : Store) (kind : Kind) : Except StoreError (List Note) :=
  s.select (·.kind == kind.name)

/-- Whether a text is found in another, the letters A to Z in either case. -/
def matchesText (text query : String) : Bool :=
  Text.contains (Text.lowerAscii text.toList) (Text.lowerAscii query.toList)

/-- The notes that have a text in which the query is found. -/
def search (s : Store) (query : String) : Except StoreError (List Note) :=
  s.select fun r => (s.textOf? r.id).any (matchesText · query)

/-- The row at a location. -/
def rowAt? (s : Store) (filepath : String) (line : UInt32) : Option Row :=
  s.notes.find? (·.isAt filepath (.ofLine line))

/-- The note at a location. -/
def get (s : Store) (filepath : String) (line : UInt32) : Except StoreError Note :=
  match s.rowAt? filepath line with
  | some r => s.readRow r
  | none => .error (.notFound filepath line)

/-- The number of notes. -/
def count (s : Store) : Nat := s.notes.length

/-! ## Changing -/

/-- Adds a note.  A taken location is reported before a taken identifier. -/
def create (s : Store) (n : Note) : Except StoreError Store :=
  let row := Row.ofNote n
  if s.notes.any (·.isAt row.filepath row.line) then
    .error (.alreadyExists n.filepath n.line)
  else if s.notes.any (·.id == row.id) then .error (.backend (.unique .noteId))
  else if s.texts.any (·.noteId == row.id) then .error (.backend (.unique .textId))
  else .ok ⟨s.notes ++ [row], s.texts ++ [⟨row.id, n.text⟩]⟩

/-- Puts a text under an identifier. -/
def putText (s : Store) (id text : String) : Except StoreError (List TextRow) :=
  if s.texts.any (·.noteId == id) then
    .ok (s.texts.map fun t => if t.noteId == id then ⟨id, text⟩ else t)
  else if s.notes.any (·.id == id) then .ok (s.texts ++ [⟨id, text⟩])
  else .error (.backend .foreignKey)

/-- Replaces the note at a location by a draft, which may be for another
location.  Identifier and time of creation stay; the time of the last change
moves forward even when the clock does not. -/
def update (s : Store) (filepath : String) (line : UInt32) (d : Draft) (now : Instant) :
    Except StoreError Store := do
  let existing ← s.get filepath line
  let id := existing.id.toText
  let updatedAt := now.latest existing.updatedAt.nextMicro
  let taken := s.notes.any fun r => r.id != id && r.isAt d.filepath (.ofLine d.line)
  if taken && s.notes.any (·.id == id) then .error (.alreadyExists d.filepath d.line)
  else
    let texts ← s.putText id d.text
    .ok ⟨s.notes.map fun r => if r.id == id then r.revise d updatedAt else r, texts⟩

/-- Removes the note at a location, if there is one. -/
def delete (s : Store) (filepath : String) (line : UInt32) : Store :=
  match s.rowAt? filepath line with
  | some r => ⟨s.notes.filter (·.id != r.id), s.texts.filter (·.noteId != r.id)⟩
  | none => s

/-- Removes all notes of a file. -/
def deleteFile (s : Store) (filepath : String) : Store :=
  let gone (id : String) := s.notes.any fun r => r.filepath == filepath && r.id == id
  ⟨s.notes.filter (·.filepath != filepath), s.texts.filter fun t => !gone t.noteId⟩

end Store

end Marginalia
