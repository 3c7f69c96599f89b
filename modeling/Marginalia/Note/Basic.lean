import Marginalia.Json.Value
import Marginalia.Note.Comment
import Marginalia.Note.Id
import Marginalia.Text.Blank
import Marginalia.Time.Rfc3339

set_option autoImplicit false

/-!
# Notes

A note is what the store remembers of a comment, or a remark written by hand.
A draft is a note before it is given an identifier and its times.
-/

namespace Marginalia

open Marginalia.Time

/-- The part of a note that its author decides. -/
structure Draft where
  /-- the file, relative to the source root -/
  filepath : String
  line : UInt32
  kind : Kind
  text : String
  /-- who wrote the note, if it was written by hand -/
  username : Option String
  email : Option String
  deriving DecidableEq, Repr, Inhabited

/-- A note as callers see it. -/
structure Note extends Draft where
  id : NoteId
  createdAt : Instant
  updatedAt : Instant
  deriving DecidableEq, Repr, Inhabited

namespace Draft

/-- The key of the place a draft is for. -/
def key (d : Draft) : String := locationKey d.filepath d.line

/-- The draft that records a comment; nobody is its author. -/
def ofComment (c : Comment) : Draft :=
  { filepath := c.filepath, line := c.line, kind := c.kind, text := c.text
    username := none, email := none }

/-- The draft with an author.  Names are trimmed, and blank ones dropped. -/
def withAuthor (d : Draft) (username email : Option String) : Draft :=
  { d with username := username.bind Text.trimmed?, email := email.bind Text.trimmed? }

/-- The note that a draft becomes at a moment. -/
def toNote (d : Draft) (id : NoteId) (now : Instant) : Note :=
  { d with id := id, createdAt := now, updatedAt := now }

end Draft

namespace Note

/-- The key of the place a note is for. -/
def key (n : Note) : String := n.toDraft.key

/-- The note on one line, with the time of its last change. -/
def summary (n : Note) : String := n.text ++ " / " ++ n.updatedAt.toMinuteText

/-- The flat record of a note, members in alphabetic order. -/
def toRecord (n : Note) : Json.Value :=
  .object
    [Json.member "content" (.ofString n.text),
     Json.member "created_at" (.ofString n.createdAt.toOffsetText),
     Json.member "email" (.ofOption n.email),
     Json.member "filepath" (.ofString n.filepath),
     Json.member "id" (.ofString n.id.toText),
     Json.member "line" (.number (Text.decimalString n.line.toNat)),
     Json.member "type" (.ofString n.kind.name),
     Json.member "updated_at" (.ofString n.updatedAt.toOffsetText),
     Json.member "username" (.ofOption n.username)]

/-- The record that keeps the description of a note apart from its text. -/
def toNestedRecord (n : Note) : Json.Value :=
  .object
    [Json.member "note" (.object
      [Json.member "id" (.ofString n.id.toText),
       Json.member "filepath" (.ofString n.filepath),
       Json.member "line" (.number (Text.decimalString n.line.toNat)),
       Json.member "kind" (.ofString n.kind.name),
       Json.member "username" (.ofOption n.username),
       Json.member "email" (.ofOption n.email),
       Json.member "created_at" (.ofString n.createdAt.toZuluText),
       Json.member "updated_at" (.ofString n.updatedAt.toZuluText)]),
     Json.member "content" (.object [Json.member "text" (.ofString n.text)])]

end Note

end Marginalia
