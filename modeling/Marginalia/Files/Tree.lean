import Marginalia.Path
import Marginalia.Store.Basic

set_option autoImplicit false

/-!
# File trees

A tree of directories, files and symbolic links, held as a list of entries by
their place.  A place is the list of names from the root down, without links and
dots in it.  A file holds bytes, or the tables of a note store.  Whoever works on
a tree may stand in one of its directories; relative paths start there.
-/

namespace Marginalia

/-- What a file holds. -/
inductive Content where
  | bytes (data : ByteArray)
  /-- the tables of a note store, which are no text -/
  | notes (store : Store)
  deriving Inhabited

instance : DecidableEq Content
  | .bytes a, .bytes b =>
    decidable_of_iff (a.data = b.data)
      ⟨fun h => congrArg Content.bytes (ByteArray.ext h), fun h => by cases h; rfl⟩
  | .notes a, .notes b =>
    decidable_of_iff (a = b) ⟨congrArg Content.notes, fun h => by cases h; rfl⟩
  | .bytes _, .notes _ => isFalse nofun
  | .notes _, .bytes _ => isFalse nofun

/-- The names from the root down to an entry. -/
abbrev Place := List RawText

/-- What stands at a place. -/
inductive Entry where
  | directory
  | file (content : Content)
  | link (target : Path)
  deriving DecidableEq, Inhabited

/-- Why a call on files fails. -/
inductive FileFault where
  | notFound
  /-- something that is not a directory stands where one is needed -/
  | notADirectory
  /-- a directory stands where a file is needed -/
  | isADirectory
  /-- links lead on for too long -/
  | linkLoop
  /-- the path holds the null byte -/
  | invalidInput
  /-- the path or one of its names is too long -/
  | nameTooLong
  /-- something stands there already -/
  | exists
  deriving DecidableEq, Repr, Inhabited

/-- The name of a fault. -/
def FileFault.name : FileFault → String
  | .notFound => "NotFound"
  | .notADirectory => "NotADirectory"
  | .isADirectory => "IsADirectory"
  | .linkLoop => "FilesystemLoop"
  | .invalidInput => "InvalidInput"
  | .nameTooLong => "InvalidFilename"
  | .exists => "AlreadyExists"

/-- A file tree.  The root is a directory that needs no entry. -/
structure FileTree where
  entries : List (Place × Entry)
  /-- the directory relative paths start from -/
  current : Option Place := none
  deriving Inhabited

namespace FileTree

/-- The tree of the root alone. -/
def empty : FileTree := { entries := [] }

/-- What stands at a place. -/
def entryAt? (t : FileTree) (place : Place) : Option Entry :=
  if place = [] then some .directory
  else (t.entries.find? fun e => e.1 == place).map (·.2)

/-- The names in a directory. -/
def namesIn (t : FileTree) (place : Place) : List RawText :=
  t.entries.filterMap fun e =>
    match e.1.getLast? with
    | some name => if e.1.dropLast == place then some name else none
    | none => none

/-- The tree with an entry at a place, in place of the one before. -/
def put (t : FileTree) (place : Place) (entry : Entry) : FileTree :=
  { t with entries := (place, entry) :: t.entries.filter fun e => e.1 != place }

/-- The tree without a place and all below it. -/
def cut (t : FileTree) (place : Place) : FileTree :=
  { t with entries := t.entries.filter fun e => e.1.take place.length != place }

/-- The absolute path of a place. -/
def pathOf (place : Place) : Path := Path.ofParts (.root :: place.map Path.Part.name)

end FileTree

end Marginalia
