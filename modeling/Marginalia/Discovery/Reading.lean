import Marginalia.Files.Resolve

set_option autoImplicit false

/-!
# Reading source files

Files are read a few at a time.  A file that cannot be read, or is no UTF-8
text, has a fault of its own and disturbs no other.
-/

namespace Marginalia.Discovery

/-- Why a source file has no text. -/
inductive ReadFault where
  /-- the file cannot be read -/
  | io (f : FileFault)
  /-- the file is no UTF-8 text -/
  | decode (path : Path)
  deriving DecidableEq, Repr, Inhabited

/-- What is said of a file that has no text. -/
def ReadFault.message : ReadFault → String
  | .io f => f.name
  | .decode p => "File " ++ p.quoted ++ " is not valid UTF-8"

/-- The text of a file, or why it has none. -/
abbrev ReadResult := Except ReadFault String

/-- Reads one file. -/
def readText (t : FileTree) (p : Path) : ReadResult :=
  match t.read p with
  | .error f => .error (.io f)
  | .ok content =>
    match content.text? with
    | some text => .ok text
    | none => .error (.decode p)

/-- Cuts a list into pieces of a size, the last one perhaps shorter. -/
def chunks {α : Type} (size : Nat) (l : List α) : List (List α) :=
  match l with
  | [] => []
  | a :: rest =>
    (a :: rest.take (size - 1)) :: chunks size (rest.drop (size - 1))
termination_by l.length
decreasing_by simp only [List.length_drop, List.length_cons]; omega

/-- One result for each path, in the order of paths: the last one, under the path
as it was first given. -/
def oneEach (results : List (Path × ReadResult)) : List (Path × ReadResult) :=
  let alike := (results.mergeSort fun a b => a.1.notAfter b.1).splitBy fun a b => a.1.same b.1
  alike.filterMap fun group =>
    match group.head?, group.getLast? with
    | some first, some last => some (first.1, last.2)
    | _, _ => none

/-- Reads files, at most `size` of them at a time and always at least one. -/
def readAll (t : FileTree) (size : Nat) (paths : List Path) : List (Path × ReadResult) :=
  oneEach ((chunks (max size 1) paths).flatMap fun chunk => chunk.zip (chunk.map (readText t)))

/-- The files that have a text, in the order of paths. -/
def readable (results : List (Path × ReadResult)) : List (Path × String) :=
  (results.filterMap fun e =>
    match e.2 with
    | .ok text => some (e.1, text)
    | .error _ => none).mergeSort fun a b => a.1.notAfter b.1

end Marginalia.Discovery
