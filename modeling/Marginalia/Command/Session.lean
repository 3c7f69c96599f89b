import Marginalia.Config.Project
import Marginalia.Reconcile.Pass

set_option autoImplicit false

/-!
# What a command works on

A command sees a file tree, the directory it is run in and one line of input.
What it prints and how it leaves the tree stand also when it fails.
-/

namespace Marginalia

/-- Why a command fails: what is said of it, from the outermost reason inwards,
and whether a fault of files, tables or JSON lies at the bottom, whose words are
not the program's. -/
structure Failure where
  reasons : List String
  fromBelow : Bool
  deriving DecidableEq, Repr, Inhabited

namespace Failure

/-- A failure with one reason. -/
def because (reason : String) : Failure := ⟨[reason], false⟩

/-- A failure of which there is nothing to say but what lies at the bottom. -/
def below : Failure := ⟨[], true⟩

/-- A failure of files or tables while something was attempted. -/
def during (reason : String) : Failure := ⟨[reason], true⟩

/-- A failure for a reason that may be unspoken. -/
def ofReason? : Option String → Failure
  | some reason => because reason
  | none => below

/-- The failure that an error of the settings is. -/
def ofConfig (e : ConfigError) : Failure := ofReason? e.message?

/-- The failure that an error of the store is. -/
def ofStore (e : StoreError) : Failure :=
  match e with
  | .backend _ => below
  | e => ofReason? e.message?

/-- The failure that a scan that there is not is. -/
def ofScan (f : Discovery.Fault) : Failure := because f.message

end Failure

/-- What a command works on. -/
structure Session where
  tree : FileTree
  /-- the directory the command is run in -/
  directory : Path
  /-- the line that may be asked for -/
  input : String
  /-- identifiers and times still to come -/
  draws : Nat → Draw
  /-- what has been printed -/
  printed : String

/-- The session with its tree as it is for somebody who stands in the directory
the command is run in. -/
def Session.standing (s : Session) : Session := { s with tree := s.tree.standingIn s.directory }

/-- Part of a command. -/
abbrev Run := ExceptT Failure (StateM Session)

namespace Run

/-- Prints a text. -/
def put (s : String) : Run Unit :=
  modify fun session => { session with printed := session.printed ++ s }

/-- Prints a line. -/
def say (s : String) : Run Unit := put (s ++ "\n")

/-- Goes on with a value, or fails. -/
def orFail {ε α : Type} (failure : ε → Failure) : Except ε α → Run α
  | .ok a => pure a
  | .error e => throw (failure e)

/-- Changes the tree. -/
def setTree (t : FileTree) : Run Unit := modify fun session => { session with tree := t }

/-- The present tree. -/
def tree : Run FileTree := do return (← get).tree

/-- An identifier nobody has and the time. -/
def draw : Run Draw := do
  let session ← get
  set { session with draws := fun n => session.draws (n + 1) }
  pure (session.draws 0)

/-- The path of the directory the command is run in, without links in it. -/
def here : Run Path := do
  let session ← get
  pure ((session.tree.canonical session.directory).toOption.getD session.directory)

/-! ## Notes -/

/-- The store in a file.  A file that is not there, or holds a byte at most,
becomes the store without notes. -/
def openStore (t : FileTree) (p : Path) : Option (Store × FileTree) :=
  match t.read p with
  | .ok (.notes s) => some (s, t)
  | .ok (.bytes data) =>
    if data.size ≤ 1 then (t.write p (.notes .empty)).toOption.map fun t => (.empty, t) else none
  | .error .notFound => (t.write p (.notes .empty)).toOption.map fun t => (.empty, t)
  | .error _ => none

/-- Opens the store of a project, or fails while doing what is said. -/
def openNotes (c : Config) (reason : String) : Run Unit := do
  match openStore (← tree) c.notesPath with
  | some (_, t) => setTree t
  | none => throw (.during reason)

/-- The store of a project that is open. -/
def notes (c : Config) : Run Store := do
  match openStore (← tree) c.notesPath with
  | some (s, _) => pure s
  | none => pure .empty

/-- Writes the store of a project. -/
def setNotes (c : Config) (s : Store) : Run Unit := do
  match (← tree).write c.notesPath (.notes s) with
  | .ok t => setTree t
  | .error _ => throw .below

/-- Runs a client of the store to its end. -/
def attempt {α : Type} (c : Config) (script : Reconcile.Attempt α) : Run α := do
  let session ← get
  let (result, desk) := script.run Desk.answer ⟨← notes c, session.draws⟩
  modify fun session => { session with draws := desk.draws }
  setNotes c desk.store
  orFail .ofStore result

end Run

end Marginalia
