import Marginalia.Discovery.Engine
import Marginalia.Files.Edit
import Marginalia.Text.Blank

set_option autoImplicit false

/-!
# Settings of a project

The settings that belong to a source tree, and reading and changing them by key
as text.  Lists are written with commas; a blank text clears a setting that may
be absent.
-/

namespace Marginalia

open Marginalia.Text

/-- The settings of a project. -/
structure Config where
  /-- the scanned source tree -/
  sourceRoot : Path
  tags : List String
  workers : Nat
  readChunk : Nat
  /-- wildcard patterns of what a scan stays out of -/
  exclude : List String
  /-- who writes notes by hand -/
  username : Option String
  email : Option String
  deriving DecidableEq, Repr, Inhabited

/-- Why settings cannot be loaded or changed. -/
inductive ConfigError where
  /-- there is no project around the directory -/
  | notInitialized (start : Path)
  /-- there is a project already -/
  | alreadyInitialized (directory : Path)
  /-- the source folder is not a directory -/
  | notADirectory (folder : Path)
  /-- no setting goes by that key -/
  | unknownKey (key : String)
  /-- the setting cannot be changed -/
  | readOnlyKey (key : String)
  /-- the text is no value of the setting -/
  | invalidValue (key value : String)
  /-- a file cannot be read or written -/
  | io
  /-- the file holds no settings -/
  | json
  deriving DecidableEq, Repr, Inhabited

/-- The name of the directory that holds the state of a project. -/
def stateDirectoryName : String := ".notter"

/-- The name of the file of settings. -/
def configFileName : String := "config.json"

/-- The name of the file of notes. -/
def notesFileName : String := "notes.db"

/-- The name of the file that notes are exported to. -/
def exportFileName : String := "todos.json"

/-- The largest value of a number among the settings. -/
def maxSetting : Nat := 18446744073709551615

namespace Config

/-- The settings of a new project. -/
def ofRoot (root : Path) : Config :=
  { sourceRoot := root, tags := defaultTags
    workers := Discovery.defaultWorkers, readChunk := Discovery.defaultReadChunk
    exclude := [], username := none, email := none }

/-- The directory that holds the state of the project. -/
def stateDirectory (c : Config) : Path := c.sourceRoot.child stateDirectoryName

/-- The file of settings. -/
def configPath (c : Config) : Path := c.stateDirectory.child configFileName

/-- The file of notes. -/
def notesPath (c : Config) : Path := c.stateDirectory.child notesFileName

/-- How the settings want a scan; the state of the project is never scanned. -/
def discoveryOptions (c : Config) : Discovery.Options :=
  { workers := c.workers, readChunk := c.readChunk, exclude := c.exclude
    skipDirectories := [c.stateDirectory] }

/-! ## Keys -/

/-- A setting that has a key. -/
inductive Key where
  | sourceRoot
  | tags
  | workers
  | readChunk
  | exclude
  | username
  | email
  deriving DecidableEq, Repr, Inhabited

namespace Key

/-- All keys in the order in which they are shown. -/
def all : List Key := [.sourceRoot, .tags, .workers, .readChunk, .exclude, .username, .email]

/-- The name of a key. -/
def name : Key → String
  | .sourceRoot => "source_root"
  | .tags => "tags"
  | .workers => "workers"
  | .readChunk => "read_chunk_size"
  | .exclude => "exclude"
  | .username => "username"
  | .email => "email"

/-- The key with a name. -/
def ofName? (s : String) : Option Key := all.find? (·.name == s)

end Key

/-- The value of a setting as text. -/
def value (c : Config) : Key → String
  | .sourceRoot => c.sourceRoot.text
  | .tags => joinWith "," c.tags
  | .workers => decimalString c.workers
  | .readChunk => decimalString c.readChunk
  | .exclude => joinWith "," c.exclude
  | .username => c.username.getD ""
  | .email => c.email.getD ""

/-- The parts of a text between commas, trimmed, without the blank ones. -/
def splitList (s : String) : List String :=
  (splitOn ',' s.toList).filterMap fun part => trimmed? (String.ofList part)

/-- The positive number that a text is, a plus sign in front allowed. -/
def positive? (s : String) : Option Nat :=
  let digits := match trim s.toList with
    | '+' :: digits => digits
    | digits => digits
  (readDecimal? digits).filter fun n => 0 < n && n ≤ maxSetting

/-- The settings with another value, if the text is one. -/
def withValue? (c : Config) (key : Key) (s : String) : Option Config :=
  match key with
  | .sourceRoot => none
  | .tags =>
    match splitList s with
    | [] => none
    | tag :: tags => some { c with tags := tag :: tags }
  | .workers => (positive? s).map fun n => { c with workers := n }
  | .readChunk => (positive? s).map fun n => { c with readChunk := n }
  | .exclude => some { c with exclude := splitList s }
  | .username => some { c with username := trimmed? s }
  | .email => some { c with email := trimmed? s }

/-- The value of the setting with a name. -/
def get (c : Config) (name : String) : Except ConfigError String :=
  match Key.ofName? name with
  | some key => .ok (c.value key)
  | none => .error (.unknownKey name)

/-- Gives the setting with a name another value.  The source root says where the
settings are kept, so it cannot be changed. -/
def set (c : Config) (name s : String) : Except ConfigError Config :=
  match Key.ofName? name with
  | none => .error (.unknownKey name)
  | some .sourceRoot => .error (.readOnlyKey name)
  | some key =>
    match c.withValue? key s with
    | some c => .ok c
    | none => .error (.invalidValue name s)

end Config

/-- What is said of an error; an error of a file or of its form has words of its
own elsewhere. -/
def ConfigError.message? : ConfigError → Option String
  | .notInitialized start =>
    some ("No Notter project found in " ++ start.quoted ++
      " or any parent. Run 'notter init <SRC>' first.")
  | .alreadyInitialized directory =>
    some ("Notter is already initialized at " ++ directory.quoted)
  | .notADirectory folder => some ("Source folder " ++ folder.quoted ++ " is not a directory")
  | .unknownKey key =>
    some ("Unknown config key '" ++ key ++ "'. Known keys: " ++
      joinWith ", " (Config.Key.all.map Config.Key.name))
  | .readOnlyKey key =>
    some ("Config key '" ++ key ++
      "' cannot be changed. Run 'notter init' in the new folder instead.")
  | .invalidValue key value => some ("Invalid value '" ++ value ++ "' for '" ++ key ++ "'")
  | .io => none
  | .json => none

end Marginalia
