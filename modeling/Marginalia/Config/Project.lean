import Marginalia.Config.Document

set_option autoImplicit false

/-!
# Settings in a file tree

A project is a directory with a state directory in it that holds the settings.
It is found from any directory below it.
-/

namespace Marginalia.Config

/-- Loads a file of settings. -/
def load (t : FileTree) (p : Path) : Except ConfigError Config :=
  match t.read p with
  | .error _ => .error .io
  | .ok content =>
    match content.text? with
    | none => .error .io
    | some text =>
      match read? text with
      | some c => .ok c
      | none => .error .json

/-- Writes the settings to their file.  The source root must be a text. -/
def save (c : Config) (t : FileTree) : Except ConfigError FileTree :=
  if c.sourceRoot.bytes.isText then
    match t.writeText c.configPath c.print with
    | .ok t => .ok t
    | .error _ => .error .io
  else .error .json

/-- The file of settings of a project at a directory. -/
def candidate (directory : Path) : Path :=
  (directory.child stateDirectoryName).child configFileName

/-- Loads the settings of the nearest project around a directory. -/
def discover (t : FileTree) (start : Path) : Except ConfigError Config :=
  match (start.ancestors.map candidate).find? t.isFile with
  | some p => load t p
  | none => .error (.notInitialized start)

/-- Sets up a project for a source folder as seen from a directory.  The tree is
returned as it is left, also after a failure. -/
def init (t : FileTree) (directory folder : Path) : Except ConfigError Config × FileTree :=
  let path := directory.join folder
  if !t.isDirectory path then (.error (.notADirectory folder), t)
  else
    match t.canonical path with
    | .error _ => (.error .io, t)
    | .ok root =>
      let c := ofRoot root
      if t.pathExists c.configPath then (.error (.alreadyInitialized c.stateDirectory), t)
      else
        match t.makeDirectories c.stateDirectory with
        | .error _ => (.error .io, t)
        | .ok made =>
          match c.save made with
          | .ok saved => (.ok c, saved)
          | .error e => (.error e, made)

end Marginalia.Config
