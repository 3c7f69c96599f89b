import Marginalia.Files.Resolve

set_option autoImplicit false

/-!
# Changing a file tree
-/

namespace Marginalia.FileTree

/-- Writes a file, in place of the one before.  A link is followed, also one that
leads to nothing yet. -/
def write (t : FileTree) (p : Path) (content : Content) : Except FileFault FileTree :=
  match t.locate true p with
  | .ok (.found place (.file _)) => .ok (t.put place (.file content))
  | .ok (.found _ _) => .error .isADirectory
  | .ok (.vacant place slash) =>
    if slash then .error .isADirectory else .ok (t.put place (.file content))
  | .error f => .error f

/-- Writes a text into a file. -/
def writeText (t : FileTree) (p : Path) (text : String) : Except FileFault FileTree :=
  t.write p (.bytes text.toUTF8)

/-- Makes a directory unless there is one. -/
def makeDirectory (t : FileTree) (p : Path) : Except FileFault FileTree :=
  match t.locate false p with
  | .ok (.vacant place _) => .ok (t.put place .directory)
  | .ok (.found _ _) => if t.isDirectory p then .ok t else .error .exists
  | .error f => .error f

/-- Makes a directory and those around it, unless it is there. -/
def makeDirectories (t : FileTree) (p : Path) : Except FileFault FileTree :=
  if t.isDirectory p then .ok t
  else (p.ancestors.reverse.filter fun a => a.bytes != []).foldlM makeDirectory t

/-- Makes a link. -/
def makeLink (t : FileTree) (p target : Path) : Except FileFault FileTree :=
  match t.locate false p with
  | .ok (.vacant place false) => .ok (t.put place (.link target))
  | .ok (.vacant _ true) => .error .notFound
  | .ok (.found _ _) => .error .exists
  | .error f => .error f

/-- Removes a directory with all in it.  A link is removed itself; a file is left
where it is. -/
def removeDirectory (t : FileTree) (p : Path) : Except FileFault FileTree :=
  match t.locate false p with
  | .ok (.found _ (.file _)) => .error .notADirectory
  | .ok (.found place _) => .ok (t.cut place)
  | .ok (.vacant _ _) => .error .notFound
  | .error f => .error f

/-- Removes whatever a path names, a link itself and not what it leads to. -/
def remove (t : FileTree) (p : Path) : Except FileFault FileTree :=
  match t.locate false p with
  | .ok (.found place _) => .ok (t.cut place)
  | .ok (.vacant _ _) => .error .notFound
  | .error f => .error f

end Marginalia.FileTree
