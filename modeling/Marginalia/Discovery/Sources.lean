import Marginalia.Files.Walk
import Marginalia.Glob
import Marginalia.Language.Registry

set_option autoImplicit false

/-!
# The source files of a tree

Which files a scan looks at: those reached by the walk whose extension is wanted
and that no exclusion keeps out.  An exclusion names a directory, or is a
wildcard pattern for paths relative to the root that are texts; it also keeps out
all that lies below.
-/

namespace Marginalia.Discovery

/-- What a scan stays out of. -/
structure Exclusions where
  globs : List Glob
  directories : List Path
  deriving Inhabited

namespace Exclusions

/-- The exclusions of some patterns and directories.  A text that is no pattern
excludes nothing. -/
def ofTexts (patterns : List String) (directories : List Path) : Exclusions :=
  ⟨patterns.filterMap Glob.read?, directories⟩

/-- Whether an entry of a walk from a root is kept out. -/
def excludes (x : Exclusions) (root : Path) (v : FileTree.Visit) : Bool :=
  (v.directory && x.directories.any fun d => (v.names.foldl Path.child root).same d) ||
    x.globs.any fun g => (Path.ofNames v.names).bytes.text?.any g.matchesPath

end Exclusions

/-- The path of an entry of a walk. -/
def pathOf (root : Path) (v : FileTree.Visit) : Path := v.names.foldl Path.child root

/-- The files of a walk with the extension that each is looked up under. -/
def walkedFiles (x : Exclusions) (t : FileTree) (root : Path) : List (String × Path) :=
  (t.walk (fun v => !x.excludes root v) root).filterMap fun v =>
    if v.directory then none
    else (pathOf root v).extension?.map fun e => (Language.normalExtension e, pathOf root v)

/-- The source files by extension, in the order of paths.  Every wanted extension
has an entry, if only an empty one. -/
def sources (x : Exclusions) (t : FileTree) (root : Path) (extensions : List String) :
    Index (List Path) :=
  let files := walkedFiles x t root
  let filesOf (extension : String) : List Path :=
    ((files.filter (·.1 == extension)).map (·.2)).mergeSort Path.notAfter
  Index.ofList ((extensions.map Language.normalExtension).map fun e => (e, filesOf e))

end Marginalia.Discovery
