import Marginalia.Files.Resolve

set_option autoImplicit false

/-!
# Walking a file tree

The walk goes down into directories and follows links.  A link to a directory
that the walk is inside of is passed over, and so is a link that leads nowhere.
A test on names and sort of an entry keeps the walk out of what it refuses.
-/

namespace Marginalia.FileTree

/-- A directory or a file that a walk comes to: the names from the start of the
walk down to it, and whether it is a directory. -/
structure Visit where
  names : List RawText
  directory : Bool
  deriving DecidableEq, Repr, Inhabited

/-- The place and the sort of what a name in a directory leads to.  A link into
one of the directories around it leads nowhere. -/
def enter? (t : FileTree) (inside : List Place) (place : Place) (name : RawText) :
    Option (Place × Bool) :=
  let here := place ++ [name]
  match t.entryAt? here with
  | some .directory => some (here, true)
  | some (.file _) => some (here, false)
  | some (.link _) =>
    match t.stat (pathOf here) with
    | .ok (target, .directory) => if inside.contains target then none else some (target, true)
    | .ok (target, _) => some (target, false)
    | .error _ => none
  | none => none

/-- What the walk comes to from one entry on, the entry included.  `depth` bounds
how far it goes down. -/
def walkFrom (t : FileTree) (keep : Visit → Bool) :
    (depth : Nat) → (inside : List Place) → (names : List RawText) → Place → Bool → List Visit
  | depth, inside, names, place, directory =>
    let visit : Visit := ⟨names, directory⟩
    if !keep visit then []
    else if !directory then [visit]
    else
      match depth with
      | 0 => [visit]
      | depth + 1 =>
        let inside := place :: inside
        visit :: (t.namesIn place).flatMap fun name =>
          match t.enter? inside place name with
          | some (place, directory) =>
            walkFrom t keep depth inside (names ++ [name]) place directory
          | none => []

/-- How far down a walk can go.  Links lead into each directory once at most, and
from there it takes no more steps down than there are entries. -/
def walkDepth (t : FileTree) : Nat := (t.entries.length + 1) * (t.entries.length + 1)

/-- What a walk from a path comes to. -/
def walk (t : FileTree) (keep : Visit → Bool) (start : Path) : List Visit :=
  match t.stat start with
  | .ok (place, .directory) => t.walkFrom keep t.walkDepth [] [] place true
  | .ok (place, _) => t.walkFrom keep t.walkDepth [] [] place false
  | .error _ => []

end Marginalia.FileTree
