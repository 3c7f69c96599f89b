import Marginalia.Files.Tree

set_option autoImplicit false

/-!
# Finding the place a path leads to

Links are followed as they come up, at most forty of them.  A path that goes on
after a file fails, also when only a slash or a dot follows.  A relative path
leads nowhere unless somebody stands in a directory of the tree.
-/

namespace Marginalia

/-- Where a path leads to. -/
inductive Spot where
  /-- something stands there -/
  | found (place : Place) (entry : Entry)
  /-- a directory stands around it but nothing there; `slash` tells whether the
  path goes on with a slash -/
  | vacant (place : Place) (slash : Bool)
  deriving DecidableEq, Inhabited

/-- The number of links that are followed. -/
def linkBudget : Nat := 40

/-- The longest name in bytes. -/
def maxNameLength : Nat := 255

/-- The length in bytes at which a path becomes too long. -/
def pathLengthLimit : Nat := 4096

namespace FileTree

/-- Follows the pieces of a path from a directory.  `links` is the number of links
that may still be followed; the last one is followed if `last` says so. -/
def follow (t : FileTree) (last : Bool) :
    (links : Nat) → (place : Place) → (pieces : List RawText) → Except FileFault Spot
  | _, place, [] => .ok (.found place .directory)
  | links, place, piece :: rest =>
    if piece = [] || piece = [Path.dot] then follow t last links place rest
    else if piece = [Path.dot, Path.dot] then follow t last links place.dropLast rest
    else if maxNameLength < piece.length then .error .nameTooLong
    else
      let here := place ++ [piece]
      match t.entryAt? here with
      | none =>
        if rest.all (· == []) then .ok (.vacant here (!rest.isEmpty)) else .error .notFound
      | some .directory => follow t last links here rest
      | some (.file content) =>
        if rest.isEmpty then .ok (.found here (.file content)) else .error .notADirectory
      | some (.link target) =>
        if rest.isEmpty && !last then .ok (.found here (.link target))
        else
          match links with
          | 0 => .error .linkLoop
          | links + 1 =>
            follow t last links (if target.isAbsolute then [] else place)
              (target.segments ++ rest)
termination_by links _ pieces => (links, pieces.length)

/-- Where a path leads to, the last link followed or not. -/
def locate (t : FileTree) (last : Bool) (p : Path) : Except FileFault Spot :=
  if p.bytes.contains 0 then .error .invalidInput
  else if p.bytes = [] then .error .notFound
  else if pathLengthLimit ≤ p.bytes.length then .error .nameTooLong
  else if p.isAbsolute then t.follow last linkBudget [] p.segments
  else
    match t.current with
    | some place => t.follow last linkBudget place p.segments
    | none => .error .notFound

/-- The entry that a path leads to, all links followed. -/
def stat (t : FileTree) (p : Path) : Except FileFault (Place × Entry) :=
  match t.locate true p with
  | .ok (.found place entry) => .ok (place, entry)
  | .ok (.vacant _ _) => .error .notFound
  | .error f => .error f

/-- The tree as it is for somebody who stands in a directory. -/
def standingIn (t : FileTree) (directory : Path) : FileTree :=
  match t.stat directory with
  | .ok (place, .directory) => { t with current := some place }
  | _ => { t with current := none }

/-- Whether a path leads to a directory. -/
def isDirectory (t : FileTree) (p : Path) : Bool :=
  match t.stat p with
  | .ok (_, .directory) => true
  | _ => false

/-- Whether a path leads to a file. -/
def isFile (t : FileTree) (p : Path) : Bool :=
  match t.stat p with
  | .ok (_, .file _) => true
  | _ => false

/-- Whether a path leads to anything. -/
def pathExists (t : FileTree) (p : Path) : Bool := (t.stat p).isOk

/-- The path without links and dots of what a path leads to. -/
def canonical (t : FileTree) (p : Path) : Except FileFault Path :=
  (t.stat p).map fun found => pathOf found.1

/-- What the file holds that a path leads to. -/
def read (t : FileTree) (p : Path) : Except FileFault Content :=
  match t.stat p with
  | .ok (_, .file content) => .ok content
  | .ok _ => .error .isADirectory
  | .error f => .error f

end FileTree

/-- The text of a content, if it is one. -/
def Content.text? : Content → Option String
  | .bytes data => String.fromUTF8? data
  | .notes _ => none

end Marginalia
