import Marginalia.Text.Lines
import Marginalia.Text.Quoted
import Marginalia.Text.Utf8

set_option autoImplicit false

/-!
# Paths

A path is written in bytes, which need be no text.  What it means is its list of
parts: repeated slashes and inner dots vanish, a dot in front of a relative path
stays, and the slash in front of an absolute one is a part of its own.  What is
recorded of a path is a text, and shows a replacement character for what is none.
Nothing here looks at files.
-/

namespace Marginalia

open Marginalia.Text

/-- A path as it is written. -/
structure Path where
  bytes : RawText
  deriving DecidableEq, Repr, Inhabited

namespace Path

/-- A path as it is shown. -/
def text (p : Path) : String := p.bytes.shown

/-- The slash between the names of a path. -/
abbrev slash : UInt8 := 0x2f

/-- The dot before an extension. -/
abbrev dot : UInt8 := 0x2e

/-- A part of a path. -/
inductive Part where
  /-- the slash in front of an absolute path -/
  | root
  /-- a dot in front of a relative path -/
  | here
  /-- two dots -/
  | up
  /-- any other name -/
  | name (s : RawText)
  deriving DecidableEq, Repr, Inhabited

namespace Part

/-- A part as it is written. -/
def bytes : Part → RawText
  | .root => [slash]
  | .here => [dot]
  | .up => [dot, dot]
  | .name s => s

/-- A part as it is shown. -/
def text (part : Part) : String := part.bytes.shown

/-- The place of the sort of a part in the order of parts. -/
def rank : Part → Nat
  | .root => 0
  | .here => 1
  | .up => 2
  | .name _ => 3

/-- The order of parts: by sort, and names by their bytes. -/
def compare (a b : Part) : Ordering :=
  match a, b with
  | .name s, .name t => Ord.compare s t
  | a, b => Ord.compare a.rank b.rank

end Part

/-- The pieces of a path between slashes, empty ones included. -/
def segments (p : Path) : List RawText := splitOn slash p.bytes

/-- Whether a path starts with a slash. -/
def isAbsolute (p : Path) : Bool := p.bytes.head? = some slash

/-- The part that a piece between slashes stands for, if any. -/
def partOf? (segment : RawText) : Option Part :=
  if segment = [] || segment = [dot] then none
  else if segment = [dot, dot] then some .up
  else some (.name segment)

/-- The parts of a path. -/
def parts (p : Path) : List Part :=
  let inner := p.segments.filterMap partOf?
  if p.isAbsolute then .root :: inner
  else if p.segments.head? = some [dot] then .here :: inner
  else inner

/-- The second path as seen from the first: an absolute one stands for itself. -/
def join (base p : Path) : Path :=
  if p.isAbsolute then p
  else if base.bytes = [] || base.bytes.getLast? = some slash then ⟨base.bytes ++ p.bytes⟩
  else ⟨base.bytes ++ slash :: p.bytes⟩

/-- A path with one more name. -/
def child (base : Path) (name : RawText) : Path := base.join ⟨name⟩

/-- The path with the given parts. -/
def ofParts (ps : List Part) : Path := ps.foldl (fun p part => p.join ⟨part.bytes⟩) ⟨[]⟩

/-- Names with slashes between them. -/
def ofNames (names : List RawText) : Path := ⟨[slash].intercalate names⟩

/-- What is left of a list after another in front of it. -/
def stripParts : List Part → List Part → Option (List Part)
  | [], rest => some rest
  | _ :: _, [] => none
  | a :: base, b :: rest => if a = b then stripParts base rest else none

/-- The parts of a path below another. -/
def below? (base p : Path) : Option (List Part) := stripParts base.parts p.parts

/-- Parts as they are shown, with slashes between them.  Dots are left out. -/
def joinParts (ps : List Part) : String :=
  joinWith "/" ((ps.filter (· != .here)).map Part.text)

/-- The text under which a path is known inside a source tree: its parts below
the root of the tree, or all of its parts if it lies elsewhere. -/
def relativeTo (root p : Path) : String := joinParts ((root.below? p).getD p.parts)

/-- Follows one part from a place that is given backwards.  Two dots take a name
back and stop at the root. -/
def follow (place : List Part) (part : Part) : List Part :=
  match part with
  | .here => place
  | .up =>
    match place with
    | .root :: _ => place
    | _ :: rest => rest
    | [] => []
  | part => part :: place

/-- The parts of a path without dots and double dots. -/
def plainParts (p : Path) : List Part := (p.parts.foldl follow []).reverse

/-- The text of a path without dots and double dots: relative to the root of a
source tree if it lies below it, and absolute otherwise. -/
def plainRelativeTo (root p : Path) : String :=
  match stripParts root.parts p.plainParts with
  | some rest => joinParts rest
  | none => (ofParts p.plainParts).text

/-- The last part of a path if it is a name. -/
def fileName? (p : Path) : Option RawText :=
  match p.parts.getLast? with
  | some (.name s) => some s
  | _ => none

/-- What follows the last dot of a name, unless that dot is its first
byte. -/
def extensionOfName? (name : RawText) : Option RawText :=
  let backwards := name.reverse
  match backwards.dropWhile (· != dot) with
  | _ :: _ :: _ => some (backwards.takeWhile (· != dot)).reverse
  | _ => none

/-- The extension of the file a path names, if it is a text. -/
def extension? (p : Path) : Option String :=
  (p.fileName?.bind extensionOfName?).bind RawText.text?

/-- The paths around the place of a list of parts that is given backwards, the
nearest first.  Nothing lies around the root. -/
def enclosing : List Part → List Path
  | [] => []
  | part :: rest => if part = .root then [] else ofParts rest.reverse :: enclosing rest

/-- A path and then the paths of the directories around it, the nearest first. -/
def ancestors (p : Path) : List Path := p :: enclosing p.parts.reverse

/-- The order of paths: part by part, and the shorter first. -/
def compareParts : List Part → List Part → Ordering
  | [], [] => .eq
  | [], _ :: _ => .lt
  | _ :: _, [] => .gt
  | a :: as, b :: bs => (a.compare b).then (compareParts as bs)

/-- Whether one path is not after another in the order of paths. -/
def notAfter (a b : Path) : Bool := (compareParts a.parts b.parts).isLE

/-- Whether two paths have the same parts. -/
def same (a b : Path) : Bool := a.parts == b.parts

/-- A path in double quotes. -/
def quoted (p : Path) : String := p.bytes.quoted

end Path

end Marginalia
