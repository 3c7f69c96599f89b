import Marginalia.Command.Usage
import Marginalia.Store.Document
import Std.Time.DateTime.Timestamp

set_option autoImplicit false

/-!
# The program

Looks up on disk what a command may need, runs the command on that tree, and
writes back what has changed.
-/

namespace Marginalia.Disk

/-- What has been looked up: a tree, and the directories whose names it has. -/
structure Loaded where
  tree : FileTree
  listed : List Place

/-- The place of a path that is absolute and free of links and dots. -/
def placeOf (p : Path) : Place := p.segments.filter (· != [])

/-- What a file on disk holds, if a command can ask for it. -/
def contentOf (path : String) : IO Content := do
  let p : Path := ⟨path⟩
  let known := (p.extension?.bind Language.Registry.standard.get?).isSome
  if p.fileName? = some notesFileName then
    let data ← IO.FS.readBinFile path
    match (String.fromUTF8? data).bind Store.read? with
    | some s => pure (.notes s)
    | none => pure (.bytes data)
  else if known || p.fileName? = some configFileName then
    return .bytes (← IO.FS.readBinFile path)
  else pure (.bytes .empty)

mutual
/-- Looks up what stands at a place, and where it leads to if it is a link. -/
partial def look (place : Place) (loaded : Loaded) : IO Loaded := do
  if place.isEmpty || (loaded.tree.entryAt? place).isSome then return loaded
  let path := (FileTree.pathOf place).text
  try
    match (← ((← IO.FS.realPath "/") / path).symlinkMetadata).type with
    | .dir => return { loaded with tree := loaded.tree.put place .directory }
    | .symlink =>
      let target := toString (← IO.FS.realPath path)
      lookAlong ⟨target⟩ { loaded with tree := loaded.tree.put place (.link ⟨target⟩) }
    | _ => return { loaded with tree := loaded.tree.put place (.file (← contentOf path)) }
  catch _ => return loaded

/-- Looks up all that a path leads through. -/
partial def lookAlong (p : Path) (loaded : Loaded) : IO Loaded :=
  p.ancestors.reverse.foldlM (fun loaded a => look (placeOf a) loaded) loaded
end

/-- Looks up all that lies below a path. -/
partial def lookBelow (p : Path) (loaded : Loaded) : IO Loaded := do
  let loaded ← lookAlong p loaded
  match loaded.tree.stat p with
  | .ok (place, .directory) =>
    if loaded.listed.contains place then return loaded
    let names ← try
        pure (← ((← IO.FS.realPath "/") / (FileTree.pathOf place).text).readDir).toList
      catch _ => pure []
    names.foldlM (fun loaded entry =>
      lookBelow (FileTree.pathOf (place ++ [Text.bytes entry.fileName])) loaded)
      { loaded with listed := place :: loaded.listed }
  | _ => return loaded

/-- A path without dots in it and, if it leads to something, also without links. -/
def spellings (p : Path) : IO (List Path) := do
  let plain := Path.ofParts p.plainParts
  try return [plain, ⟨toString (← IO.FS.realPath p.text)⟩]
  catch _ => return [plain]

/-- Looks up what a command line may need: the state of the projects around the
directory it is run in, the sources of the nearest, and the paths it names. -/
def load (directory : Path) (words : List String) : IO FileTree := do
  let named := (← words.mapM fun word : String => spellings (directory.join ⟨word⟩)).flatten
  let states := (named ++ directory.ancestors).map (·.child stateDirectoryName)
  let loaded ← (named ++ [directory]).foldlM (fun loaded p => lookAlong p loaded) ⟨.empty, []⟩
  let loaded ← states.foldlM (fun loaded p => lookBelow p loaded) loaded
  match Config.discover loaded.tree directory with
  | .ok c =>
    let roots ← spellings (directory.join c.sourceRoot)
    return (← roots.foldlM (fun loaded p => lookBelow p loaded) loaded).tree
  | .error _ => return loaded.tree

/-- Writes what stands at a place. -/
def write (place : Place) (entry : Entry) : IO Unit :=
  let path := (FileTree.pathOf place).text
  match entry with
  | .directory => IO.FS.createDirAll path
  | .file (.bytes data) => IO.FS.writeBinFile path data
  | .file (.notes s) => IO.FS.writeFile path s.print
  | .link _ => pure ()

/-- Removes what stands at a place. -/
def remove (place : Place) (entry : Entry) : IO Unit := do
  let path := (FileTree.pathOf place).text
  match entry with
  | .directory => IO.FS.removeDirAll path
  | _ => IO.FS.removeFile path

/-- Makes the disk follow from one tree to another. -/
def follow (before after : FileTree) : IO Unit := do
  let gone := before.entries.filter fun e => (after.entryAt? e.1).isNone
  for (place, entry) in gone do
    if (after.entryAt? place.dropLast).isSome then remove place entry
  let changed := after.entries.filter fun e => before.entryAt? e.1 != some e.2
  for (place, entry) in changed.mergeSort fun a b => a.1.length ≤ b.1.length do
    write place entry

/-- Identifiers nobody has, and the time. -/
def draws : IO (Nat → Draw) := do
  let bytes ← IO.getRandomBytes 16
  let start := bytes.toList.foldl (fun n b => 256 * n + b.toNat) 0
  let now ← Std.Time.Timestamp.now
  let nanos := now.toNanosecondsSinceUnixEpoch.toInt
  pure fun n => ⟨.ofRandom (start + n), ⟨nanos / 1000000000, (nanos % 1000000000).toNat⟩⟩

end Marginalia.Disk

open Marginalia

/-- Runs the command line on the files of the disk. -/
def main (words : List String) : IO UInt32 := do
  let directory : Path := ⟨toString (← IO.FS.realPath (← IO.currentDir))⟩
  let tree ← Disk.load directory words
  let session : Session := ⟨tree, directory, "", ← Disk.draws, ""⟩
  let asked := match Command.read words with
    | .ok command => (command.question.run.run session).2.printed
    | .error _ => ""
  IO.print asked
  (← IO.getStdout).flush
  let input ← if asked.isEmpty then pure "" else (← IO.getStdin).getLine
  let (ending, after) := runWords words { session with input := input }
  IO.print (after.printed.drop asked.length)
  Disk.follow tree after.tree
  if let some message := ending.message? then IO.eprintln message
  return ending.exitCode.toUInt32
