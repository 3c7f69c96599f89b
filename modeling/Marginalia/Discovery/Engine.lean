import Marginalia.Discovery.Reading
import Marginalia.Discovery.Sources

set_option autoImplicit false

/-!
# Discovering comments

An engine scans the sources below a root with the extractors of a registry.  One
job extracts the comments of one file; jobs run side by side and finish in any
order, and the comments of a file stay together.  A file that cannot be read and
a job that breaks down add nothing.
-/

namespace Marginalia.Discovery

open Marginalia.Language (Extractor Registry)

/-- The number of workers used when none is given. -/
def defaultWorkers : Nat := 4

/-- The number of files read at a time when none is given. -/
def defaultReadChunk : Nat := 16

/-- The most workers there can be. -/
def maxWorkers : Nat := 65535

/-- The number of workers for a wish: at least one, and not more than there can
be. -/
def poolWidth (wish : Nat) : Nat := min (max wish 1) maxWorkers

/-- How to scan. -/
structure Options where
  workers : Nat := defaultWorkers
  readChunk : Nat := defaultReadChunk
  /-- wildcard patterns of what to stay out of -/
  exclude : List String := []
  /-- directories to stay out of -/
  skipDirectories : List Path := []
  deriving DecidableEq, Repr, Inhabited

/-- Why there is no scan. -/
inductive Fault where
  /-- the file to scan does not exist -/
  | sourceMissing (filepath : String)
  /-- the root is not a directory -/
  | rootMissing (root : Path)
  /-- no language is registered -/
  | emptyRegistry
  deriving DecidableEq, Repr, Inhabited

/-- What is said of a scan that there is not. -/
def Fault.message : Fault → String
  | .sourceMissing filepath => "Source file '" ++ filepath ++ "' no longer exists"
  | .rootMissing root => "Source root " ++ root.quoted ++ " is not a directory"
  | .emptyRegistry => "No languages are registered"

/-- Scans the sources below a root. -/
structure Engine where
  root : Path
  registry : Registry
  exclusions : Exclusions
  workers : Nat
  readChunk : Nat
  deriving Inhabited

/-- The work on one file. -/
structure Job where
  /-- the path recorded on each comment -/
  filepath : String
  text : String
  extractor : Extractor

/-- The comments of the file, unless the job breaks down. -/
def Job.comments? (job : Job) (tags : TagSet) : Option (List Comment) :=
  job.extractor.extract job.filepath job.text tags

namespace Engine

/-- The engine for a root; it needs at least one language. -/
def create? (root : Path) (registry : Registry) (o : Options) : Except Fault Engine :=
  if registry.isEmpty then .error .emptyRegistry
  else
    .ok { root := root, registry := registry
          exclusions := .ofTexts o.exclude o.skipDirectories
          workers := poolWidth o.workers, readChunk := o.readChunk }

/-- The path recorded for a file. -/
def recordedPath (e : Engine) (p : Path) : String := e.root.relativeTo p

/-- The jobs for the files of one extension. -/
def jobsFor (e : Engine) (t : FileTree) (extension : String) (files : List Path) : List Job :=
  match e.registry.get? extension with
  | none => []
  | some extractor =>
    (readable (readAll t e.readChunk files)).map fun f =>
      ⟨e.recordedPath f.1, f.2, extractor⟩

/-- The jobs in the order in which they are handed to the workers. -/
def jobs (e : Engine) (t : FileTree) : List Job :=
  (sources e.exclusions t e.root e.registry.extensions).entries.flatMap fun s =>
    e.jobsFor t s.1 s.2

/-- The comments of jobs that finish in the order of the list. -/
def gather (tags : TagSet) (finished : List Job) : List Comment :=
  (finished.filterMap (·.comments? tags)).flatten

/-- All comments below the root.  `finish` is the order in which the jobs
finish. -/
def discover (e : Engine) (t : FileTree) (tags : List String)
    (finish : List Job → List Job) : Except Fault (List Comment) :=
  if t.isDirectory e.root then .ok (gather (TagSet.ofList tags) (finish (e.jobs t)))
  else .error (.rootMissing e.root)

/-- The path of a file given absolute or relative to the root. -/
def resolve (e : Engine) (file : Path) : Path := e.root.join file

/-- The comments of one file that carry a tag.  A file that is not there is told
apart from a file without such comments. -/
def discoverFile (e : Engine) (t : FileTree) (tags : List String) (file : Path) :
    Except Fault (List Comment) :=
  let path := e.resolve file
  let filepath := e.recordedPath path
  match t.stat path with
  | .error .notFound => .error (.sourceMissing filepath)
  | .ok (_, .file _) =>
    match e.registry.get? (path.extension?.getD ""), readText t path with
    | some extractor, .ok text =>
      let found := ((⟨filepath, text, extractor⟩ : Job).comments? (TagSet.ofList tags)).getD []
      .ok (found.filter (·.kind == .todo))
    | _, _ => .ok []
  | _ => .ok []

end Engine

end Marginalia.Discovery
