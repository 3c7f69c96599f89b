import Marginalia.Collection.Index
import Marginalia.Language.Merging
import Marginalia.Language.Rule
import Marginalia.Language.Selection
import Marginalia.Text.Lines
import Marginalia.Text.Quoted

set_option autoImplicit false

/-!
# Extractors and the registry of languages

An extractor finds the comments of one file from its text alone.  The registry
holds an extractor for every file extension it knows.  Leading dots and letter
case of an extension do not count, whoever names it.
-/

namespace Marginalia.Language

open Marginalia.Text

/-- A way to find the comments of a file.  An extractor that breaks down has no
answer. -/
structure Extractor where
  name : String
  /-- the comments of the file with a given path and text -/
  extract : String → String → TagSet → Option (List Comment)

namespace Extractor

/-- The extractor that never answers, under the name of another. -/
def broken (e : Extractor) : Extractor := { e with extract := fun _ _ _ => none }

/-- The extractor that chooses among what finders find. -/
def ofFinders (name : String) (finders : List Finder) : Extractor where
  name := name
  extract := fun filepath text tags =>
    some (patternComments finders filepath text.toList tags)

/-- The extractor that merges the line comments of a text. -/
def ofLines (name : String) (lines : List Char → List LineComment) : Extractor where
  name := name
  extract := fun filepath text tags => some (mergeLines filepath tags (lines text.toList))

/-- The extractor of the patterns of a rule, if an engine can read them. -/
def ofRuleBy? (engine : Engine) (rule : Rule) : Option Extractor :=
  (rule.compile? engine).map (ofFinders rule.name)

/-- The extractor of the patterns of a rule, if they can be read as machines. -/
def ofRule? (rule : Rule) : Option Extractor := ofRuleBy? machineEngine rule

/-- The extractor of Python sources. -/
def python : Extractor := ofLines "python" pythonLines

end Extractor

/-- The form in which an extension is looked up. -/
def normalExtension (extension : String) : String :=
  String.ofList (lower (extension.toList.dropWhile (· == '.')))

/-- The extractors by normal extension. -/
structure Registry where
  extractors : Index Extractor
  deriving Inhabited

namespace Registry

/-- The registry without languages. -/
def empty : Registry := ⟨Index.empty⟩

/-- Registers an extractor for an extension, in place of the one before. -/
def register (r : Registry) (extension : String) (e : Extractor) : Registry :=
  ⟨r.extractors.insert (normalExtension extension) e⟩

/-- The extractor for an extension. -/
def get? (r : Registry) (extension : String) : Option Extractor :=
  r.extractors.get? (normalExtension extension)

/-- The registered extensions in rising order. -/
def extensions (r : Registry) : List String := r.extractors.keys

/-- The number of registered extensions. -/
def size (r : Registry) : Nat := r.extractors.size

/-- Whether no language is registered. -/
def isEmpty (r : Registry) : Bool := r.extractors.isEmpty

/-- The registered extensions with the names of their extractors. -/
def summary (r : Registry) : String :=
  let entry (e : String × Extractor) := quoted e.1 ++ ": " ++ quoted e.2.name
  "\x7b" ++ joinWith ", " (r.extractors.entries.map entry) ++ "\x7d"

/-- Registers an extractor for several extensions. -/
def registerAll (r : Registry) (extensions : List String) (e : Extractor) : Registry :=
  extensions.foldl (fun r extension => r.register extension e) r

/-- Registers the language of a rule whose patterns can be read. -/
def registerRule (r : Registry) (rule : Rule) : Registry :=
  match Extractor.ofRule? rule with
  | some e => r.registerAll rule.extensions e
  | none => r

/-- The registry of all languages that come with the library. -/
def standard : Registry :=
  (builtinRules.foldl registerRule empty).register "py" .python

end Registry

end Marginalia.Language
