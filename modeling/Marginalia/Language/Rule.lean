import Marginalia.Pattern.Machine

set_option autoImplicit false

/-!
# Comment syntax of languages

A rule gives the patterns that a language's comments match: patterns that look
at single lines, and patterns in which `.` also stands for a line feed.  A rule
knows nothing of string literals, so a comment opener inside a literal counts.
-/

namespace Marginalia.Language

/-- The comment syntax of a language. -/
structure Rule where
  name : String
  /-- file extensions in small letters, without the dot -/
  extensions : List String
  /-- patterns whose `.` stops at the end of a line -/
  lines : List String
  /-- patterns whose `.` goes on across lines -/
  blocks : List String
  deriving DecidableEq, Repr, Inhabited

/-- Two slashes up to the end of the line. -/
def slashLine : String := "//.*"

/-- A number sign up to the end of the line. -/
def hashLine : String := "#.*"

/-- Two hyphens up to the end of the line. -/
def dashLine : String := "--.*"

/-- From slash and star to the nearest star and slash. -/
def starBlock : String := "/\\*.*?\\*/"

/-- A comment of a markup language. -/
def markupComment : String := "<!--.*?-->"

/-- The rule of a language with slash comments and star blocks. -/
def braceRule (name : String) (extensions : List String) : Rule :=
  ⟨name, extensions, [slashLine], [starBlock]⟩

/-- The rule of a language that mixes code and markup. -/
def markupRule (name : String) (extensions : List String) : Rule :=
  ⟨name, extensions, [slashLine, markupComment], [starBlock, markupComment]⟩

/-- The languages whose comments are found by patterns. -/
def builtinRules : List Rule :=
  [braceRule "c" ["c", "h"],
   braceRule "c++" ["cpp", "hpp"],
   braceRule "c#" ["cs"],
   braceRule "go" ["go"],
   braceRule "java" ["java"],
   braceRule "kotlin" ["kt"],
   braceRule "javascript" ["js"],
   braceRule "typescript" ["ts"],
   braceRule "rust" ["rs"],
   braceRule "scala" ["scala"],
   braceRule "swift" ["swift"],
   markupRule "react" ["jsx", "tsx"],
   markupRule "vue" ["vue"],
   ⟨"php", ["php"], [slashLine, hashLine], [starBlock]⟩,
   ⟨"haskell", ["hs"], [dashLine], ["\\\x7b-.*?-\\\x7d"]⟩,
   ⟨"lua", ["lua"], [dashLine], ["--\\[\\[.*?\\]\\]"]⟩,
   ⟨"perl", ["pl"], [hashLine], []⟩,
   ⟨"r", ["r"], [hashLine], []⟩,
   ⟨"ruby", ["rb"], [hashLine], ["(?m)^=begin.*?^=end"]⟩]

/-- What the patterns of a rule are read as, unless one of them cannot be read. -/
def Rule.compile? {α : Type} (read? : Pattern.Options → String → Option α) (rule : Rule) :
    Option (List α) := do
  let lines ← rule.lines.mapM (read? {})
  let blocks ← rule.blocks.mapM (read? { dotAll := true })
  some (lines ++ blocks)

/-- The machines of the patterns of a rule, unless one of them cannot be read. -/
def Rule.machines? (rule : Rule) : Option (List Pattern.Machine) :=
  rule.compile? Pattern.Machine.read?

end Marginalia.Language
