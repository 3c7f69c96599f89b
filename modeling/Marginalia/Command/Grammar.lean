import Marginalia.Note.Kind

set_option autoImplicit false

/-!
# The grammar of the command line

Which words a command line may consist of.  A level is the program itself, a
command, or a command of a command; it has options, places for words in order,
and perhaps commands of its own.
-/

namespace Marginalia.Command

/-- What a word must be to be taken as a value. -/
inductive Form where
  /-- any text -/
  | text
  /-- a path, which is never empty -/
  | path
  /-- a line number, not below the given one -/
  | line (least : Nat)
  /-- one of some words -/
  | choice (words : List String)
  deriving DecidableEq, Repr, Inhabited

/-- What an argument does when it is given. -/
inductive Action where
  /-- it is a switch, given once at most -/
  | switch
  /-- it takes a value, given once at most -/
  | single (form : Form)
  /-- it takes a value each time it is given -/
  | many (form : Form)
  /-- it asks for help -/
  | help
  /-- it asks for the version -/
  | version
  deriving DecidableEq, Repr, Inhabited

/-- An argument of a level, under the name its value is kept by. -/
structure Argument where
  name : String
  action : Action
  deriving DecidableEq, Repr, Inhabited

namespace Argument

/-- Whether an argument takes a value. -/
def takesValue (a : Argument) : Bool :=
  match a.action with
  | .single _ | .many _ => true
  | _ => false

end Argument

/-- An option: an argument with its long and perhaps its short spelling. -/
structure OptionSpelling where
  long : String
  short : Option Char
  argument : Argument
  deriving DecidableEq, Repr, Inhabited

/-- A level of the command line. -/
structure Level where
  options : List OptionSpelling
  /-- the words expected in order, all of them needed -/
  places : List Argument
  commands : List String
  /-- whether one of the commands must follow -/
  needsCommand : Bool
  deriving DecidableEq, Repr, Inhabited

/-! ## The levels of this program -/

/-- The options of every level. -/
def commonOptions : List OptionSpelling :=
  [⟨"verbose", some 'v', ⟨"verbose", .switch⟩⟩, ⟨"help", some 'h', ⟨"help", .help⟩⟩]

/-- A level without commands. -/
def leaf (options : List OptionSpelling) (places : List Argument) : Level :=
  ⟨options ++ commonOptions, places, [], false⟩

/-- The file a note belongs to. -/
def fileWord : Argument := ⟨"file", .single .path⟩

/-- The line a note is at. -/
def lineWord (least : Nat) : Argument := ⟨"line", .single (.line least)⟩

/-- A text. -/
def textWord (name : String) : Argument := ⟨name, .single .text⟩

/-- The option that chooses how notes are shown. -/
def formatOption : OptionSpelling :=
  ⟨"format", none, ⟨"format", .single (.choice ["text", "json"])⟩⟩

/-- The option that names one file. -/
def fileOption : OptionSpelling := ⟨"file", some 'f', ⟨"only-file", .single .path⟩⟩

/-- The commands of the program with their levels. -/
def commandLevels : List (String × Level) :=
  [("init", leaf [] [⟨"source", .single .path⟩]),
   ("scan", leaf [⟨"tag", some 't', ⟨"tag", .many .text⟩⟩, fileOption] []),
   ("list", leaf
      [⟨"kind", some 'k', ⟨"kind", .single (.choice ["note", "todo"])⟩⟩, fileOption, formatOption]
      []),
   ("show", leaf [formatOption] [fileWord, lineWord 0]),
   ("search", leaf [formatOption] [textWord "query"]),
   ("add", leaf [⟨"todo", none, ⟨"todo", .switch⟩⟩] [fileWord, lineWord 1, textWord "text"]),
   ("edit", leaf [] [fileWord, lineWord 0, textWord "text"]),
   ("delete", leaf [] [fileWord, lineWord 0]),
   ("export", leaf [⟨"output", some 'o', ⟨"output", .single .path⟩⟩] []),
   ("config", ⟨commonOptions, [], ["show", "get", "set", "help"], false⟩),
   ("destroy", leaf [⟨"force", none, ⟨"force", .switch⟩⟩] []),
   ("completions", leaf []
      [⟨"shell", .single (.choice ["bash", "elvish", "fish", "powershell", "zsh"])⟩])]

/-- The commands of `config` with their levels. -/
def configLevels : List (String × Level) :=
  [("show", leaf [] []),
   ("get", leaf [] [textWord "key"]),
   ("set", leaf [] [textWord "key", textWord "value"])]

/-- The level of the program itself. -/
def rootLevel : Level :=
  ⟨⟨"version", some 'V', ⟨"version", .version⟩⟩ :: commonOptions, [],
   commandLevels.map (·.1) ++ ["help"], true⟩

end Marginalia.Command
