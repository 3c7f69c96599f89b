import Marginalia.Command.Arguments
import Marginalia.Path

set_option autoImplicit false

/-!
# Commands

What can be asked of the program, and the reading of a command line.
-/

namespace Marginalia

/-- How notes are shown. -/
inductive Format where
  | text
  | json
  deriving DecidableEq, Repr, Inhabited

/-- A shell for which words can be completed. -/
inductive Shell where
  | bash
  | elvish
  | fish
  | powershell
  | zsh
  deriving DecidableEq, Repr, Inhabited

/-- Something asked of the program. -/
inductive Command where
  /-- sets up a project for a source folder -/
  | init (folder : Path)
  /-- brings the notes up to date, of all files or of one -/
  | scan (tags : List String) (file : Option Path)
  /-- lists notes -/
  | list (kind : Option Kind) (file : Option Path) (format : Format)
  /-- shows one note -/
  | showNote (file : Path) (line : UInt32) (format : Format)
  /-- finds notes by their text -/
  | search (query : String) (format : Format)
  /-- writes a note by hand -/
  | add (file : Path) (line : UInt32) (text : String) (todo : Bool)
  /-- replaces the text of a note -/
  | edit (file : Path) (line : UInt32) (text : String)
  /-- deletes a note -/
  | delete (file : Path) (line : UInt32)
  /-- writes the notes that ask for something to a file -/
  | exportTodos (output : Option Path)
  /-- shows all settings -/
  | configShow
  /-- shows one setting -/
  | configGet (key : String)
  /-- changes a setting -/
  | configSet (key value : String)
  /-- removes the state of the project -/
  | destroy (force : Bool)
  /-- writes a script that completes words -/
  | completions (shell : Shell)
  deriving DecidableEq, Repr, Inhabited

namespace Command

/-! ## Values by name -/

/-- The value given under a name. -/
def Given.value? (g : Given) (name : String) : Option String :=
  (g.find? (·.1 == name)).map (·.2)

/-- The value given under a name that must be given. -/
def Given.value (g : Given) (name : String) : String := (Given.value? g name).getD ""

/-- All values given under a name. -/
def Given.values (g : Given) (name : String) : List String :=
  (g.filter (·.1 == name)).map (·.2)

/-- The path given under a name. -/
def Given.path (g : Given) (name : String) : Path := ⟨Given.value g name⟩

/-- The path given under a name, if one is. -/
def Given.path? (g : Given) (name : String) : Option Path := (Given.value? g name).map (⟨·⟩)

/-- The line number given. -/
def Given.line (g : Given) : UInt32 :=
  UInt32.ofNat ((lineNumber? (Given.value g "line")).getD 0)

/-- The format given, or the plain one. -/
def Given.format (g : Given) : Format :=
  if Given.value? g "format" = some "json" then .json else .text

/-- The kind given. -/
def Given.kind? (g : Given) : Option Kind :=
  (Given.value? g "kind").map fun s => if s = "todo" then .todo else .note

/-- The shell given. -/
def Given.shell (g : Given) : Shell :=
  match Given.value g "shell" with
  | "elvish" => .elvish
  | "fish" => .fish
  | "powershell" => .powershell
  | "zsh" => .zsh
  | _ => .bash

/-! ## Command lines -/

/-- The command of a name with what it was given. -/
def ofGiven (name : String) (g : Given) : Command :=
  match name with
  | "init" => .init (Given.path g "source")
  | "scan" => .scan (Given.values g "tag") (Given.path? g "only-file")
  | "list" => .list (Given.kind? g) (Given.path? g "only-file") (Given.format g)
  | "show" => .showNote (Given.path g "file") (Given.line g) (Given.format g)
  | "search" => .search (Given.value g "query") (Given.format g)
  | "add" =>
    .add (Given.path g "file") (Given.line g) (Given.value g "text")
      (Given.value? g "todo").isSome
  | "edit" => .edit (Given.path g "file") (Given.line g) (Given.value g "text")
  | "delete" => .delete (Given.path g "file") (Given.line g)
  | "export" => .exportTodos (Given.path? g "output")
  | "destroy" => .destroy (Given.value? g "force").isSome
  | "completions" => .completions (Given.shell g)
  | _ => .configShow

/-- The command of `config` of a name with what it was given. -/
def ofConfigGiven (name : String) (g : Given) : Command :=
  match name with
  | "get" => .configGet (Given.value g "key")
  | "set" => .configSet (Given.value g "key") (Given.value g "value")
  | _ => .configShow

/-- What the words after `help` lead to: help, if they name a command. -/
def helpFor (levels : List (String × Level)) : List String → UsageError
  | [] => .help
  | word :: rest =>
    match levels.find? (·.1 == word) with
    | some (_, level) =>
      match rest with
      | [] => .help
      | [next] => if level.commands.contains next then .help else .invalidCommand
      | _ => .invalidCommand
    | none => if word = "help" && rest.isEmpty then .help else .invalidCommand

/-- Reads the words after `config`. -/
def readConfig (level : Level) (words : List String) : Except UsageError Command := do
  let (p, command) ← level.takeWords .start words
  match command with
  | none =>
    let _ ← level.finish p
    pure .configShow
  | some ("help", rest) => throw (helpFor configLevels rest)
  | some (name, rest) =>
    match configLevels.find? (·.1 == name) with
    | some (_, inner) => pure (ofConfigGiven name (← inner.read rest))
    | none => throw .invalidCommand

/-- Reads a command line. -/
def read (words : List String) : Except UsageError Command := do
  let (p, command) ← rootLevel.takeWords .start words
  match command with
  | none =>
    let _ ← rootLevel.finish p
    throw .missingCommand
  | some ("help", rest) => throw (helpFor commandLevels rest)
  | some (name, rest) =>
    match commandLevels.find? (·.1 == name) with
    | some (_, level) =>
      if level.commands.isEmpty then pure (ofGiven name (← level.read rest))
      else readConfig level rest
    | none => throw .invalidCommand

end Command

end Marginalia
