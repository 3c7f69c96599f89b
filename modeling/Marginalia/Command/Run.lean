import Marginalia.Command.Basic
import Marginalia.Command.Session

set_option autoImplicit false

/-!
# Running commands

Every command but the one that sets a project up works on the project around the
directory it is run in.
-/

namespace Marginalia

open Marginalia.Text

/-! ## Showing notes -/

/-- A note on one line: kind, place and the first line of its text. -/
def Note.oneLine (n : Note) : String :=
  let first := ((lines n.text.toList).head?.getD [])
  let more := if n.text.toList.contains '\n' then " ..." else ""
  n.kind.name ++ " " ++ n.key ++ " " ++ String.ofList first ++ more

/-- The records of notes as JSON. -/
def notesJson (notes : List Note) : String := (Json.Value.array (notes.map Note.toRecord)).print

/-- A text with blanks after it up to a width. -/
def padRight (width : Nat) (s : String) : String :=
  s ++ String.ofList (List.replicate (width - s.length) ' ')

namespace Run

/-- The settings of the project around the directory the command is run in. -/
def openConfig : Run Config := do
  orFail .ofConfig (Config.discover (← tree) (← here))

/-- The settings of the project, with its notes open. -/
def openProject : Run Config := do
  let c ← openConfig
  openNotes c ("Failed to open notes database " ++ c.notesPath.quoted)
  pure c

/-- The path under which notes of a file are kept. -/
def notePath (c : Config) (file : Path) : Run String := do
  pure (c.sourceRoot.plainRelativeTo ((← here).join file))

/-- The engine that scans a project. -/
def engineFor (c : Config) : Run Discovery.Engine :=
  orFail .ofScan (Discovery.Engine.create? c.sourceRoot .standard c.discoveryOptions)

/-- Prints what a pass did. -/
def sayReport (r : Report) : Run Unit := do
  if r.isNoop then
    say "Notes are up to date"
    say ("  Unchanged:  " ++ decimalString r.unchanged)
  else
    say "Notes updated"
    say ("  Created:    " ++ decimalString r.created)
    say ("  Updated:    " ++ decimalString r.updated)
    say ("  Unchanged:  " ++ decimalString r.unchanged)
    say ("  Pruned:     " ++ decimalString r.pruned.length)
    r.pruned.forM fun key => say ("    - " ++ key)

/-- Tells where scanning starts. -/
def sayHint : Run Unit := say "Run notter scan to collect notes from your comments."

/-! ## The commands -/

/-- Sets up a project. -/
def init (folder : Path) : Run Unit := do
  let (result, t) := Config.init (← tree) (← here) folder
  setTree t
  match result with
  | .error (.alreadyInitialized directory) =>
    say "Notter is already initialized."
    say ("  State:  " ++ directory.text)
  | .error e => throw (.ofConfig e)
  | .ok c =>
    openNotes c ("Failed to create notes database " ++ c.notesPath.quoted)
    say "Notter initialized"
    say ("  Source:  " ++ c.sourceRoot.text)
    say ("  Config:  " ++ c.configPath.text)
    say ("  Notes:  " ++ c.notesPath.text)
    say ""
    sayHint

/-- Scans the tree and brings all notes up to date.  `finish` is the order in which
the work on the files is finished. -/
def scanAll (c : Config) (engine : Discovery.Engine) (tags : List String)
    (finish : List Discovery.Job → List Discovery.Job) : Run Unit := do
  let comments ← orFail .ofScan (engine.discover (← tree) tags finish)
  sayReport (← attempt c (Reconcile.pass comments none))

/-- Scans one file and brings its notes up to date; the notes of a file that is gone
go too. -/
def scanFile (c : Config) (engine : Discovery.Engine) (tags : List String) (file : Path) :
    Run Unit := do
  let filepath ← notePath c file
  match engine.discoverFile (← tree) tags ⟨filepath⟩ with
  | .ok comments => sayReport (← attempt c (Reconcile.pass comments (some filepath)))
  | .error (.sourceMissing _) =>
    let purged ← attempt c (Reconcile.purge filepath)
    say ("! " ++ filepath ++ " no longer exists, removed " ++ decimalString purged.length ++
      " notes")
  | .error f => throw (.ofScan f)

/-- Brings the notes up to date. -/
def scan (tags : List String) (file : Option Path) : Run Unit := do
  let c ← openProject
  let tags := if tags.isEmpty then c.tags else tags
  let engine ← engineFor c
  match file with
  | none => scanAll c engine tags id
  | some file => scanFile c engine tags file

/-- Lists notes. -/
def list (kind : Option Kind) (file : Option Path) (format : Format) : Run Unit := do
  let c ← openProject
  let store ← notes c
  let found ← match file, kind with
    | some file, _ => do orFail .ofStore (store.byFile (← notePath c file))
    | none, some kind => orFail .ofStore (store.byKind kind)
    | none, none => orFail .ofStore store.all
  let found := found.filter fun n => kind.all (n.kind == ·)
  match format with
  | .json => say (notesJson found)
  | .text =>
    if found.isEmpty then
      say "No notes found."
      sayHint
    else
      found.forM fun n => say n.oneLine
      say ""
      say (decimalString found.length ++ " notes")

/-- The note at a place, or the failure that there is none. -/
def noteAt (c : Config) (filepath : String) (line : UInt32) (advice : String) : Run Note := do
  match (← notes c).get filepath line with
  | .ok n => pure n
  | .error (.notFound _ _) =>
    throw (.because ("No note at " ++ locationKey filepath line ++ ". " ++ advice))
  | .error e => throw (.ofStore e)

/-- Where to look for notes. -/
def listAdvice : String := "Run 'notter list' to see stored notes."

/-- Shows one note. -/
def showNote (file : Path) (line : UInt32) (format : Format) : Run Unit := do
  let c ← openProject
  let n ← noteAt c (← notePath c file) line listAdvice
  match format with
  | .json => say n.toRecord.print
  | .text =>
    say (n.kind.name ++ " " ++ n.key)
    say ("  ID:       " ++ n.id.toText)
    match n.username, n.email with
    | some username, some email => say ("  Author:   " ++ username ++ " <" ++ email ++ ">")
    | some username, none => say ("  Author:   " ++ username)
    | none, _ => pure ()
    say ("  Created:  " ++ n.createdAt.toSecondText)
    say ("  Updated:  " ++ n.updatedAt.toSecondText)
    say ""
    (lines n.text.toList).forM fun l => say ("  " ++ String.ofList l)

/-- Finds notes by their text. -/
def search (query : String) (format : Format) : Run Unit := do
  let c ← openProject
  let found ← orFail .ofStore ((← notes c).search query)
  match format with
  | .json => say (notesJson found)
  | .text =>
    if found.isEmpty then say ("No notes match '" ++ query ++ "'.")
    else found.forM fun n => say n.oneLine

/-- Writes a note by hand. -/
def add (file : Path) (line : UInt32) (text : String) (todo : Bool) : Run Unit := do
  let c ← openProject
  let filepath ← notePath c file
  let kind := if todo then .todo else (TagSet.ofList c.tags).classify text.toList
  let draft := ({ filepath := filepath, line := line, kind := kind, text := text
                  username := none, email := none } : Draft).withAuthor c.username c.email
  let drawn ← draw
  match (← notes c).create (draft.toNote drawn.id drawn.now) with
  | .ok s =>
    setNotes c s
    say ("Added " ++ kind.name ++ " " ++ draft.key)
  | .error (.alreadyExists _ _) =>
    throw (.because ("A note already exists at " ++ locationKey filepath line ++
      ". Use 'notter edit' to change it."))
  | .error e => throw (.ofStore e)

/-- Replaces the text of a note.  Its kind stays; whoever edits becomes its
author. -/
def edit (file : Path) (line : UInt32) (text : String) : Run Unit := do
  let c ← openProject
  let filepath ← notePath c file
  let existing ← noteAt c filepath line "Use 'notter add' to create one."
  let draft := ({ filepath := filepath, line := line, kind := existing.kind, text := text
                  username := none, email := none } : Draft).withAuthor c.username c.email
  let drawn ← draw
  setNotes c (← orFail .ofStore ((← notes c).update filepath line draft drawn.now))
  say ("Updated " ++ existing.key)

/-- Deletes a note. -/
def delete (file : Path) (line : UInt32) : Run Unit := do
  let c ← openProject
  let filepath ← notePath c file
  let _ ← noteAt c filepath line listAdvice
  setNotes c ((← notes c).delete filepath line)
  say ("Deleted " ++ locationKey filepath line)

/-- Writes the notes that ask for something to a file. -/
def exportTodos (output : Option Path) : Run Unit := do
  let c ← openProject
  let todos ← orFail .ofStore ((← notes c).byKind .todo)
  let output := output.getD ⟨exportFileName⟩
  match (← tree).writeText ((← here).join output) (notesJson todos) with
  | .ok t => setTree t
  | .error _ => throw (.during ("Failed to write " ++ output.quoted))
  say ("Exported " ++ decimalString todos.length ++ " TODOs to " ++ output.text)

/-- A setting on a line of its own. -/
def saySetting (label value : String) : Run Unit := say ("  " ++ padRight 16 label ++ " " ++ value)

/-- Shows all settings. -/
def configShow : Run Unit := do
  let c ← openConfig
  say "Notter Configuration"
  say ""
  Config.Key.all.forM fun key =>
    let value := c.value key
    saySetting (key.name ++ ":") (if value.isEmpty then "(unset)" else value)
  say ""
  saySetting "config file:" c.configPath.text
  saySetting "database:" c.notesPath.text

/-- Shows one setting. -/
def configGet (key : String) : Run Unit := do
  let c ← openConfig
  say (← orFail .ofConfig (c.get key))

/-- Changes a setting. -/
def configSet (key value : String) : Run Unit := do
  let c ← openConfig
  let c ← orFail .ofConfig (c.set key value)
  setTree (← orFail .ofConfig (c.save (← tree)))
  say ("Set " ++ key ++ " = " ++ (← orFail .ofConfig (c.get key)))

/-- Whether an answer agrees. -/
def agrees (answer : String) : Bool :=
  let word := trim answer.toList
  word == ['y'] || word == ['Y']

/-- Asks whether the state of a project shall go. -/
def askToDestroy (state : Path) : Run Unit := do
  say ("This will permanently delete " ++ state.text ++ " and every stored note.")
  put "Continue? [y/N] "

/-- Removes the state of the project. -/
def destroy (force : Bool) : Run Unit := do
  let c ← openConfig
  let state := c.stateDirectory
  if !force then askToDestroy state
  if force || agrees (← get).input then
    match (← tree).removeDirectory state with
    | .ok t => setTree t
    | .error _ => throw (.during ("Failed to remove " ++ state.quoted))
    say ("Removed " ++ state.text)
  else say "Cancelled"

/-- Writes a script that completes the names of commands. -/
def completions (shell : Shell) : Run Unit :=
  let names := joinWith " " Command.rootLevel.commands
  match shell with
  | .bash => say ("complete -W '" ++ names ++ "' notter")
  | .zsh => say ("compctl -k '(" ++ names ++ ")' notter")
  | .fish => say ("complete -c notter -f -a '" ++ names ++ "'")
  | .elvish =>
    say ("set edit:completion:arg-completer[notter] = \x7b|@words| put " ++ names ++ " \x7d")
  | .powershell =>
    say ("Register-ArgumentCompleter -CommandName notter -ScriptBlock \x7b -split '" ++ names ++
      "' \x7d")

end Run

/-- Runs a command. -/
def Command.run : Command → Run Unit
  | .init folder => Run.init folder
  | .scan tags file => Run.scan tags file
  | .list kind file format => Run.list kind file format
  | .showNote file line format => Run.showNote file line format
  | .search query format => Run.search query format
  | .add file line text todo => Run.add file line text todo
  | .edit file line text => Run.edit file line text
  | .delete file line => Run.delete file line
  | .exportTodos output => Run.exportTodos output
  | .configShow => Run.configShow
  | .configGet key => Run.configGet key
  | .configSet key value => Run.configSet key value
  | .destroy force => Run.destroy force
  | .completions shell => Run.completions shell

/-- What a command prints before it waits for a line. -/
def Command.question : Command → Run Unit
  | .destroy false => do Run.askToDestroy (← Run.openConfig).stateDirectory
  | _ => pure ()

/-- How a command line ends. -/
inductive Ending where
  /-- the words are no command, or ask for help -/
  | usage (e : Command.UsageError)
  /-- the command did its work -/
  | success
  /-- the command failed -/
  | failure (f : Failure)
  deriving DecidableEq, Repr, Inhabited

/-- The exit code that goes with an ending. -/
def Ending.exitCode : Ending → Nat
  | .usage e => e.exitCode
  | .success => 0
  | .failure _ => 1

/-- Runs a command line. -/
def runWords (words : List String) (session : Session) : Ending × Session :=
  match Command.read words with
  | .error e => (.usage e, session)
  | .ok command =>
    match (command.run.run.run session.standing) with
    | (.ok _, session) => (.success, session)
    | (.error f, session) => (.failure f, session)

end Marginalia
