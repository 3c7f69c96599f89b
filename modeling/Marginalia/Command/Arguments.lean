import Marginalia.Command.Grammar
import Marginalia.Text.Decimal
import Marginalia.Text.Lines

set_option autoImplicit false

/-!
# Reading the words of a level

Words are taken in turn.  A value is checked only when the next argument begins
or the words end, so of two mistakes the one that comes to light first counts.
After two hyphens every word stands for itself.
-/

namespace Marginalia.Command

open Marginalia.Text

/-- Why a command line is not run. -/
inductive UsageError where
  /-- a value is missing or none of those allowed -/
  | invalidValue
  /-- there is no such option, or a word too many -/
  | unknownArgument
  /-- there is no such command -/
  | invalidCommand
  /-- a word is missing -/
  | missingArgument
  /-- a number is no number or out of range -/
  | badNumber
  /-- an option is given twice -/
  | conflict
  /-- a switch is given a value -/
  | tooManyValues
  /-- a command is missing -/
  | missingCommand
  /-- help was asked for -/
  | help
  /-- the version was asked for -/
  | version
  /-- nothing was asked for, so help is given -/
  | helpInstead
  deriving DecidableEq, Repr, Inhabited

namespace UsageError

/-- The exit code of a command line that is not run. -/
def exitCode : UsageError → Nat
  | .help => 0
  | .version => 0
  | _ => 2

end UsageError

/-- What a level has been given: values by the names of their arguments, in the
order in which they were given. -/
abbrev Given := List (String × String)

/-- How far the words of a level have been taken. -/
structure Progress where
  given : Given
  /-- an argument that has been named or reached, and its value once it came -/
  pending : Option (Argument × Option String)
  /-- whether every further word stands for itself -/
  literally : Bool
  /-- the number of words in order that were taken -/
  taken : Nat
  deriving DecidableEq, Repr, Inhabited

/-- The progress before the first word. -/
def Progress.start : Progress := ⟨[], none, false, 0⟩

/-- The largest line number. -/
def maxLine : Nat := 4294967295

/-- The natural number that a word is, a sign in front allowed. -/
def lineNumber? (s : String) : Option Nat :=
  match s.toList with
  | '+' :: digits => readDecimal? digits
  | '-' :: digits => (readDecimal? digits).filter (· == 0)
  | digits => readDecimal? digits

/-- Whether a word has a form. -/
def Form.check (form : Form) (s : String) : Except UsageError Unit :=
  match form with
  | .text => .ok ()
  | .path => if s = "" then .error .invalidValue else .ok ()
  | .line least =>
    match lineNumber? s with
    | some n => if least ≤ n && n ≤ maxLine then .ok () else .error .badNumber
    | none => .error .badNumber
  | .choice words => if words.contains s then .ok () else .error .invalidValue

namespace Progress

/-- Whether an argument has been given. -/
def has (p : Progress) (a : Argument) : Bool := p.given.any (·.1 == a.name)

/-- Gives an argument its value, `none` where no value came. -/
def give (p : Progress) (a : Argument) (value : Option String) : Except UsageError Progress :=
  match a.action, value with
  | .help, _ => .error .help
  | .version, _ => .error .version
  | .switch, _ =>
    if p.has a then .error .conflict else .ok { p with given := p.given ++ [(a.name, "")] }
  | .single _, none => .error .invalidValue
  | .many _, none => .error .invalidValue
  | .single form, some s => do
    if p.has a then throw .conflict
    form.check s
    pure { p with given := p.given ++ [(a.name, s)] }
  | .many form, some s => do
    form.check s
    pure { p with given := p.given ++ [(a.name, s)] }

/-- Gives a pending argument what came for it. -/
def settle (p : Progress) : Except UsageError Progress :=
  match p.pending with
  | none => .ok p
  | some (a, value) => { p with pending := none }.give a value

/-- Names an option, perhaps with a value attached. -/
def name (p : Progress) (a : Argument) (attached : Option String) : Except UsageError Progress := do
  match a.takesValue, attached with
  | true, none =>
    let p ← p.settle
    pure { p with pending := some (a, none) }
  | true, some s =>
    let p ← p.settle
    p.give a (some s)
  | false, none =>
    let p ← p.settle
    p.give a none
  | false, some _ => throw .tooManyValues

end Progress

namespace Level

/-- Takes the letters of a word with one hyphen.  The first that takes a value
takes the rest of the word. -/
def takeLetters (level : Level) : Progress → List Char → Except UsageError Progress
  | p, [] => .ok p
  | p, c :: rest =>
    match level.options.find? (·.short == some c) with
    | none => .error .unknownArgument
    | some o =>
      if o.argument.takesValue then
        match rest with
        | [] => p.name o.argument none
        | '=' :: value => p.name o.argument (some (String.ofList value))
        | value => p.name o.argument (some (String.ofList value))
      else do
        let p ← p.name o.argument none
        takeLetters level p rest

/-- Takes a word with two hyphens. -/
def takeLong (level : Level) (p : Progress) (word : List Char) : Except UsageError Progress :=
  let long := String.ofList (word.takeWhile (· != '='))
  let attached := match word.dropWhile (· != '=') with
    | '=' :: value => some (String.ofList value)
    | _ => none
  match level.options.find? (·.long == long) with
  | none => .error .unknownArgument
  | some o => p.name o.argument attached

/-- What to say of a word that nothing takes. -/
def refusal (level : Level) (p : Progress) (word : String) : UsageError :=
  if level.commands.isEmpty then .unknownArgument
  else if p.literally && level.commands.contains word then .unknownArgument
  else .invalidCommand

/-- Takes a word that stands for itself. -/
def takePlain (level : Level) (p : Progress) (word : String) : Except UsageError Progress :=
  match level.places[p.taken]? with
  | none => .error (level.refusal p word)
  | some a => do
    let p ← p.settle
    pure { p with pending := some (a, some word), taken := p.taken + 1 }

/-- Whether the argument before still waits for its value. -/
def waits (p : Progress) : Bool := p.pending.any (·.2.isNone)

/-- Takes a word that is no command. -/
def takeWord (level : Level) (p : Progress) (word : String) : Except UsageError Progress :=
  if p.literally then level.takePlain p word
  else
    match word.toList with
    | ['-', '-'] => .ok { p with literally := true }
    | '-' :: '-' :: rest => level.takeLong p rest
    | '-' :: c :: rest => level.takeLetters p (c :: rest)
    | _ =>
      match p.pending with
      | some (a, none) => .ok { p with pending := some (a, some word) }
      | _ => level.takePlain p word

/-- Takes words up to a command of the level; gives it with the words after it. -/
def takeWords (level : Level) : Progress → List String →
    Except UsageError (Progress × Option (String × List String))
  | p, [] => .ok (p, none)
  | p, word :: rest =>
    if !p.literally && !waits p && level.commands.contains word then .ok (p, some (word, rest))
    else do
      let p ← level.takeWord p word
      takeWords level p rest

/-- Whether a level that ends here has been given all it needs. -/
def finish (level : Level) (p : Progress) : Except UsageError Given := do
  let p ← p.settle
  if level.needsCommand then throw (if p.given.isEmpty then .helpInstead else .missingCommand)
  if level.places.any fun a => !p.has a then throw .missingArgument
  pure p.given

/-- Reads all words of a level that has no commands. -/
def read (level : Level) (words : List String) : Except UsageError Given := do
  let (p, _) ← level.takeWords .start words
  level.finish p

end Level

end Marginalia.Command
