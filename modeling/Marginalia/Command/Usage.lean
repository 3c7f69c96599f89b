import Marginalia.Command.Run

set_option autoImplicit false

/-!
# What is said at the end of a command line
-/

namespace Marginalia

open Marginalia.Text

/-- How the program is used. -/
def usageText : String :=
  "Usage: notter <COMMAND>\n\nCommands:\n" ++
    joinWith "\n" (Command.rootLevel.commands.map ("  " ++ ·)) ++ "\n"

/-- What is said of a command line that is not run. -/
def Command.UsageError.message : Command.UsageError → String
  | .invalidValue => "a value is missing or not allowed"
  | .unknownArgument => "there is no such option, or there is a word too many"
  | .invalidCommand => "there is no such command"
  | .missingArgument => "a word is missing"
  | .badNumber => "a line number is no number or out of range"
  | .conflict => "an option is given twice"
  | .tooManyValues => "a switch takes no value"
  | .missingCommand => "a command is missing"
  | .help => usageText
  | .version => "notter 0.1.0"
  | .helpInstead => usageText

/-- What is said of a failure, from the outermost reason inwards. -/
def Failure.message (f : Failure) : String :=
  joinWith ": " (f.reasons ++ if f.fromBelow then ["a file or table is at fault"] else [])

/-- What is said of an ending besides what the command printed. -/
def Ending.message? : Ending → Option String
  | .usage e => some e.message
  | .success => none
  | .failure f => some ("Error: " ++ f.message)

end Marginalia
