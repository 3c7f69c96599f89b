set_option autoImplicit false

/-!
# Lines and separated parts of a text
-/

namespace Marginalia.Text

/-- The parts of a text between occurrences of a separator; a text without one
is its only part. -/
def splitOn {α : Type} [DecidableEq α] (separator : α) : List α → List (List α)
  | [] => [[]]
  | c :: s =>
    if c = separator then [] :: splitOn separator s
    else
      match splitOn separator s with
      | [] => [[c]]
      | part :: parts => (c :: part) :: parts

/-- A line without the carriage return that may close it. -/
def dropReturn (line : List Char) : List Char :=
  if line.getLast? = some '\r' then line.dropLast else line

/-- The lines of a text.  A line feed ends a line and does not begin another;
a carriage return before it belongs to the line end. -/
def lines (s : List Char) : List (List Char) :=
  let parts := splitOn '\n' s
  let ended := parts.dropLast.map dropReturn
  match parts.getLast? with
  | some [] | none => ended
  | some rest => ended ++ [rest]

/-- The texts with a separator between neighbours. -/
def joinWith (separator : String) (parts : List String) : String :=
  String.intercalate separator parts

end Marginalia.Text
