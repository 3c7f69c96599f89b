import Marginalia.Json.Value
import Marginalia.Text.Quoted

set_option autoImplicit false

/-!
# Writing JSON

Values are written over several lines, two blanks deeper at each level.  Empty
arrays and objects stay on one line.  Characters beyond ASCII are written as
they are; quotation mark, backslash and the controls are escaped.
-/

namespace Marginalia.Json

open Marginalia.Text

/-- The written form of one character of a string. -/
def escapeChar (c : Char) : List Char :=
  match c with
  | '"' => ['\\', '"']
  | '\\' => ['\\', '\\']
  | '\x08' => ['\\', 'b']
  | '\x0c' => ['\\', 'f']
  | '\n' => ['\\', 'n']
  | '\r' => ['\\', 'r']
  | '\t' => ['\\', 't']
  | c =>
    if c.toNat < 0x20 then
      ['\\', 'u', '0', '0', hexDigit (c.toNat / 16), hexDigit (c.toNat % 16)]
    else [c]

/-- The string literal of a text.  An absent text is written as half of a
surrogate pair. -/
def literal : Option String → List Char
  | some s => '"' :: s.toList.flatMap escapeChar ++ ['"']
  | none => "\"\\ud800\"".toList

/-- A line end followed by the blanks of a level. -/
def newLine (level : Nat) : List Char := '\n' :: List.replicate (2 * level) ' '

mutual
/-- The written form of a value that starts at a level. -/
def Value.write (level : Nat) : Value → List Char
  | .null => "null".toList
  | .bool true => "true".toList
  | .bool false => "false".toList
  | .number literal => literal.toList
  | .text content => literal content
  | .array [] => ['[', ']']
  | .array (item :: items) =>
    '[' :: newLine (level + 1) ++ Value.write (level + 1) item
      ++ Value.writeItems (level + 1) items ++ newLine level ++ [']']
  | .object [] => ['\x7b', '\x7d']
  | .object ((key, value) :: members) =>
    '\x7b' :: newLine (level + 1) ++ literal key ++ [':', ' ']
      ++ Value.write (level + 1) value
      ++ Value.writeMembers (level + 1) members ++ newLine level ++ ['\x7d']

/-- The items after the first one of an array. -/
def Value.writeItems (level : Nat) : List Value → List Char
  | [] => []
  | item :: items =>
    ',' :: newLine level ++ Value.write level item ++ Value.writeItems level items

/-- The members after the first one of an object. -/
def Value.writeMembers (level : Nat) : List (Option String × Value) → List Char
  | [] => []
  | (key, value) :: members =>
    ',' :: newLine level ++ literal key ++ [':', ' '] ++ Value.write level value
      ++ Value.writeMembers level members
end

/-- The text of a document. -/
def Value.print (v : Value) : String := String.ofList (v.write 0)

end Marginalia.Json
