set_option autoImplicit false

/-!
# JSON documents

The data model of RFC 8259.  Two of its freedoms matter here.  A number keeps
the literal it was written with, because its readers decide for themselves
which literals they take.  A string literal may hold half of a surrogate pair;
such a literal names no text, and that is recorded as an absent text.
-/

namespace Marginalia.Json

/-- A JSON value.  Members of an object keep their order and may repeat. -/
inductive Value where
  | null
  | bool (b : Bool)
  | number (literal : String)
  | text (content : Option String)
  | array (items : List Value)
  | object (members : List (Option String × Value))
  deriving Inhabited

namespace Value

/-- The value that holds a text. -/
def ofString (s : String) : Value := .text (some s)

/-- The value that holds a text or its absence. -/
def ofOption : Option String → Value
  | some s => ofString s
  | none => .null

/-- The array of some texts. -/
def ofStrings (ss : List String) : Value := .array (ss.map ofString)

end Value

/-- A member of an object. -/
def member (key : String) (value : Value) : Option String × Value := (some key, value)

end Marginalia.Json
