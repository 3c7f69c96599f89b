set_option autoImplicit false

/-!
# The kind of a note

A comment that carries one of the tags asks for something to be done; any other
comment is a plain note.
-/

namespace Marginalia

/-- Whether a note asks for something to be done. -/
inductive Kind where
  /-- a plain comment -/
  | note
  /-- a comment that carries a tag -/
  | todo
  deriving DecidableEq, Repr, Inhabited

namespace Kind

/-- The word a kind is stored and shown under. -/
def name : Kind → String
  | .note => "NOTE"
  | .todo => "TODO"

/-- The kind stored under a word. -/
def ofName? (s : String) : Option Kind :=
  if s = "NOTE" then some .note else if s = "TODO" then some .todo else none

theorem ofName?_eq_some_iff (s : String) (k : Kind) : ofName? s = some k ↔ s = k.name := by
  cases k <;> simp only [ofName?, name] <;> split <;> simp_all

end Kind

end Marginalia
