import Marginalia.Pattern.CharSet

set_option autoImplicit false

/-!
# Sets of characters that have names

A pattern may ask for the characters that share a property, by the name of the set or by
the name of a property and the value that it has.  Letter case, blanks, hyphens,
underscores and a leading "is" do not count in a name.  The sets themselves belong to a
version of Unicode and are given in a table.
-/

namespace Marginalia.Pattern

/-- Sets of characters by the keys under which they are looked up. -/
abbrev PropertyTable := List (String × CharSet)

/-- The form in which a name is looked up.  The name of one set, whose short form begins
with "is", is left as it is. -/
def normalName (name : List Char) : String :=
  let marked := (name.take 2).map Char.toLower == ['i', 's']
  let counts (c : Char) : Bool := c.toNat < 0x80 && c != ' ' && c != '_' && c != '-'
  let kept := ((if marked then name.drop 2 else name).filter counts).map Char.toLower
  if marked && kept == ['c'] then "isc" else String.ofList kept

/-- What stands before and after the first place where a text holds another. -/
def cutAt? (mark : List Char) : List Char → Option (List Char × List Char)
  | [] => none
  | c :: s =>
    if mark.isPrefixOf (c :: s) then some ([], (c :: s).drop mark.length)
    else (cutAt? mark s).map fun (before, after) => (c :: before, after)

/-- The key of a name, which may hold a property and a value.  The mark `!=` only
separates the two; it is the capital letter of the escape that turns a set round. -/
def propertyKey (name : List Char) : String :=
  match cutAt? ['!', '='] name <|> cutAt? [':'] name <|> cutAt? ['='] name with
  | some (property, value) => normalName property ++ "=" ++ normalName value
  | none => normalName name

namespace PropertyTable

/-- The sets that every version of Unicode has alike, and those of the classes that have
an escape of their own. -/
def basic : PropertyTable :=
  let general := [("any", CharSet.any), ("ascii", ⟨[(0, 0x7f)]⟩)] ++
    ["nd", "decimalnumber", "digit"].map (·, .digit)
  general ++
    ["gc=", "generalcategory="].flatMap (fun property =>
      general.map fun e => (property ++ e.1, e.2)) ++
    ["whitespace", "wspace", "space"].map (·, .blank)

end PropertyTable

end Marginalia.Pattern
