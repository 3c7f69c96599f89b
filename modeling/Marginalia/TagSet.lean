import Marginalia.Collection.Index
import Marginalia.Note.Kind
import Marginalia.Text.Blank
import Marginalia.Text.Find
import Marginalia.Text.Lower

set_option autoImplicit false

/-!
# Tags

The words that make a comment ask for something to be done.  Case and the white
space around a word do not count, and a word is found wherever it occurs, also
inside a longer one.
-/

namespace Marginalia

open Marginalia.Text

/-- The tags used when none are given. -/
def defaultTags : List String := ["TODO", "FIXME"]

/-- A set of tags in lowered form, without repetition and in rising order. -/
structure TagSet where
  tags : List String
  deriving DecidableEq, Repr, Inhabited

namespace TagSet

/-- The form in which a tag is compared; a blank tag has none. -/
def normalTag? (tag : String) : Option String :=
  match lower (trim tag.toList) with
  | [] => none
  | c :: rest => some (String.ofList (c :: rest))

/-- The set of the tags in a list.  If all are blank the default tags take their
place. -/
def ofList (tags : List String) : TagSet :=
  match tags.filterMap normalTag? with
  | [] => ⟨distinctSorted (defaultTags.filterMap normalTag?)⟩
  | tag :: rest => ⟨distinctSorted (tag :: rest)⟩

/-- The set of the default tags. -/
def standard : TagSet := ofList defaultTags

/-- The kind of a comment with the given text. -/
def classify (set : TagSet) (text : List Char) : Kind :=
  let lowered := lower text
  if set.tags.any fun tag => contains lowered tag.toList then .todo else .note

end TagSet

end Marginalia
