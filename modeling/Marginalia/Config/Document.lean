import Marginalia.Config.Basic
import Marginalia.Json.Printer
import Marginalia.Json.Reader

set_option autoImplicit false

/-!
# Settings as a JSON document

The document is an object with a member for every setting.  All but the source
root may be missing, and then take their defaults; members of other names are
passed over, whatever they hold.  A list of the values in order is accepted too,
and it may stop early.
-/

namespace Marginalia.Config

open Marginalia.Json (Value member)

/-- The document of some settings. -/
def toValue (c : Config) : Value :=
  .object
    [member Key.sourceRoot.name (.ofString c.sourceRoot.text),
     member Key.tags.name (.ofStrings c.tags),
     member Key.workers.name (.number (Text.decimalString c.workers)),
     member Key.readChunk.name (.number (Text.decimalString c.readChunk)),
     member Key.exclude.name (.ofStrings c.exclude),
     member Key.username.name (.ofOption c.username),
     member Key.email.name (.ofOption c.email)]

/-- The text of the document. -/
def print (c : Config) : String := c.toValue.print

/-! ## Reading -/

/-- The text that a value is. -/
def textOf? : Value → Option String
  | .text content => content
  | _ => none

/-- The texts that a value lists. -/
def textsOf? : Value → Option (List String)
  | .array items => items.mapM textOf?
  | _ => none

/-- The text that a value is, or the absence of one. -/
def optionOf? : Value → Option (Option String)
  | .null => some none
  | .text (some s) => some (some s)
  | _ => none

/-- The number that a literal stands for; only digits are taken. -/
def numberOf? : Value → Option Nat
  | .number literal => (Text.readDecimal? literal.toList).filter (· ≤ maxSetting)
  | _ => none

/-- The settings with the value of one of them read from a document. -/
def withMember? (c : Config) (key : Key) (v : Value) : Option Config :=
  match key with
  | .sourceRoot => (textOf? v).map fun s => { c with sourceRoot := ⟨s⟩ }
  | .tags => (textsOf? v).map fun l => { c with tags := l }
  | .workers => (numberOf? v).map fun n => { c with workers := n }
  | .readChunk => (numberOf? v).map fun n => { c with readChunk := n }
  | .exclude => (textsOf? v).map fun l => { c with exclude := l }
  | .username => (optionOf? v).map fun o => { c with username := o }
  | .email => (optionOf? v).map fun o => { c with email := o }

/-- Reads members one after the other; `seen` holds the keys read so far, and no
key may come twice. -/
def readMembers? (c : Config) (seen : List Key) :
    List (Option String × Value) → Option (Config × List Key)
  | [] => some (c, seen)
  | (none, _) :: _ => none
  | (some name, v) :: rest =>
    match Key.ofName? name with
    | none => readMembers? c seen rest
    | some key =>
      if seen.contains key then none
      else
        match c.withMember? key v with
        | some c => readMembers? c (key :: seen) rest
        | none => none

/-- Reads values in the order of the keys; there may be fewer values than keys but
not more. -/
def readItems? (c : Config) : List Key → List Value → Option Config
  | _, [] => some c
  | [], _ :: _ => none
  | key :: keys, v :: rest =>
    match c.withMember? key v with
    | some c => readItems? c keys rest
    | none => none

/-- The settings that a value describes.  The source root must be among them. -/
def ofValue? : Value → Option Config
  | .object members =>
    match readMembers? (ofRoot ⟨""⟩) [] members with
    | some (c, seen) => if seen.contains .sourceRoot then some c else none
    | none => none
  | .array (v :: rest) => readItems? (ofRoot ⟨""⟩) Key.all (v :: rest)
  | _ => none

/-- Reads a document. -/
def read? (text : String) : Option Config := (Value.read? text.toList).bind ofValue?

end Marginalia.Config
