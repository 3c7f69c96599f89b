import Marginalia.Json.Reader
import Marginalia.Text.Lower
import Marginalia.Text.Quoted

set_option autoImplicit false

/-!
# Identifiers of notes

An identifier is a number of 32 hexadecimal digits.  It is written in small
letters, in groups of 8, 4, 4, 4 and 12 digits with hyphens between them.  It
may also be read in capitals, without hyphens, in braces or as a URN, whose own
letters may be capitals too.
-/

namespace Marginalia

open Marginalia.Text

/-- The identifier of a note. -/
structure NoteId where
  digits : List (Fin 16)
  length_digits : digits.length = 32
  deriving DecidableEq, Repr

namespace NoteId

instance : Inhabited NoteId := ⟨⟨List.replicate 32 0, by simp⟩⟩

/-- The sizes of the groups that hyphens separate. -/
def groupSizes : List Nat := [8, 4, 4, 4, 12]

/-- Puts hyphens between groups of the given sizes. -/
def hyphenate : List Nat → List Char → List Char
  | [], s => s
  | [_], s => s
  | size :: sizes, s => s.take size ++ '-' :: hyphenate sizes (s.drop size)

/-- The canonical text of an identifier. -/
def toText (id : NoteId) : String :=
  String.ofList (hyphenate groupSizes (id.digits.map fun d => hexDigit d.val))

/-- The identifier that is made of a random number.  Its 13th digit says that it
is random, and its 17th that it is read as described here. -/
def ofRandom (n : Nat) : NoteId :=
  let digitAt (i : Fin 32) : Fin 16 :=
    let d := Fin.ofNat 16 (n / Nat.pow 16 (31 - i.val))
    if i.val = 12 then 4 else if i.val = 16 then Fin.ofNat 16 (8 + d.val % 4) else d
  ⟨List.ofFn digitAt, by simp⟩

/-- The digit that a character stands for. -/
def digit? (c : Char) : Option (Fin 16) :=
  match Json.hexValue? c with
  | some n => if h : n < 16 then some ⟨n, h⟩ else none
  | none => none

/-- Reads a run of hexadecimal digits. -/
def ofDigits? (s : List Char) : Option NoteId :=
  match s.mapM digit? with
  | some digits => if h : digits.length = 32 then some ⟨digits, h⟩ else none
  | none => none

/-- Takes the hyphens out from between groups of the given sizes, provided they
stand there. -/
def unhyphenate? : List Nat → List Char → Option (List Char)
  | [], s => if s.isEmpty then some [] else none
  | [size], s => if s.length = size then some s else none
  | size :: sizes, s =>
    match s.drop size with
    | '-' :: rest => (unhyphenate? sizes rest).map (s.take size ++ ·)
    | _ => none

/-- Reads the hyphenated form. -/
def ofHyphenated? (s : List Char) : Option NoteId :=
  (unhyphenate? groupSizes s).bind ofDigits?

/-- Reads an identifier in any of its forms. -/
def read? (s : String) : Option NoteId :=
  let cs := s.toList
  if cs.length = 32 then ofDigits? cs
  else if cs.length = 36 then ofHyphenated? cs
  else if cs.length = 38 then
    if cs.head? = some '\x7b' && cs.getLast? = some '\x7d' then ofHyphenated? (cs.tail.dropLast)
    else none
  else if cs.length = 45 then
    if Text.lowerAscii (cs.take 9) = "urn:uuid:".toList then ofHyphenated? (cs.drop 9) else none
  else none

end NoteId

end Marginalia
