set_option autoImplicit false

/-!
# Texts as the system keeps them

The system keeps names and paths as bytes, and these need be no text.  Read as UTF-8
they fall into pieces: characters, and between them bytes that are none, which are
either a character that breaks off or one byte that begins no character.  To show such
bytes as a text one replacement character is written for each piece of the second sort.
-/

namespace Marginalia

/-- The bytes of a text in UTF-8. -/
def Text.bytes (s : String) : List UInt8 := s.toUTF8.data.toList

/-- A name or a path as the system keeps it. -/
abbrev RawText := List UInt8

namespace RawText

instance : Coe String RawText := ⟨Text.bytes⟩

/-- A piece of bytes that are read as UTF-8. -/
inductive Piece where
  | char (c : Char)
  /-- bytes that are no character -/
  | broken (bytes : RawText)
  deriving DecidableEq, Repr, Inhabited

/-- Between which bounds each byte lies that goes on with a character, by the first byte
of the character; none if no character begins with it.  The bounds of the second byte
keep out characters that have a shorter form, surrogates, and numbers that are too large. -/
def tailBounds? (first : Nat) : Option (List (Nat × Nat)) :=
  if first < 0x80 then some []
  else if first < 0xc2 then none
  else if first < 0xe0 then some [(0x80, 0xbf)]
  else if first < 0xf0 then
    some [(if first = 0xe0 then 0xa0 else 0x80, if first = 0xed then 0x9f else 0xbf), (0x80, 0xbf)]
  else if first < 0xf5 then
    some [(if first = 0xf0 then 0x90 else 0x80, if first = 0xf4 then 0x8f else 0xbf),
      (0x80, 0xbf), (0x80, 0xbf)]
  else none

/-- The bytes at the start of some that lie between the given bounds in turn. -/
def takeBetween : List (Nat × Nat) → RawText → RawText
  | (least, most) :: bounds, b :: rest =>
    if least ≤ b.toNat && b.toNat ≤ most then b :: takeBetween bounds rest else []
  | _, _ => []

/-- What the first byte of a character says of its number, by the number of bytes after
it. -/
def lead (first : Nat) : Nat → Nat
  | 0 => first
  | 1 => first - 0xc0
  | 2 => first - 0xe0
  | _ => first - 0xf0

/-- The number of a character by its bytes, all of which are there. -/
def pointOf (first : UInt8) (tail : RawText) : Nat :=
  tail.foldl (fun n b => n * 64 + (b.toNat - 0x80)) (lead first.toNat tail.length)

/-- The piece that begins with a byte, and the number of bytes of it after the first. -/
def nextPiece (first : UInt8) (rest : RawText) : Piece × Nat :=
  match tailBounds? first.toNat with
  | none => (.broken [first], 0)
  | some bounds =>
    let tail := takeBetween bounds rest
    if tail.length = bounds.length then (.char (Char.ofNat (pointOf first tail)), tail.length)
    else (.broken (first :: tail), tail.length)

/-- The pieces of bytes after as many of them as still belong to a piece read before. -/
def piecesAfter : Nat → RawText → List Piece
  | _, [] => []
  | taken + 1, _ :: rest => piecesAfter taken rest
  | 0, first :: rest =>
    let next := nextPiece first rest
    next.1 :: piecesAfter next.2 rest

/-- The pieces of bytes that are read as UTF-8. -/
def pieces (r : RawText) : List Piece := piecesAfter 0 r

/-- The character that is written for a piece. -/
def Piece.shown : Piece → Char
  | .char c => c
  | .broken _ => '\ufffd'

/-- Whether a piece is a character. -/
def Piece.isChar : Piece → Bool
  | .char _ => true
  | .broken _ => false

/-- Bytes shown as a text. -/
def shown (r : RawText) : String := String.ofList (r.pieces.map Piece.shown)

/-- Whether bytes are a text. -/
def isText (r : RawText) : Bool := r.pieces.all Piece.isChar

/-- The text that bytes are, if they are one. -/
def text? (r : RawText) : Option String := if r.isText then some r.shown else none

end RawText

end Marginalia
