import Marginalia.Json.Value
import Marginalia.Text.Decimal

set_option autoImplicit false

/-!
# Reading JSON

The grammar of RFC 8259 and nothing beyond it: no comments, no trailing commas,
no leading zeros, no byte order mark, no raw controls inside strings.  Every
reader takes its part off the front of the text and hands on the rest.
-/

namespace Marginalia.Json

open Marginalia.Text

/-- Whether a character may stand between tokens. -/
def isSpace (c : Char) : Bool := c == ' ' || c == '\n' || c == '\t' || c == '\r'

/-- The text from its first character that is not white space. -/
def skipSpace (s : List Char) : List Char := s.dropWhile isSpace

/-- The value of a hexadecimal digit of either case. -/
def hexValue? (c : Char) : Option Nat :=
  if '0' ≤ c && c ≤ '9' then some (c.toNat - '0'.toNat)
  else if 'a' ≤ c && c ≤ 'f' then some (c.toNat - 'a'.toNat + 10)
  else if 'A' ≤ c && c ≤ 'F' then some (c.toNat - 'A'.toNat + 10)
  else none

/-- The number that four hexadecimal digits stand for. -/
def hexUnit? (a b c d : Char) : Option Nat := do
  let a ← hexValue? a
  let b ← hexValue? b
  let c ← hexValue? c
  let d ← hexValue? d
  some (((a * 16 + b) * 16 + c) * 16 + d)

/-! ## Strings -/

/-- One element of a string literal: a character, or a code unit that was given
by number. -/
inductive Element where
  | char (c : Char)
  | unit (n : Nat)
  deriving DecidableEq, Repr

/-- The character that a backslash and a letter stand for. -/
def shortEscape? (c : Char) : Option Char :=
  match c with
  | '"' => some '"'
  | '\\' => some '\\'
  | '/' => some '/'
  | 'b' => some '\x08'
  | 'f' => some '\x0c'
  | 'n' => some '\n'
  | 'r' => some '\r'
  | 't' => some '\t'
  | _ => none

/-- The elements of a string literal after its opening quotation mark. -/
def readElements : List Char → Option (List Element × List Char)
  | [] => none
  | '"' :: s => some ([], s)
  | '\\' :: 'u' :: a :: b :: c :: d :: s => do
    let n ← hexUnit? a b c d
    let (elements, rest) ← readElements s
    some (.unit n :: elements, rest)
  | '\\' :: e :: s => do
    let c ← shortEscape? e
    let (elements, rest) ← readElements s
    some (.char c :: elements, rest)
  | c :: s =>
    if c.toNat < 0x20 || c == '\\' then none
    else do
      let (elements, rest) ← readElements s
      some (.char c :: elements, rest)

/-- Whether a code unit opens a surrogate pair. -/
def isHighSurrogate (n : Nat) : Bool := 0xd800 ≤ n && n < 0xdc00

/-- Whether a code unit closes a surrogate pair. -/
def isLowSurrogate (n : Nat) : Bool := 0xdc00 ≤ n && n < 0xe000

/-- The text that the elements of a literal name.  Two code units given by number
may form a pair; half a pair names nothing. -/
def textOf? : List Element → Option (List Char)
  | [] => some []
  | .char c :: rest => (textOf? rest).map (c :: ·)
  | .unit n :: .unit m :: rest =>
    if isHighSurrogate n then
      if isLowSurrogate m then
        (textOf? rest).map (Char.ofNat (0x10000 + (n - 0xd800) * 0x400 + (m - 0xdc00)) :: ·)
      else none
    else if isLowSurrogate n then none
    else (textOf? (.unit m :: rest)).map (Char.ofNat n :: ·)
  | .unit n :: rest =>
    if isHighSurrogate n || isLowSurrogate n then none
    else (textOf? rest).map (Char.ofNat n :: ·)

/-- A string literal after its opening quotation mark. -/
def readText (s : List Char) : Option (Option String × List Char) := do
  let (elements, rest) ← readElements s
  some ((textOf? elements).map String.ofList, rest)

/-! ## Numbers -/

/-- One digit or more. -/
def readDigitRun (s : List Char) : Option (List Char × List Char) :=
  let digits := s.takeWhile isDigit
  if digits.isEmpty then none else some (digits, s.dropWhile isDigit)

/-- The digits before the point: a single zero, or digits that do not start with
zero. -/
def readWhole : List Char → Option (List Char × List Char)
  | '0' :: s => some (['0'], s)
  | s => readDigitRun s

/-- The part of a number from its point on, if there is one. -/
def readFraction : List Char → Option (List Char × List Char)
  | '.' :: s => (readDigitRun s).map fun (digits, rest) => ('.' :: digits, rest)
  | s => some ([], s)

/-- The exponent of a number, if there is one. -/
def readExponent : List Char → Option (List Char × List Char)
  | e :: s =>
    if e == 'e' || e == 'E' then
      match s with
      | sign :: t =>
        if sign == '+' || sign == '-' then
          (readDigitRun t).map fun (digits, rest) => (e :: sign :: digits, rest)
        else (readDigitRun s).map fun (digits, rest) => (e :: digits, rest)
      | [] => none
    else some ([], e :: s)
  | [] => some ([], [])

/-- A number literal. -/
def readNumber (s : List Char) : Option (String × List Char) := do
  let (sign, s) := match s with
    | '-' :: t => (['-'], t)
    | s => ([], s)
  let (whole, s) ← readWhole s
  let (fraction, s) ← readFraction s
  let (exponent, s) ← readExponent s
  if s.head?.any isDigit then none
  else some (String.ofList (sign ++ whole ++ fraction ++ exponent), s)

/-! ## Values

Values nest, so the readers below carry a bound on the number of steps.  Each
step takes at least one character off the text, so the length of the text is
bound enough. -/

/-- Takes a given word off the front of a text. -/
def readWord (word : String) (s : List Char) : Option (List Char) :=
  let w := word.toList
  if s.take w.length = w then some (s.drop w.length) else none

mutual
/-- A value, with white space allowed before it. -/
def readValue : Nat → List Char → Option (Value × List Char)
  | 0, _ => none
  | bound + 1, s =>
    match skipSpace s with
    | [] => none
    | '"' :: t => (readText t).map fun (text, rest) => (.text text, rest)
    | '[' :: t =>
      match skipSpace t with
      | ']' :: rest => some (.array [], rest)
      | _ => (readItems bound t).map fun (items, rest) => (.array items, rest)
    | '\x7b' :: t =>
      match skipSpace t with
      | '\x7d' :: rest => some (.object [], rest)
      | _ => (readMembers bound t).map fun (members, rest) => (.object members, rest)
    | c :: t =>
      if c == 't' then (readWord "true" (c :: t)).map fun rest => (.bool true, rest)
      else if c == 'f' then (readWord "false" (c :: t)).map fun rest => (.bool false, rest)
      else if c == 'n' then (readWord "null" (c :: t)).map fun rest => (.null, rest)
      else (readNumber (c :: t)).map fun (literal, rest) => (.number literal, rest)

/-- The items of an array up to its closing bracket. -/
def readItems : Nat → List Char → Option (List Value × List Char)
  | 0, _ => none
  | bound + 1, s => do
    let (item, s) ← readValue bound s
    match skipSpace s with
    | ',' :: t =>
      let (items, rest) ← readItems bound t
      some (item :: items, rest)
    | ']' :: rest => some ([item], rest)
    | _ => none

/-- The members of an object up to its closing brace. -/
def readMembers : Nat → List Char → Option (List (Option String × Value) × List Char)
  | 0, _ => none
  | bound + 1, s =>
    match skipSpace s with
    | '"' :: t => do
      let (key, t) ← readText t
      match skipSpace t with
      | ':' :: t =>
        let (value, t) ← readValue bound t
        match skipSpace t with
        | ',' :: t =>
          let (members, rest) ← readMembers bound t
          some ((key, value) :: members, rest)
        | '\x7d' :: rest => some ([(key, value)], rest)
        | _ => none
      | _ => none
    | _ => none
end

/-- Reads a document; only white space may follow its value. -/
def Value.read? (s : List Char) : Option Value := do
  let (value, rest) ← readValue (2 * s.length + 2) s
  if (skipSpace rest).isEmpty then some value else none

end Marginalia.Json
