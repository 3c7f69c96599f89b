import Marginalia.Pattern.Machine
import Std.Data.TreeSet.Basic

set_option autoImplicit false

/-!
# Matching

A machine is run from every place of a text in turn, and of its ways on the
preferred one is followed first; the first way that ends gives the match.

Whether a match can end from an instruction and a place does not depend on the
way that led there.  So when all ways on from a fork have failed at a place, the
fork is settled there and is not tried again, neither in this run nor in one from
a later place; and the work for a text stays within a product of the sizes of
machine and text.  A machine that may come back to a fork without having read
anything has to leave it the second time.  There a fork counts as settled as soon
as it is tried, until a match is found.
-/

namespace Marginalia.Pattern

/-- A place in a text: the number of characters and of line feeds before it, the
character just before it, and the rest of the text. -/
structure Cursor where
  offset : Nat
  row : Nat
  before : Option Char
  rest : List Char
  deriving DecidableEq, Repr, Inhabited

namespace Cursor

/-- The start of a text. -/
def start (s : List Char) : Cursor := ⟨0, 0, none, s⟩

/-- The place after the next character, which is given with the text after it. -/
def advance (p : Cursor) (c : Char) (rest : List Char) : Cursor :=
  ⟨p.offset + 1, if c = '\n' then p.row + 1 else p.row, some c, rest⟩

/-- Whether there is a word character just before the place. -/
def afterWord (ascii : Bool) (p : Cursor) : Bool :=
  p.before.any (if ascii then isAsciiWordChar else isWordChar)

/-- Whether there is a word character just after the place. -/
def beforeWord (ascii : Bool) (p : Cursor) : Bool :=
  p.rest.head?.any (if ascii then isAsciiWordChar else isWordChar)

end Cursor

/-- Whether a place is of a sort. -/
def Anchor.holds (a : Anchor) (p : Cursor) : Bool :=
  match a with
  | .textStart => p.before.isNone
  | .textEnd => p.rest.isEmpty
  | .lineStart => p.before.all (· == '\n')
  | .lineEnd => p.rest.head?.all (· == '\n')
  | .returnLineStart =>
    p.before.all fun c => c == '\n' || (c == '\r' && p.rest.head? != some '\n')
  | .returnLineEnd =>
    p.rest.head?.all fun c => c == '\r' || (c == '\n' && p.before != some '\r')
  | .wordBoundary ascii => p.afterWord ascii != p.beforeWord ascii
  | .insideOrOutside ascii => p.afterWord ascii == p.beforeWord ascii
  | .wordStart ascii => !p.afterWord ascii && p.beforeWord ascii
  | .wordEnd ascii => p.afterWord ascii && !p.beforeWord ascii
  | .notAfterWord ascii => !p.afterWord ascii
  | .notBeforeWord ascii => !p.beforeWord ascii

/-! ## Runs -/

/-- What a run still has to do. -/
inductive Task where
  /-- to go on at a place with the instruction of the given number -/
  | attempt (p : Cursor) (i : Nat)
  /-- to settle a fork at a place -/
  | settle (key : Nat)
  deriving DecidableEq, Repr

/-- The forks that are settled at a place, each under the number that stands for
both. -/
abbrev Settled := Std.TreeSet Nat

namespace Machine

/-- The number that stands for a place and an instruction. -/
def key (m : Machine) (p : Cursor) (i : Nat) : Nat := p.offset * m.code.size + i

/-- Works off tasks until a match ends, and gives the place where it ends and
the forks that are settled then.  The bound is the number of tasks. -/
def work (m : Machine) : Nat → List Task → Settled → Option Cursor × Settled
  | 0, _, settled => (none, settled)
  | _ + 1, [], settled => (none, settled)
  | bound + 1, .settle key :: tasks, settled => work m bound tasks (settled.insert key)
  | bound + 1, .attempt p i :: tasks, settled =>
    match m.code[i]? with
    | none => work m bound tasks settled
    | some .done => (some p, if m.circular then ∅ else settled)
    | some (.check a next) =>
      if a.holds p then work m bound (.attempt p next :: tasks) settled
      else work m bound tasks settled
    | some (.read s next) =>
      match p.rest with
      | [] => work m bound tasks settled
      | c :: rest =>
        if s.holds c then work m bound (.attempt (p.advance c rest) next :: tasks) settled
        else work m bound tasks settled
    | some (.fork ways) =>
      let key := m.key p i
      if settled.contains key then work m bound tasks settled
      else
        let attempts := ways.map (Task.attempt p)
        if m.circular then work m bound (attempts ++ tasks) (settled.insert key)
        else work m bound (attempts ++ .settle key :: tasks) settled

/-- A number of tasks that is enough for every run over a text of the given
length.  A fork is tried once at a place and leads to an attempt for each of its
ways and one settling; an attempt takes no more tasks than there are instructions
before it fails or comes to a fork. -/
def enoughTasks (m : Machine) (length : Nat) : Nat :=
  let ways := m.code.foldl (fun n i => n + i.ways) 0
  (m.code.size + 1) * ((ways + 1) * (length + 1) + 2)

end Machine

/-! ## Occurrences in a text -/

/-- A part of a text that a pattern matched. -/
structure Span where
  /-- where the part starts -/
  first : Cursor
  /-- where the part ends -/
  last : Cursor
  deriving DecidableEq, Repr, Inhabited

namespace Span

/-- The text of a span. -/
def text (s : Span) : List Char := s.first.rest.take (s.last.offset - s.first.offset)

end Span

namespace Machine

/-- The matches that hold at least one character and start at a place from the
offset `resume` on.  The list is the text after `p`. -/
def spansFrom (m : Machine) (bound : Nat) : List Char → Cursor → Nat → Settled → List Span
  | [], _, _, _ => []
  | c :: rest, p, resume, settled =>
    let next := p.advance c rest
    if p.offset < resume then spansFrom m bound rest next resume settled
    else
      match m.work bound [.attempt p m.start] settled with
      | (some q, settled) =>
        if p.offset < q.offset then ⟨p, q⟩ :: spansFrom m bound rest next q.offset settled
        else spansFrom m bound rest next resume settled
      | (none, settled) => spansFrom m bound rest next resume settled

/-- The matches of a machine in a text that hold at least one character, from
left to right.  The search goes on where a match ends, so they do not overlap. -/
def spans (m : Machine) (text : List Char) : List Span :=
  m.spansFrom (m.enoughTasks text.length) text (.start text) 0 ∅

end Machine

end Marginalia.Pattern
