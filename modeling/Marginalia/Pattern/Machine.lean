import Marginalia.Pattern.Footprint
import Marginalia.Pattern.Parser

set_option autoImplicit false

/-!
# Machines

A machine is a pattern laid out as instructions.  An instruction that does not
end the run names the instructions that a run may go on with, the preferred one
first.  Going on at the number of an instruction means to match what is left of
the pattern from there; so the machine of a pattern is built from its end, each
part being given the number at which the rest begins.
-/

namespace Marginalia.Pattern

/-- One instruction of a machine. -/
inductive Instruction where
  /-- reads one character of a set -/
  | read (s : CharSet) (next : Nat)
  /-- goes on at a place of the given sort only -/
  | check (a : Anchor) (next : Nat)
  /-- goes on in one of several ways, the preferred one first -/
  | fork (ways : List Nat)
  /-- ends a match -/
  | done
  deriving DecidableEq, Repr, Inhabited

namespace Instruction

/-- The number of ways to go on from a fork. -/
def ways : Instruction → Nat
  | .fork ways => ways.length
  | _ => 0

/-- A fork with a further way, which is preferred to all others. -/
def prefer (way : Nat) : Instruction → Instruction
  | .fork ways => .fork (way :: ways)
  | i => i

end Instruction

/-- A machine under construction: its instructions so far, and the number of the
one at which it begins. -/
structure Draft where
  code : Array Instruction
  start : Nat
  deriving Repr, Inhabited

namespace Draft

/-- Begins with a further instruction, which may go on where the draft began. -/
def push (d : Draft) (i : Nat → Instruction) : Draft :=
  match d with
  | ⟨code, start⟩ =>
    let number := code.size
    ⟨code.push (i start), number⟩

/-- Offers the instruction `first` before what a draft begins with.  With
`joined` the draft begins with a fork, which is given one way more. -/
def orElse (first : Nat) (joined : Bool) (d : Draft) : Draft :=
  if joined then
    match d with
    | ⟨code, start⟩ => ⟨code.modify start (·.prefer first), start⟩
  else d.push fun second => .fork [first, second]

/-- Puts a step in front of a draft a number of times. -/
def times (step : Draft → Draft) : Nat → Draft → Draft
  | 0, d => d
  | count + 1, d => times step count (step d)

/-- The ways to go on with another round or to stop. -/
def ways (greedy : Bool) (again stop : Nat) : List Nat :=
  if greedy then [again, stop] else [stop, again]

/-- Rounds without end in front of a draft, and the number of the instruction
that decides on another one.  Every round comes back to it. -/
def rounds (step : Draft → Draft) (greedy : Bool) (d : Draft) : Draft × Nat :=
  match d with
  | ⟨code, stop⟩ =>
    let again := code.size
    match step ⟨code.push (.fork []), again⟩ with
    | ⟨code, start⟩ => (⟨code.setIfInBounds again (.fork (ways greedy start stop)), start⟩, again)

/-- One round or none, whose omission leads to `stop`. -/
def option (step : Draft → Draft) (greedy : Bool) (stop : Nat) (d : Draft) : Draft :=
  (step d).push fun start => .fork (ways greedy start stop)

end Draft

namespace Node

/-- The rounds of a repetition in front of a draft.  A repetition that may end
before its first round begins where it decides on another one; but what may match
nothing is given a first round of its own. -/
def repeatBefore (step : Draft → Draft) (consumes : Bool) (least : Nat) (most : Option Nat)
    (greedy : Bool) (d : Draft) : Draft :=
  let stop := d.start
  match most with
  | some most =>
      Draft.times step least (Draft.times (Draft.option step greedy stop) (most - least) d)
  | none =>
    let (once, again) := Draft.rounds step greedy d
    match least with
    | 0 =>
      if consumes then ⟨once.code, again⟩
      else once.push fun start => .fork (Draft.ways greedy start stop)
    | least + 1 => Draft.times step least once

/-- Whether a pattern is a choice, so that it begins with a fork of its own. -/
def isChoice : Node → Bool
  | .alt _ _ => true
  | _ => false

/-- A pattern in front of a draft. -/
def before : Node → Draft → Draft
  | .empty, d => d
  | .text s, d => s.foldr (fun c d => d.push (.read (.single c))) d
  | .set s, d => d.push (.read s)
  | .anchor a, d => d.push (.check a)
  | .group _ _ r, d => r.before d
  | .seq a b, d => a.before (b.before d)
  | .alt a b, d =>
    let stop := d.start
    match a.before d with
    | ⟨code, first⟩ => (b.before ⟨code, stop⟩).orElse first b.isChoice
  | .repeated r least most greedy, d => repeatBefore r.before r.consumes least most greedy d

/-- Whether a pattern holds a repetition without bound of what may match nothing. -/
def hasIdleLoop : Node → Bool
  | .group _ _ r => hasIdleLoop r
  | .seq a b => hasIdleLoop a || hasIdleLoop b
  | .alt a b => hasIdleLoop a || hasIdleLoop b
  | .repeated r _ most _ => (most.isNone && !r.consumes) || hasIdleLoop r
  | _ => false

end Node

/-- A machine: instructions, the number of the first one, and whether a run may
come back to an instruction without having read a character. -/
structure Machine where
  code : Array Instruction
  start : Nat
  circular : Bool
  deriving Repr, Inhabited

namespace Machine

/-- The machine of a pattern. -/
def ofNode (r : Node) : Machine :=
  let d := r.before ⟨#[.done], 0⟩
  ⟨d.code, d.start, r.hasIdleLoop⟩

/-- The machine of a pattern that a text denotes under the given options, unless
the pattern is too large. -/
def read? (o : Options) (text : String) : Option Machine := do
  let r ← Node.read? o text
  if r.isSmall then some (ofNode r) else none

end Machine

end Marginalia.Pattern
