import Marginalia.Pattern.Node
import Std.Data.TreeMap.Basic

set_option autoImplicit false

/-!
# How large a pattern is

A pattern may not grow without bound, for a repetition stands for as many copies
as it counts.  The size of a pattern is the size in memory of two automata that
read the UTF-8 form of a text octet by octet, one forwards and one backwards: a
state takes 32 octets, a way on from a state that has several of them 4, and a
range of octets in a state that reads one of several 8.
-/

namespace Marginalia.Pattern

/-- The way in which an automaton reads a text. -/
inductive Direction where
  | forwards
  | backwards
  deriving DecidableEq, Repr, Inhabited

/-- The extent of an automaton or of a part of one: the number of its states, and
its size in octets. -/
structure Extent where
  states : Nat
  octets : Nat
  deriving DecidableEq, Repr, Inhabited

namespace Extent

/-- No states. -/
def none : Extent := ⟨0, 0⟩

instance : Add Extent := ⟨fun a b => ⟨a.states + b.states, a.octets + b.octets⟩⟩

/-- The extent of several parts. -/
def sum (parts : List Extent) : Extent := parts.foldl (· + ·) none

/-- States that have one way on at most. -/
def plain (count : Nat) : Extent := ⟨count, 32 * count⟩

/-- A state that goes on in a number of ways. -/
def fork (ways : Nat) : Extent := ⟨1, 32 + 4 * ways⟩

/-- A state that reads one of several ranges of octets. -/
def reading (ranges : Nat) : Extent := ⟨1, 32 + 8 * ranges⟩

end Extent

/-- The largest size of an automaton. -/
def maxFootprint : Nat := 10 * 1024 * 1024

/-! ## Octets -/

/-- Ranges of octets that stand one after the other. -/
abbrev OctetRun := List (UInt8 × UInt8)

/-- The octets of a code point. -/
def pointOctets (n : Nat) : List UInt8 := String.utf8EncodeChar (Char.ofNat n)

/-- The octets of a text. -/
def textOctets (s : List Char) : List UInt8 := s.flatMap String.utf8EncodeChar

/-- Where a stretch of code points has to be cut so that each part is one run of
octet ranges: at the code points that are no characters, where more octets are
needed, and where a later octet would not take all its values. -/
def cut? (first last : Nat) : Option (Nat × Nat) :=
  if first < 0xe000 && 0xd7ff < last then some (0xd7ff, 0xe000)
  else
    match [0x7f, 0x7ff, 0xffff].find? fun m => first ≤ m && m < last with
    | some m => some (m, m + 1)
    | none =>
      if last < 0x80 then none
      else
        [0x40, 0x1000, 0x40000].findSome? fun unit =>
          if first / unit = last / unit then none
          else if first % unit ≠ 0 then
            some (first / unit * unit + (unit - 1), (first / unit + 1) * unit)
          else if last % unit ≠ unit - 1 then some (last / unit * unit - 1, last / unit * unit)
          else none

/-- The parts of a stretch of code points between its cuts.  No stretch is cut
more often than the bound in the callers. -/
def cutParts : Nat → Nat → Nat → List (Nat × Nat)
  | 0, first, last => [(first, last)]
  | bound + 1, first, last =>
    match cut? first last with
    | some (a, b) => cutParts bound first a ++ cutParts bound b last
    | none => [(first, last)]

/-- The runs of octet ranges of the characters of a set, in rising order. -/
def CharSet.octetRuns (s : CharSet) : List OctetRun :=
  s.stretches.flatMap fun (first, last) =>
    (cutParts 32 first last).map fun (a, b) => (pointOctets a).zip (pointOctets b)

/-! ## Characters read forwards

The states after an octet depend only on what can still follow it, so runs that go
on in the same ways share states. -/

/-- Runs with the same first range put together, each without it. -/
def groupRuns : List OctetRun → List ((UInt8 × UInt8) × List OctetRun)
  | [] => []
  | [] :: runs => groupRuns runs
  | (r :: run) :: runs =>
    match groupRuns runs with
    | (r', tails) :: groups =>
      if r = r' then (r, run :: tails) :: groups else (r, [run]) :: (r', tails) :: groups
    | [] => [(r, [run])]

/-- The sets of runs that are left to read on the way through some runs, which
are not longer than the bound. -/
def pendingRuns : Nat → List OctetRun → List (List OctetRun)
  | 0, _ => []
  | bound + 1, runs =>
    match groupRuns runs with
    | [] => []
    | groups => runs :: groups.flatMap fun g => pendingRuns bound g.2

/-- The states that read runs forwards. -/
def forwardRuns (runs : List OctetRun) : Extent :=
  .plain 1 + .sum ((pendingRuns 4 runs).eraseDups.map fun rs => .reading (groupRuns rs).length)

/-! ## Characters read backwards

There the states before an octet depend only on what has to come before it.  Runs
with the same beginning share states, as far as a table of a thousand places
remembers them; a place holds the state that was put there last. -/

/-- A state that reads a range of octets and goes on with the state `next`. -/
structure RangeState where
  next : Nat
  range : UInt8 × UInt8
  number : Nat
  deriving DecidableEq, Repr

/-- The place in the table of a state that reads a range and goes on with another:
each number in turn is mixed in by exclusive or and spread by a product. -/
def tablePlace (next : Nat) (range : UInt8 × UInt8) : Nat :=
  let mix (h v : UInt64) : UInt64 := (h ^^^ v) * 1099511628211
  ([next.toUInt64, range.1.toUInt64, range.2.toUInt64].foldl mix 14695981039346656037).toNat % 1000

/-- The states built so far, by their places in the table, and the number of the
next one. -/
structure Builder where
  table : Std.TreeMap Nat RangeState
  fresh : Nat

/-- Builds the states that read a run backwards and then go on with a state,
unless they are in the table. -/
def Builder.addRun : OctetRun → Nat → Builder → Builder
  | [], _, b => b
  | range :: run, next, b =>
    let place := tablePlace next range
    match b.table[place]? with
    | some s =>
      if s.next = next && s.range = range then addRun run s.number b
      else addRun run b.fresh ⟨b.table.insert place ⟨next, range, b.fresh⟩, b.fresh + 1⟩
    | none => addRun run b.fresh ⟨b.table.insert place ⟨next, range, b.fresh⟩, b.fresh + 1⟩

/-- The states that read runs backwards, in an automaton with so many states
before them. -/
def backwardRuns (runs : List OctetRun) (before : Nat) : Extent :=
  let last := before + 1
  let built := runs.foldl (fun b run => b.addRun run last) (⟨∅, last + 1⟩ : Builder)
  .fork runs.length + .plain 1 + .plain (built.fresh - (last + 1))

/-! ## Texts as alternatives -/

/-- Texts with the same first octet put together, each without it, in the order
of first mention. -/
def groupWords : List (List UInt8) → List (UInt8 × List (List UInt8))
  | [] => []
  | [] :: words => groupWords words
  | (b :: word) :: words =>
    let groups := groupWords words
    match groups.find? (·.1 = b) with
    | some (_, tails) => (b, word :: tails) :: groups.filter (·.1 ≠ b)
    | none => (b, [word]) :: groups

/-- The words up to each place where a word ends. -/
def wordsBetweenEnds : List (List UInt8) → List (List (List UInt8))
  | [] => [[]]
  | [] :: words => [] :: wordsBetweenEnds words
  | word :: words =>
    match wordsBetweenEnds words with
    | ws :: more => (word :: ws) :: more
    | [] => [[word]]

/-- The states that tell words apart which are given in an order of preference and
are not longer than the bound.  Where a word ends, the words before it and those
after it are told apart by states of their own. -/
def wordStates : Nat → List (List UInt8) → Extent
  | 0, _ => .none
  | bound + 1, words =>
    if words.all (·.isEmpty) then .none
    else
      let ends := (words.filter (·.isEmpty)).length - ((words.takeWhile (·.isEmpty)).length - 1)
      let groups := ((wordsBetweenEnds words).map groupWords).filter (!·.isEmpty)
      let reading (g : List (UInt8 × List (List UInt8))) : Extent :=
        (if g.length = 1 then .plain 1 else .reading g.length) +
          .sum (g.map fun b => wordStates bound b.2)
      .fork (groups.length + ends) + .sum (groups.map reading)

/-- The states of a choice between texts. -/
def textsExtent (d : Direction) (texts : List (List Char)) : Extent :=
  let words := texts.map fun s =>
    match d with
    | .forwards => textOctets s
    | .backwards => (textOctets s).reverse
  .plain 1 + wordStates (words.foldl (fun n w => max n w.length) 0 + 1) words

/-! ## Plans -/

/-- How the states of an automaton are built, one part after the other. -/
inductive Plan where
  /-- states of a known extent -/
  | part (e : Extent)
  /-- the states that read runs backwards -/
  | runs (rs : List OctetRun)
  /-- one plan and then another -/
  | both (a b : Plan)
  /-- a plan a number of times -/
  | times (count : Nat) (p : Plan)

namespace Plan

/-- Builds more and more until a size is too large anyway. -/
def repeatedly (step : Extent → Extent) : Nat → Extent → Extent
  | 0, e => e
  | count + 1, e => if maxFootprint < e.octets then e else repeatedly step count (step e)

/-- The extent of an automaton after a plan has been followed. -/
def follow : Plan → Extent → Extent
  | .part p, e => e + p
  | .runs rs, e => e + backwardRuns rs e.states
  | .both a b, e => b.follow (a.follow e)
  | .times count p, e => repeatedly p.follow count e

/-- The plan of a repetition. -/
def repetition (p : Plan) (consumes : Bool) (least : Nat) : Option Nat → Plan
  | none =>
    match least with
    | 0 =>
      if consumes then .both (.part (.fork 2)) p
      else .both p (.part (.fork 2 + .fork 2 + .plain 1))
    | least => .both (.times least p) (.part (.fork 2))
  | some most =>
    if least = most then .times least p
    else if least = 0 && most = 1 then .both (.part (.fork 2)) (.both p (.part (.plain 1)))
    else
      .both (if least = 0 then .part (.plain 1) else .times least p)
        (.both (.part (.plain 1)) (.times (most - least) (.both (.part (.fork 2)) p)))

/-- A plan for the alternative of a choice before which there are so many others;
the choice itself is built after its second alternative. -/
def alternative (p : Plan) : Nat → Plan
  | 0 => p
  | 1 => .both p (.part (.fork 2 + .plain 1))
  | _ => .both p (.part ⟨0, 4⟩)

end Plan

/-- The plan for one character of a set. -/
def CharSet.plan (d : Direction) (s : CharSet) : Plan :=
  if s.isAscii then .part (.plain 1 + .reading s.stretches.length)
  else
    match d with
    | .forwards => .part (forwardRuns s.octetRuns)
    | .backwards => .runs s.octetRuns

namespace Node

/-- The text of a pattern that is a text. -/
def text? : Node → Option (List Char)
  | .text s => some s
  | _ => none

/-- The plan of a pattern before which so many alternatives of the same choice
stand. -/
def plan (d : Direction) : Nat → Node → Plan
  | n, .empty => (Plan.part (.plain 1)).alternative n
  | n, .text s => (Plan.part (.plain (textOctets s).length)).alternative n
  | n, .set s => (s.plan d).alternative n
  | n, .anchor _ => (Plan.part (.plain 1)).alternative n
  | n, .group _ _ r =>
    match d with
    | .forwards => (Plan.both (plan d 0 r) (.part (.plain 2))).alternative n
    | .backwards => (plan d 0 r).alternative n
  | n, .seq a b =>
    match d with
    | .forwards => (Plan.both (plan d 0 a) (plan d 0 b)).alternative n
    | .backwards => (Plan.both (plan d 0 b) (plan d 0 a)).alternative n
  | n, .alt a b =>
    match n, (Node.alt a b).branches.mapM text? with
    | 0, some texts => .part (textsExtent d texts)
    | n, _ => .both ((plan d 0 a).alternative n) (plan d (n + 1) b)
  | n, .repeated r least most _ =>
    ((plan d 0 r).repetition r.consumes least most).alternative n

/-- Whether a place of a sort is needed wherever a pattern begins or, read
backwards, ends. -/
def isBoundTo (d : Direction) (a : Anchor) : Node → Bool
  | .anchor b => a == b
  | .group _ _ r => isBoundTo d a r
  | .seq r s =>
    match d with
    | .forwards => isBoundTo d a r || (r.isZeroWidth && isBoundTo d a s)
    | .backwards => isBoundTo d a s || (s.isZeroWidth && isBoundTo d a r)
  | .alt r s => isBoundTo d a r && isBoundTo d a s
  | .repeated r least _ _ => 0 < least && isBoundTo d a r
  | _ => false

/-- The extent of the automaton that reads in a direction.  Unless the pattern is
bound to the end where reading starts, the automaton may pass over what comes
before a match; and forwards it marks where a match starts and ends. -/
def extent (d : Direction) (r : Node) : Extent :=
  let start : Anchor := if d = .forwards then .textStart else .textEnd
  let passing : Extent :=
    if isBoundTo d start r then .plain 1 else .fork 2 + .plain 1 + .reading 1
  let marking : Extent := if d = .forwards then .plain 2 else .none
  (r.plan d 0).follow (passing + marking) + .plain 1

/-- Whether a pattern is not too large. -/
def isSmall (r : Node) : Bool :=
  (r.extent .forwards).octets ≤ maxFootprint && (r.extent .backwards).octets ≤ maxFootprint

end Node

end Marginalia.Pattern
