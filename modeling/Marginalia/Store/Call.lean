import Marginalia.Store.Basic

set_option autoImplicit false

/-!
# Calls of the store

What a client of the store asks for, one call at a time, as data.  A client is
then a script of calls that waits for each answer, and whoever runs the script
decides what happens between two calls: nothing, a failure, or the calls of
another client.
-/

namespace Marginalia

open Marginalia.Time (Instant)

/-- One call of the store. -/
inductive Call where
  /-- the notes of a file, or all notes -/
  | list (scope : Option String)
  /-- adds a note -/
  | create (d : Draft)
  /-- replaces the note at a location -/
  | update (filepath : String) (line : UInt32) (d : Draft)
  /-- removes the note at a location -/
  | delete (filepath : String) (line : UInt32)
  /-- removes the notes of a file -/
  | deleteFile (filepath : String)
  deriving DecidableEq, Repr, Inhabited

/-- What a call answers when it succeeds. -/
def Call.Answer : Call → Type
  | .list _ => List Note
  | _ => Unit

/-- What a client learns from a call. -/
abbrev Call.Reply (c : Call) : Type := Except StoreError c.Answer

/-- A client: it is finished, or it waits for the reply to a call. -/
inductive Script (α : Type) where
  | done (result : α)
  | call (c : Call) (next : c.Reply → Script α)

/-- A way to answer calls in a state. -/
abbrev Clerk (σ : Type) := (c : Call) → σ → c.Reply × σ

namespace Script

variable {α β σ : Type}

/-- One script and then another that uses its result. -/
def andThen (s : Script α) (f : α → Script β) : Script β :=
  match s with
  | .done a => f a
  | .call c next => .call c fun reply => (next reply).andThen f

/-- Runs a script to its end, each call answered in turn. -/
def run (clerk : Clerk σ) : Script α → σ → α × σ
  | .done a, state => (a, state)
  | .call c next, state =>
    let (reply, state) := clerk c state
    (next reply).run clerk state

end Script

/-! ## Answering calls -/

/-- What a call takes from outside: an identifier nobody has, and the time. -/
structure Draw where
  id : NoteId
  now : Instant
  deriving DecidableEq, Repr, Inhabited

/-- A store together with the draws still to come. -/
structure Desk where
  store : Store
  draws : Nat → Draw

namespace Desk

/-- The desk after a call that leaves a store. -/
def after (d : Desk) (store : Store) : Desk := ⟨store, fun n => d.draws (n + 1)⟩

/-- The reply to a call that makes a new store or fails, and the desk after it. -/
def settle (d : Desk) : Except StoreError Store → Except StoreError Unit × Desk
  | .ok store => (.ok (), d.after store)
  | .error e => (.error e, d.after d.store)

/-- Answers a call.  Every call takes one draw, whether it needs it or not. -/
def answer : Clerk Desk
  | .list none, d => (d.store.all, d.after d.store)
  | .list (some filepath), d => (d.store.byFile filepath, d.after d.store)
  | .create draft, d =>
    d.settle (d.store.create (draft.toNote (d.draws 0).id (d.draws 0).now))
  | .update filepath line draft, d =>
    d.settle (d.store.update filepath line draft (d.draws 0).now)
  | .delete filepath line, d => d.settle (.ok (d.store.delete filepath line))
  | .deleteFile filepath, d => d.settle (.ok (d.store.deleteFile filepath))

end Desk

namespace Clerk

variable {σ : Type}

/-- A clerk whose listings leave notes out. -/
def concealing (hidden : Note → Bool) (clerk : Clerk σ) : Clerk σ
  | .list scope, state =>
    let (reply, state) := clerk (.list scope) state
    (reply.map fun (notes : List Note) => notes.filter fun n => !hidden n, state)
  | .create d, state => clerk (.create d) state
  | .update filepath line d, state => clerk (.update filepath line d) state
  | .delete filepath line, state => clerk (.delete filepath line) state
  | .deleteFile filepath, state => clerk (.deleteFile filepath) state

/-- A clerk that refuses some calls without doing anything. -/
def refusing (refusal : Call → Option StoreError) (clerk : Clerk σ) : Clerk σ :=
  fun c state =>
    match refusal c with
    | some e => (.error e, state)
    | none => clerk c state

end Clerk

end Marginalia
