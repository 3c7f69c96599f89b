import Marginalia.Collection.Index
import Marginalia.Store.Call

set_option autoImplicit false

/-!
# Reconciling stored notes with discovered comments

A pass makes the stored notes in its scope match the comments just discovered.
It compares location keys: a key seen only among the comments is created, a key
seen on both sides is updated when text or kind differ, and a key seen only in
the store is pruned.  It goes through the wanted keys in rising order, then
through the stale ones, and stops at the first failure; what is written by then
stays written.
-/

namespace Marginalia

/-- What a pass did. -/
structure Report where
  created : Nat
  updated : Nat
  unchanged : Nat
  /-- the keys of the notes that were removed, in rising order -/
  pruned : List String
  deriving DecidableEq, Repr, Inhabited

namespace Report

/-- The report of a pass that has done nothing yet. -/
def empty : Report := ⟨0, 0, 0, []⟩

/-- Whether the pass changed nothing. -/
def isNoop (r : Report) : Bool := r.created == 0 && r.updated == 0 && r.pruned.isEmpty

end Report

namespace Reconcile

/-- A script whose result may be a failure of the store. -/
abbrev Attempt (α : Type) := Script (Except StoreError α)

/-- Whether a comment is in scope. -/
def inScope (scope : Option String) (c : Comment) : Bool :=
  scope.all (c.filepath == ·)

/-- The comments in scope by key; the first of several at one place counts. -/
def wanted (discovered : List Comment) (scope : Option String) : Index Comment :=
  Index.ofListFirst ((discovered.filter (inScope scope)).map fun c => (c.key, c))

/-- Notes by key. -/
def known (notes : List Note) : Index Note :=
  Index.ofList (notes.map fun n => (n.key, n))

/-- Whether a note says what a comment says. -/
def agrees (n : Note) (c : Comment) : Bool := n.text == c.text && n.kind == c.kind

/-- Removes the notes listed, in the order of the list. -/
def prune : List (String × Note) → Report → Attempt Report
  | [], report => .done (.ok report)
  | (key, n) :: rest, report =>
    .call (.delete n.filepath n.line) fun
      | .ok _ => prune rest { report with pruned := report.pruned ++ [key] }
      | .error e => .done (.error e)

/-- Writes the wanted comments, then removes the notes that nothing asked for.  A
note that appeared behind the listing is left alone. -/
def write : List (String × Comment) → Index Note → Report → Attempt Report
  | [], existing, report => prune existing.entries report
  | (key, c) :: rest, existing, report =>
    match existing.get? key with
    | some n =>
      if agrees n c then
        write rest (existing.erase key) { report with unchanged := report.unchanged + 1 }
      else
        .call (.update c.filepath c.line (.ofComment c)) fun
          | .ok _ =>
            write rest (existing.erase key) { report with updated := report.updated + 1 }
          | .error e => .done (.error e)
    | none =>
      .call (.create (.ofComment c)) fun
        | .ok _ => write rest existing { report with created := report.created + 1 }
        | .error (.alreadyExists _ _) => write rest existing report
        | .error e => .done (.error e)

/-- A pass over the notes in scope. -/
def pass (discovered : List Comment) (scope : Option String) : Attempt Report :=
  .call (.list scope) fun
    | .ok notes => write (wanted discovered scope).entries (known notes) .empty
    | .error e => .done (.error e)

/-- Removes all notes of a file that is gone; says which keys went. -/
def purge (filepath : String) : Attempt (List String) :=
  .call (.list (some filepath)) fun
    | .ok notes =>
      let keys := ((notes : List Note).map Note.key).mergeSort fun a b => decide (a ≤ b)
      .call (.deleteFile filepath) fun
        | .ok _ => .done (.ok keys)
        | .error e => .done (.error e)
    | .error e => .done (.error e)

end Reconcile

end Marginalia
