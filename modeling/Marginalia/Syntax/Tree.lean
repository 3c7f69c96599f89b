set_option autoImplicit false

/-!
# Ordered trees and a cursor that walks them

A cursor stands at one node of a tree and can move to the first child, to the
next sibling and to the parent.  The walk from the root goes down before it goes
on, and so comes to the nodes in the order in which they open.  It ends because
every move forward leaves fewer nodes ahead.
-/

namespace Marginalia.Syntax

/-- A tree whose nodes have labels and ordered children. -/
inductive Tree (α : Type) where
  | node (label : α) (children : List (Tree α))
  deriving Inhabited

namespace Tree

variable {α : Type}

/-- The label of the root. -/
def label : Tree α → α
  | .node a _ => a

/-- The trees below the root. -/
def children : Tree α → List (Tree α)
  | .node _ ts => ts

mutual
/-- The number of nodes. -/
def size : Tree α → Nat
  | .node _ ts => sizes ts + 1

/-- The number of nodes of several trees. -/
def sizes : List (Tree α) → Nat
  | [] => 0
  | t :: ts => size t + sizes ts
end

end Tree

/-- What lies around a node: its siblings before it, the nearest first, the label
of its parent and its siblings after it. -/
structure Crumb (α : Type) where
  earlier : List (Tree α)
  parent : α
  later : List (Tree α)

/-- A place in a tree: a node and what lies around it and around each of its
ancestors, the parent first. -/
structure Cursor (α : Type) where
  focus : Tree α
  crumbs : List (Crumb α)

namespace Cursor

variable {α : Type}

/-- The cursor at the root of a tree. -/
def root (t : Tree α) : Cursor α := ⟨t, []⟩

/-- The first child. -/
def firstChild? (c : Cursor α) : Option (Cursor α) :=
  match c.focus with
  | .node _ [] => none
  | .node a (t :: ts) => some ⟨t, ⟨[], a, ts⟩ :: c.crumbs⟩

/-- The next sibling. -/
def nextSibling? (c : Cursor α) : Option (Cursor α) :=
  match c.crumbs with
  | ⟨earlier, a, t :: later⟩ :: up => some ⟨t, ⟨c.focus :: earlier, a, later⟩ :: up⟩
  | _ => none

/-- The parent; the root has none. -/
def parent? (c : Cursor α) : Option (Cursor α) :=
  match c.crumbs with
  | ⟨earlier, a, later⟩ :: up => some ⟨.node a (earlier.reverse ++ c.focus :: later), up⟩
  | [] => none

/-- The number of nodes after a place. -/
def sizesAfter : List (Crumb α) → Nat
  | [] => 0
  | crumb :: up => Tree.sizes crumb.later + sizesAfter up

/-- The number of nodes ahead: those of the focus and those after it. -/
def ahead (c : Cursor α) : Nat :=
  c.focus.size + sizesAfter c.crumbs

/-- The next sibling of the node or of its nearest ancestor that has one. -/
def passing? : Tree α → List (Crumb α) → Option (Cursor α)
  | _, [] => none
  | focus, crumb :: up =>
    match nextSibling? ⟨focus, crumb :: up⟩ with
    | some c => some c
    | none => passing? (.node crumb.parent (crumb.earlier.reverse ++ focus :: crumb.later)) up

/-- The node that comes after this one in the walk. -/
def next? (c : Cursor α) : Option (Cursor α) :=
  match c.firstChild? with
  | some child => some child
  | none => passing? c.focus c.crumbs

theorem size_pos (t : Tree α) : 0 < t.size := by
  cases t; simp [Tree.size]

theorem ahead_passing {focus : Tree α} {crumbs : List (Crumb α)} {c : Cursor α}
    (h : passing? focus crumbs = some c) :
    c.ahead ≤ sizesAfter crumbs := by
  induction crumbs generalizing focus with
  | nil => simp [passing?] at h
  | cons crumb up ih =>
    obtain ⟨earlier, a, later⟩ := crumb
    cases later with
    | nil =>
      simp only [passing?, nextSibling?] at h
      simpa [sizesAfter, Tree.sizes] using ih h
    | cons t later =>
      simp only [passing?, nextSibling?, Option.some.injEq] at h
      subst h
      simp [ahead, sizesAfter, Tree.sizes]
      omega

theorem ahead_next {c c' : Cursor α} (h : c.next? = some c') : c'.ahead < c.ahead := by
  obtain ⟨⟨a, ts⟩, crumbs⟩ := c
  cases ts with
  | nil =>
    simp only [next?, firstChild?] at h
    have := ahead_passing h
    simp [ahead, Tree.size, Tree.sizes] at this ⊢
    omega
  | cons t ts =>
    simp only [next?, firstChild?, Option.some.injEq] at h
    subst h
    simp [ahead, sizesAfter, Tree.size, Tree.sizes]
    omega

/-- The labels that pass a test, of the node at the cursor and of all nodes that
the walk comes to after it. -/
def visit (wanted : α → Bool) (c : Cursor α) : List α :=
  let here := if wanted c.focus.label then [c.focus.label] else []
  match _h : c.next? with
  | some c' => here ++ visit wanted c'
  | none => here
termination_by c.ahead
decreasing_by exact ahead_next _h

end Cursor

end Marginalia.Syntax
