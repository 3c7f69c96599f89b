import Marginalia.Syntax.Tree
import Mathlib.Data.List.Basic

set_option autoImplicit false

/-!
# Addresses of nodes

A node of a tree is told by the numbers of the children to go down to from the root.
The nodes in the order in which they open have all the addresses at which a tree has a
node, in their lexicographic order: a node is before what is below it, and what is below
one child is before the next child.
-/

namespace Marginalia.Syntax

/-- Where a node is: the number of the child to go down to at each node on the way from
the root. -/
abbrev Address := List Nat

namespace Tree

variable {α : Type}

/-- The tree whose root is the node at an address, if a node is there. -/
def at? : Tree α → Address → Option (Tree α)
  | t, [] => some t
  | t, i :: p => (t.children[i]?).bind fun child => child.at? p

/-- An address, if a node is there. -/
def address? (t : Tree α) (p : Address) : Option Address := (t.at? p).map fun _ => p

mutual
/-- The addresses and labels of the nodes of a tree in the order in which they open, where
the root is at a given address. -/
def nodesAt (here : Address) : Tree α → List (Address × α)
  | .node a ts => (here, a) :: childNodes here 0 ts

/-- The same for the children of a node from a given number on. -/
def childNodes (parent : Address) (i : Nat) : List (Tree α) → List (Address × α)
  | [] => []
  | t :: ts => nodesAt (parent ++ [i]) t ++ childNodes parent (i + 1) ts
end

/-- The addresses and labels of the nodes of a tree in the order in which they open. -/
def nodes (t : Tree α) : List (Address × α) := nodesAt [] t

@[simp] theorem at?_nil (t : Tree α) : t.at? [] = some t := rfl

@[simp] theorem at?_cons (a : α) (ts : List (Tree α)) (i : Nat) (p : Address) :
    (node a ts).at? (i :: p) = (ts[i]?).bind fun child => child.at? p := rfl

/-! ## Every node is listed -/

mutual
/-- The nodes listed are those that the tree has, each with its label. -/
theorem mem_nodesAt_iff {here q : Address} {b : α} : ∀ {t : Tree α},
    (q, b) ∈ nodesAt here t ↔ ∃ p u, q = here ++ p ∧ t.at? p = some u ∧ u.label = b
  | .node a ts => by
    rw [nodesAt, List.mem_cons, mem_childNodes_iff]
    constructor
    · rintro (heq | ⟨j, p, u, rfl, hat, hlabel⟩)
      · obtain ⟨rfl, rfl⟩ := Prod.mk.inj heq
        exact ⟨[], .node b ts, (List.append_nil q).symm, at?_nil _, rfl⟩
      · exact ⟨j :: p, u, by rw [Nat.zero_add], hat, hlabel⟩
    · rintro ⟨p, u, rfl, hat, rfl⟩
      cases p with
      | nil =>
        obtain rfl := Option.some.inj ((at?_nil _).symm.trans hat)
        exact .inl (by rw [List.append_nil, label])
      | cons j p => exact .inr ⟨j, p, u, by rw [Nat.zero_add], hat, rfl⟩

theorem mem_childNodes_iff {parent q : Address} {b : α} : ∀ {i : Nat} {ts : List (Tree α)},
    (q, b) ∈ childNodes parent i ts ↔
      ∃ j p u, q = parent ++ (i + j) :: p ∧ ((ts[j]?).bind fun t => t.at? p) = some u ∧
        u.label = b
  | i, [] => by simp [childNodes]
  | i, t :: ts => by
    rw [childNodes, List.mem_append, mem_nodesAt_iff, mem_childNodes_iff]
    constructor
    · rintro (⟨p, u, rfl, hat, hlabel⟩ | ⟨j, p, u, rfl, hat, hlabel⟩)
      · exact ⟨0, p, u, by simp, hat, hlabel⟩
      · exact ⟨j + 1, p, u, by rw [Nat.add_assoc, Nat.add_comm 1], hat, hlabel⟩
    · rintro ⟨j, p, u, rfl, hat, hlabel⟩
      cases j with
      | zero => exact .inl ⟨p, u, by simp, hat, hlabel⟩
      | succ j => exact .inr ⟨j, p, u, by rw [Nat.add_assoc, Nat.add_comm 1], hat, hlabel⟩
end

theorem mem_nodes_iff {t : Tree α} {n : Address × α} :
    n ∈ t.nodes ↔ ∃ u, t.at? n.1 = some u ∧ u.label = n.2 := by
  rw [nodes, mem_nodesAt_iff]
  simp only [List.nil_append]
  exact ⟨fun ⟨_, u, hp, hat, hlabel⟩ => ⟨u, hp ▸ hat, hlabel⟩,
    fun ⟨u, hat, hlabel⟩ => ⟨_, u, rfl, hat, hlabel⟩⟩

/-! ## Nodes are listed in order -/

theorem lt_append_cons (p : Address) (i : Nat) (q : Address) : p < p ++ i :: q := by
  have h : p ++ [] < p ++ i :: q := List.append_left_lt (List.nil_lt_cons i q)
  rwa [List.append_nil] at h

mutual
/-- A node is listed before all that are below it or further on. -/
theorem pairwise_nodesAt (here : Address) : ∀ t : Tree α,
    (nodesAt here t).Pairwise fun x y => x.1 < y.1
  | .node a ts => by
    rw [nodesAt, List.pairwise_cons]
    refine ⟨fun y hy => ?_, pairwise_childNodes here 0 ts⟩
    obtain ⟨j, p, -, hq, -⟩ := mem_childNodes_iff.1 (show (y.1, y.2) ∈ _ from hy)
    exact hq ▸ lt_append_cons here _ p

theorem pairwise_childNodes (parent : Address) : ∀ (i : Nat) (ts : List (Tree α)),
    (childNodes parent i ts).Pairwise fun x y => x.1 < y.1
  | i, [] => List.Pairwise.nil
  | i, t :: ts => by
    rw [childNodes, List.pairwise_append]
    refine ⟨pairwise_nodesAt _ t, pairwise_childNodes parent (i + 1) ts, fun x hx y hy => ?_⟩
    obtain ⟨p, -, hx, -⟩ := mem_nodesAt_iff.1 (show (x.1, x.2) ∈ _ from hx)
    obtain ⟨j, q, -, hy, -⟩ := mem_childNodes_iff.1 (show (y.1, y.2) ∈ _ from hy)
    rw [hx, hy, List.append_assoc]
    -- The two part at the child: its number is the smaller one on the left.
    exact List.append_left_lt (List.cons_lt_cons_iff.2 (.inl (by omega)))
end

theorem pairwise_nodes (t : Tree α) : t.nodes.Pairwise fun x y => x.1 < y.1 :=
  pairwise_nodesAt [] t

end Tree

end Marginalia.Syntax
