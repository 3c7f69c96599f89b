import Marginalia.Proofs.Syntax.Moves

set_option autoImplicit false

/-!
# Where a cursor stands

A cursor that carries the surroundings of its node stands in the tree that the node and
its surroundings make up, at the address that the siblings before it and before its
ancestors tell.  Its moves lead from address to address of that tree as they should.
-/

namespace Marginalia.Syntax

variable {α : Type}

namespace Cursor

/-- The address of a node by what lies around it. -/
def addressOf : List (Crumb α) → Address
  | [] => []
  | crumb :: up => addressOf up ++ [crumb.earlier.length]

/-- The tree that is made up by a node and what lies around it. -/
def wholeOf : Tree α → List (Crumb α) → Tree α
  | t, [] => t
  | t, crumb :: up => wholeOf (.node crumb.parent (crumb.earlier.reverse ++ t :: crumb.later)) up

/-- Whether a cursor stands at an address of a tree. -/
def IsAt (t : Tree α) (c : Cursor α) (p : Address) : Prop :=
  wholeOf c.focus c.crumbs = t ∧ addressOf c.crumbs = p

/-- What a cursor reads and its moves. -/
def moves : Moves (Cursor α) α where
  label c := c.focus.label
  firstChild? := firstChild?
  nextSibling? := nextSibling?
  parent? := parent?

/-- Below the address of a cursor is what is below its node. -/
theorem at?_wholeOf (t : Tree α) (crumbs : List (Crumb α)) (p : Address) :
    (wholeOf t crumbs).at? (addressOf crumbs ++ p) = t.at? p := by
  induction crumbs generalizing t p with
  | nil => rfl
  | cons crumb up ih => simp [wholeOf, addressOf, ih]

theorem IsAt.address?_append {t : Tree α} {c : Cursor α} {p : Address} (h : IsAt t c p)
    (q : Address) : t.address? (p ++ q) = (c.focus.at? q).map fun _ => p ++ q := by
  obtain ⟨rfl, rfl⟩ := h
  rw [Tree.address?, at?_wholeOf]

/-- A cursor below the root stands below another, its parent. -/
theorem IsAt.exists_crumb {t : Tree α} {c : Cursor α} {p : Address} {i : Nat}
    (h : IsAt t c (p ++ [i])) : ∃ crumb up, c.crumbs = crumb :: up ∧ crumb.earlier.length = i ∧
      IsAt t ⟨.node crumb.parent (crumb.earlier.reverse ++ c.focus :: crumb.later), up⟩ p := by
  obtain ⟨focus, _ | ⟨crumb, up⟩⟩ := c
  · exact absurd h.2.symm (List.concat_ne_nil i p)
  · obtain ⟨hup, hi⟩ := List.append_inj' h.2 rfl
    exact ⟨crumb, up, rfl, List.singleton_inj.1 hi, h.1, hup⟩

/-- A cursor at the root has nothing around it. -/
theorem IsAt.crumbs_eq_nil {t : Tree α} {c : Cursor α} (h : IsAt t c []) : c.crumbs = [] := by
  obtain ⟨focus, _ | ⟨crumb, up⟩⟩ := c
  · rfl
  · exact absurd h.2 (List.concat_ne_nil _ _)

theorem at?_next (a : α) (earlier : List (Tree α)) (focus : Tree α) (later : List (Tree α)) :
    (Tree.node a (earlier.reverse ++ focus :: later)).at? [earlier.length + 1] = later.head? := by
  cases later <;> simp

/-- Cursors go about the tree that they make up. -/
theorem moves_goAbout (t : Tree α) : moves.GoAbout t (IsAt t) where
  label {c p} h := by
    obtain ⟨rfl, rfl⟩ := h
    have hat := at?_wholeOf c.focus c.crumbs []
    rw [List.append_nil, Tree.at?_nil] at hat
    rw [hat]
    rfl
  firstChild {c p} h := by
    rw [h.address?_append]
    obtain ⟨⟨a, ts⟩, crumbs⟩ := c
    obtain ⟨rfl, rfl⟩ := h
    cases ts with
    | nil => exact .none
    | cons t ts => exact .some ⟨rfl, rfl⟩
  nextSibling {c p i} h := by
    obtain ⟨focus, crumbs⟩ := c
    obtain ⟨⟨earlier, a, later⟩, up, rfl, rfl, hup⟩ := h.exists_crumb
    rw [hup.address?_append, at?_next]
    obtain ⟨rfl, rfl⟩ := hup
    cases later with
    | nil => exact .none
    | cons next later => exact .some ⟨by simp [wholeOf], by simp [addressOf]⟩
  parent {c p i} h := by
    obtain ⟨focus, crumbs⟩ := c
    obtain ⟨crumb, up, rfl, -, hup⟩ := h.exists_crumb
    exact .some hup
  noSibling {c} h := by
    obtain ⟨focus, crumbs⟩ := c
    obtain rfl := h.crumbs_eq_nil
    rfl
  noParent {c} h := by
    obtain ⟨focus, crumbs⟩ := c
    obtain rfl := h.crumbs_eq_nil
    rfl

end Cursor

end Marginalia.Syntax
