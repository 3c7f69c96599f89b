import Marginalia.Proofs.Syntax.Cursor
import Marginalia.Syntax.Python

set_option autoImplicit false

/-!
# What a walk comes to

While a walk with a cursor goes on, what it has still to come to can be read off what lies
around the cursor: each turn takes off the node that it has just come to, if any, and
nothing else, and one from the number of turns that are left.  So from the root every walk
ends, having come to each node once and in the order in which the nodes open.
-/

namespace Marginalia.Syntax

variable {α : Type}

namespace Walk

open Cursor

/-! ## The turns there are -/

section Turns

variable (t next : Tree α) (a : α) (ts earlier later : List (Tree α)) (crumbs up : List (Crumb α))

theorem step_leaf : moves.step (.arrived ⟨.node a [], crumbs⟩) = .leaving ⟨.node a [], crumbs⟩ :=
  rfl

theorem step_down : moves.step (.arrived ⟨.node a (t :: ts), crumbs⟩) =
    .arrived ⟨t, ⟨[], a, ts⟩ :: crumbs⟩ := rfl

theorem step_on : moves.step (.leaving ⟨t, ⟨earlier, a, next :: later⟩ :: up⟩) =
    .arrived ⟨next, ⟨t :: earlier, a, later⟩ :: up⟩ := rfl

theorem step_up : moves.step (.leaving ⟨t, ⟨earlier, a, []⟩ :: up⟩) =
    .leaving ⟨.node a (earlier.reverse ++ [t]), up⟩ := rfl

theorem step_out : moves.step (.leaving ⟨t, []⟩) = .ended := rfl

end Turns

/-- A walk is at one of these places, each with a turn of its own. -/
@[elab_as_elim]
theorem byTurn {motive : Walk (Cursor α) → Prop}
    (leaf : ∀ a crumbs, motive (.arrived ⟨.node a [], crumbs⟩))
    (down : ∀ a t ts crumbs, motive (.arrived ⟨.node a (t :: ts), crumbs⟩))
    (on : ∀ t earlier a next later up,
      motive (.leaving ⟨t, ⟨earlier, a, next :: later⟩ :: up⟩))
    (up : ∀ t earlier a up, motive (.leaving ⟨t, ⟨earlier, a, []⟩ :: up⟩))
    (out : ∀ t, motive (.leaving ⟨t, []⟩))
    (ended : motive .ended) : ∀ w, motive w
  | .arrived ⟨.node a [], crumbs⟩ => leaf a crumbs
  | .arrived ⟨.node a (t :: ts), crumbs⟩ => down a t ts crumbs
  | .leaving ⟨t, ⟨earlier, a, next :: later⟩ :: above⟩ => on t earlier a next later above
  | .leaving ⟨t, ⟨earlier, a, []⟩ :: above⟩ => up t earlier a above
  | .leaving ⟨t, []⟩ => out t
  | .ended => ended

end Walk

/-! ## What is left of a walk -/

namespace Cursor

/-- The nodes after those of a place. -/
def after : List (Crumb α) → List (Address × α)
  | [] => []
  | crumb :: up =>
    Tree.childNodes (addressOf up) (crumb.earlier.length + 1) crumb.later ++ after up

/-- The address and the label of the node at a cursor. -/
def here (c : Cursor α) : Address × α := (addressOf c.crumbs, c.focus.label)

end Cursor

namespace Walk

open Cursor

/-- The nodes that a walk has still to come to or has just come to. -/
def coming : Walk (Cursor α) → List (Address × α)
  | .arrived c => Tree.nodesAt (addressOf c.crumbs) c.focus ++ after c.crumbs
  | .leaving c => after c.crumbs
  | .ended => []

/-- The node that a walk has just come to. -/
def met : Walk (Cursor α) → List (Address × α)
  | .arrived c => [c.here]
  | _ => []

/-- The turns that are left: two for each node ahead, and one for each level to climb. -/
def turns : Walk (Cursor α) → Nat
  | .arrived c => 2 * c.ahead + c.crumbs.length
  | .leaving c => 2 * sizesAfter c.crumbs + c.crumbs.length + 1
  | .ended => 0

/-- A turn takes off the node just come to and nothing else. -/
theorem coming_step (w : Walk (Cursor α)) : w.coming = w.met ++ (moves.step w).coming := by
  cases w using byTurn with
  | leaf a crumbs =>
    rw [step_leaf]
    rfl
  | down a t ts crumbs =>
    rw [step_down]
    simp [coming, met, Cursor.here, Tree.nodesAt, Tree.childNodes, after, addressOf, Tree.label]
  | on t earlier a next later up =>
    rw [step_on]
    simp [coming, met, Tree.childNodes, after, addressOf]
  | up t earlier a up =>
    rw [step_up]
    rfl
  | out t =>
    rw [step_out]
    rfl
  | ended => rfl

/-- Every turn but those after the end takes one from the turns that are left. -/
theorem turns_step {w : Walk (Cursor α)} (h : w ≠ .ended) :
    (moves.step w).turns + 1 = w.turns := by
  cases w using byTurn with
  | leaf a crumbs =>
    rw [step_leaf]
    simp only [turns, ahead, Tree.size, Tree.sizes]
    omega
  | down a t ts crumbs =>
    -- There is a node less ahead and a level more to climb.
    rw [step_down]
    simp only [turns, ahead, sizesAfter, Tree.size, Tree.sizes, List.length_cons]
    omega
  | on t earlier a next later up =>
    rw [step_on]
    simp only [turns, ahead, sizesAfter, Tree.sizes, List.length_cons]
    omega
  | up t earlier a up =>
    rw [step_up]
    simp only [turns, sizesAfter, Tree.sizes, List.length_cons]
    omega
  | out t =>
    rw [step_out]
    rfl
  | ended => exact absurd rfl h

/-- With no turns left a walk has ended. -/
theorem eq_ended_of_turns {w : Walk (Cursor α)} (h : w.turns = 0) : w = .ended := by
  cases w with
  | arrived c =>
    have := size_pos c.focus
    simp only [turns, ahead] at h
    omega
  | leaving c => exact absurd h (Nat.succ_ne_zero _)
  | ended => rfl

theorem map_here_called (wanted : α → Bool) (w : Walk (Cursor α)) :
    (moves.called wanted w).map Cursor.here = w.met.filter fun n => wanted n.2 := by
  cases w with
  | arrived c =>
    by_cases hwanted : wanted c.focus.label <;>
      simp [Moves.called, met, moves, Cursor.here, hwanted]
  | leaving c => rfl
  | ended => rfl

/-- When its turns are over a walk has ended and made a call for each node that it had
still to come to and that passes the test. -/
theorem run_turns (wanted : α → Bool) (w : Walk (Cursor α)) :
    (moves.run wanted w.turns w).1 = .ended ∧
      (moves.run wanted w.turns w).2.map Cursor.here = w.coming.filter fun n => wanted n.2 := by
  -- The induction is on the turns that are left, as nothing in the tree gets smaller.
  generalize hn : w.turns = n
  induction n generalizing w with
  | zero =>
    obtain rfl := eq_ended_of_turns hn
    exact ⟨rfl, rfl⟩
  | succ n ih =>
    have hw : w ≠ .ended := by
      rintro rfl
      exact absurd hn (Nat.succ_ne_zero n).symm
    obtain ⟨hlast, hcalls⟩ := ih (moves.step w) (by have := turns_step hw; omega)
    refine ⟨hlast, ?_⟩
    rw [coming_step, List.filter_append, ← map_here_called, ← hcalls, ← List.map_append]
    rfl

end Walk

namespace Cursor

/-! ## The walk in one go -/

/-- Passing a node leads to the nodes after it. -/
theorem coming_passing (focus : Tree α) (crumbs : List (Crumb α)) :
    ((passing? focus crumbs).elim [] fun c => (Walk.arrived c).coming) = after crumbs := by
  induction crumbs generalizing focus with
  | nil => rfl
  | cons crumb up ih =>
    obtain ⟨earlier, a, later⟩ := crumb
    cases later with
    | nil => exact ih _
    | cons next later =>
      exact (Walk.coming_step (.leaving ⟨focus, ⟨earlier, a, next :: later⟩ :: up⟩)).symm

/-- The next node of the walk is the one with which the rest begins. -/
theorem coming_next (c : Cursor α) :
    (Walk.arrived c).coming =
      c.here :: (c.next?.elim [] fun next => (Walk.arrived next).coming) := by
  obtain ⟨⟨a, ts⟩, crumbs⟩ := c
  rw [Walk.coming_step]
  cases ts with
  | nil =>
    rw [Walk.step_leaf]
    exact congrArg (_ :: ·) (coming_passing (.node a []) crumbs).symm
  | cons t ts => rfl

/-- The labels that a walk gives are those of the nodes that it comes to. -/
theorem visit_eq (wanted : α → Bool) (c : Cursor α) :
    c.visit wanted = ((Walk.arrived c).coming.filter fun n => wanted n.2).map (·.2) := by
  fun_induction visit wanted c with
  | case1 c label c' hnext ih =>
    rw [coming_next, hnext, ih]
    by_cases hwanted : wanted c.focus.label <;> simp [label, here, hwanted]
  | case2 c label hnext =>
    rw [coming_next, hnext]
    by_cases hwanted : wanted c.focus.label <;> simp [label, here, hwanted]

/-! ## Walks from the root -/

theorem coming_root (t : Tree α) : (Walk.arrived (root t)).coming = t.nodes :=
  List.append_nil _

theorem turns_root (t : Tree α) : (Walk.arrived (root t)).turns = 2 * t.size := rfl

end Cursor

namespace Moves.GoAbout

variable {κ : Type} {m : Moves κ α} {t : Tree α} {StandsAt : κ → Address → Prop}

/-- A walk from the root ends, and its calls are those for the nodes listed whose labels
pass the test. -/
theorem run_root (h : m.GoAbout t StandsAt) {c : κ} (hc : StandsAt c []) (wanted : α → Bool) :
    ∃ calls, m.run wanted (2 * t.size) (.arrived c) = (.ended, calls) ∧
      List.Forall₂ (fun c n => StandsAt c n.1 ∧ m.label c = n.2) calls
        (t.nodes.filter fun n => wanted n.2) := by
  have hroot : Cursor.IsAt t (.root t) [] := ⟨rfl, rfl⟩
  have hmoves := Cursor.moves_goAbout t
  obtain ⟨hended, hcalled⟩ := Walk.run_turns wanted (.arrived (.root t))
  rw [Cursor.turns_root, Cursor.coming_root] at hcalled
  rw [Cursor.turns_root] at hended
  obtain ⟨hlast, hcalls⟩ := h.inStep_run hmoves wanted (2 * t.size) (.arrived ⟨[], hc, hroot⟩)
  rw [hended] at hlast
  refine ⟨(m.run wanted (2 * t.size) (.arrived c)).2, Prod.ext hlast.eq_ended rfl, ?_⟩
  rw [← hcalled, List.forall₂_map_right_iff]
  refine hcalls.imp fun c c' hc => ⟨?_, h.label_eq hmoves hc⟩
  obtain ⟨p, hp, -, rfl⟩ := hc
  exact hp

end Moves.GoAbout

/-- Two loops that move a cursor from the root of a tree end, whatever the cursor, after two
turns for each node.  They call for each node whose label passes a test once and for no
other, parents before children and each child with what is below it before the next, and
the labels are those that the walk over the tree gives. -/
theorem walk_calls_each_once {κ : Type} {m : Moves κ α} {t : Tree α}
    {StandsAt : κ → Address → Prop} (h : m.GoAbout t StandsAt) {c : κ} (hc : StandsAt c [])
    (wanted : α → Bool) :
    ∃ calls addresses,
      m.run wanted (2 * t.size) (.arrived c) = (.ended, calls) ∧
        List.Forall₂ StandsAt calls addresses ∧
        addresses.Pairwise (· < ·) ∧
        (∀ p, p ∈ addresses ↔ ∃ u, t.at? p = some u ∧ wanted u.label = true) ∧
        calls.map m.label = (Cursor.root t).visit wanted := by
  obtain ⟨calls, hrun, hcalls⟩ := h.run_root hc wanted
  refine ⟨calls, (t.nodes.filter fun n => wanted n.2).map (·.1), hrun, ?_, ?_, fun p => ?_, ?_⟩
  · rw [List.forall₂_map_right_iff]
    exact hcalls.imp fun _ _ hn => hn.1
  · exact List.pairwise_map.2 (t.pairwise_nodes.filter _)
  · simp only [List.mem_map, List.mem_filter, Tree.mem_nodes_iff]
    constructor
    · rintro ⟨n, ⟨⟨u, hat, hlabel⟩, hwanted⟩, rfl⟩
      exact ⟨u, hat, hlabel ▸ hwanted⟩
    · rintro ⟨u, hat, hwanted⟩
      exact ⟨(p, u.label), ⟨⟨u, hat, rfl⟩, hwanted⟩, rfl⟩
  · rw [Cursor.visit_eq, Cursor.coming_root, ← List.forall₂_eq_eq_eq,
      List.forall₂_map_left_iff, List.forall₂_map_right_iff]
    exact hcalls.imp fun _ _ hn => hn.2

/-- The outline of a source with a comment in a field of a literal and another after the
literal: from the first comment to the second the walk climbs two levels. -/
def nestedOutline : Python.Outline :=
  .node .source
    [.node .literal [.node .field [.node (.comment 0 "# a".toList) []]],
      .node (.comment 1 "# b".toList) []]

/-- The walk over it ends after ten turns with both comments. -/
theorem walk_calls_each_once_nested :
    Cursor.moves.GoAbout nestedOutline (Cursor.IsAt nestedOutline) ∧
      Cursor.IsAt nestedOutline (.root nestedOutline) [] ∧
      ∃ calls addresses,
        Cursor.moves.run Python.Label.isComment 10 (.arrived (.root nestedOutline)) =
            (.ended, calls) ∧
          List.Forall₂ (Cursor.IsAt nestedOutline) calls addresses ∧
          addresses.Pairwise (· < ·) ∧
          (∀ p, p ∈ addresses ↔
            ∃ u, nestedOutline.at? p = some u ∧ u.label.isComment = true) ∧
          calls.map Cursor.moves.label = [.comment 0 "# a".toList, .comment 1 "# b".toList] := by
  have hmoves := Cursor.moves_goAbout nestedOutline
  have hroot : Cursor.IsAt nestedOutline (.root nestedOutline) [] := ⟨rfl, rfl⟩
  obtain ⟨calls, addresses, hrun, hat, hsorted, hmem, hlabels⟩ :=
    walk_calls_each_once hmoves hroot Python.Label.isComment
  refine ⟨hmoves, hroot, calls, addresses, hrun, hat, hsorted, hmem, ?_⟩
  rw [hlabels, Cursor.visit_eq]
  rfl

end Marginalia.Syntax
