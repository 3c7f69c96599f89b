import Marginalia.Proofs.Syntax.Address
import Mathlib.Data.List.Forall2

set_option autoImplicit false

/-!
# A walk by moves

A walk moves a cursor by two loops, the inner one climbing until there is a next sibling.
It knows nothing of the cursor but the label that it reads and whether its three moves
succeed.  So it goes the same way with any two cursors that go about the same tree: they
stand at the same nodes at every step, and the same calls are made.
-/

namespace Marginalia.Syntax

variable {κ κ' α : Type}

/-- What a cursor reads at its node, and its moves. -/
structure Moves (κ α : Type) where
  label : κ → α
  firstChild? : κ → Option κ
  nextSibling? : κ → Option κ
  parent? : κ → Option κ

/-- How far a walk is. -/
inductive Walk (κ : Type) where
  /-- in the outer loop, with a node that it has just come to -/
  | arrived (c : κ)
  /-- in the inner loop, with a node below which nothing is left -/
  | leaving (c : κ)
  /-- out of both loops -/
  | ended

/-- Whether cursors go about a tree, each standing at an address: they read the label
there, a move is made exactly if the tree has a node where it leads, and no move leaves
the tree at its root. -/
structure Moves.GoAbout (m : Moves κ α) (t : Tree α) (StandsAt : κ → Address → Prop) : Prop where
  label {c : κ} {p : Address} (h : StandsAt c p) :
    (t.at? p).map Tree.label = some (m.label c)
  firstChild {c : κ} {p : Address} (h : StandsAt c p) :
    Option.Rel StandsAt (m.firstChild? c) (t.address? (p ++ [0]))
  nextSibling {c : κ} {p : Address} {i : Nat} (h : StandsAt c (p ++ [i])) :
    Option.Rel StandsAt (m.nextSibling? c) (t.address? (p ++ [i + 1]))
  parent {c : κ} {p : Address} {i : Nat} (h : StandsAt c (p ++ [i])) :
    Option.Rel StandsAt (m.parent? c) (some p)
  noSibling {c : κ} (h : StandsAt c []) : m.nextSibling? c = none
  noParent {c : κ} (h : StandsAt c []) : m.parent? c = none

namespace Moves

/-- One turn of a loop. -/
def step (m : Moves κ α) : Walk κ → Walk κ
  | .arrived c =>
    match m.firstChild? c with
    | some child => .arrived child
    | none => .leaving c
  | .leaving c =>
    match m.nextSibling? c with
    | some sibling => .arrived sibling
    | none =>
      match m.parent? c with
      | some parent => .leaving parent
      | none => .ended
  | .ended => .ended

/-- The calls made in a turn: one for a node just come to, if its label passes a test. -/
def called (m : Moves κ α) (wanted : α → Bool) : Walk κ → List κ
  | .arrived c => if wanted (m.label c) then [c] else []
  | _ => []

/-- How far the walk is after a number of turns, and the calls made in them. -/
def run (m : Moves κ α) (wanted : α → Bool) : Nat → Walk κ → Walk κ × List κ
  | 0, w => (w, [])
  | n + 1, w =>
    let (last, calls) := m.run wanted n (m.step w)
    (last, m.called wanted w ++ calls)

end Moves

/-! ## Two cursors in step -/

/-- Whether two cursors stand at the same address. -/
def Abreast (StandsAt : κ → Address → Prop) (StandsAt' : κ' → Address → Prop)
    (c : κ) (c' : κ') : Prop :=
  ∃ p, StandsAt c p ∧ StandsAt' c' p

/-- Whether two walks are equally far, with related cursors. -/
inductive Walk.InStep (R : κ → κ' → Prop) : Walk κ → Walk κ' → Prop where
  | arrived {c : κ} {c' : κ'} (h : R c c') : InStep R (.arrived c) (.arrived c')
  | leaving {c : κ} {c' : κ'} (h : R c c') : InStep R (.leaving c) (.leaving c')
  | ended : InStep R .ended .ended

theorem Walk.InStep.eq_ended {R : κ → κ' → Prop} {w : Walk κ} (h : w.InStep R .ended) :
    w = .ended := by
  cases h
  rfl

variable {StandsAt : κ → Address → Prop} {StandsAt' : κ' → Address → Prop}

/-- Where two moves lead to the same address, both are made or neither is. -/
theorem rel_abreast {moved : Option κ} {moved' : Option κ'} {place : Option Address}
    (h : Option.Rel StandsAt moved place) (h' : Option.Rel StandsAt' moved' place) :
    Option.Rel (Abreast StandsAt StandsAt') moved moved' := by
  cases h with
  | none => cases h'; exact .none
  | some hc =>
    cases h' with
    | some hc' => exact .some ⟨_, hc, hc'⟩

namespace Moves.GoAbout

variable {m : Moves κ α} {m' : Moves κ' α} {t : Tree α}

theorem label_eq (h : m.GoAbout t StandsAt) (h' : m'.GoAbout t StandsAt') {c : κ} {c' : κ'}
    (hc : Abreast StandsAt StandsAt' c c') : m.label c = m'.label c' := by
  obtain ⟨p, hc, hc'⟩ := hc
  exact Option.some.inj ((h.label hc).symm.trans (h'.label hc'))

/-- Cursors that stand at one node move abreast to its next sibling and to its parent. -/
theorem abreast_leaving (h : m.GoAbout t StandsAt) (h' : m'.GoAbout t StandsAt') {c : κ}
    {c' : κ'} (hc : Abreast StandsAt StandsAt' c c') :
    Option.Rel (Abreast StandsAt StandsAt') (m.nextSibling? c) (m'.nextSibling? c') ∧
      Option.Rel (Abreast StandsAt StandsAt') (m.parent? c) (m'.parent? c') := by
  obtain ⟨p, hc, hc'⟩ := hc
  rcases List.eq_nil_or_concat p with rfl | ⟨p, i, rfl⟩
  · rw [h.noSibling hc, h'.noSibling hc', h.noParent hc, h'.noParent hc']
    exact ⟨.none, .none⟩
  · rw [List.concat_eq_append] at hc hc'
    exact ⟨rel_abreast (h.nextSibling hc) (h'.nextSibling hc'),
      rel_abreast (h.parent hc) (h'.parent hc')⟩

theorem inStep_step (h : m.GoAbout t StandsAt) (h' : m'.GoAbout t StandsAt') {w : Walk κ}
    {w' : Walk κ'} (hw : w.InStep (Abreast StandsAt StandsAt') w') :
    (m.step w).InStep (Abreast StandsAt StandsAt') (m'.step w') := by
  cases hw with
  | ended => exact .ended
  | @arrived c c' hc =>
    obtain ⟨p, hp, hp'⟩ := hc
    have hchild := rel_abreast (h.firstChild hp) (h'.firstChild hp')
    simp only [step]
    generalize m.firstChild? c = child, m'.firstChild? c' = child' at hchild
    cases hchild with
    | some hchild => exact .arrived hchild
    | none => exact .leaving ⟨p, hp, hp'⟩
  | @leaving c c' hc =>
    obtain ⟨hsibling, hparent⟩ := h.abreast_leaving h' hc
    simp only [step]
    generalize m.nextSibling? c = sibling, m'.nextSibling? c' = sibling' at hsibling
    generalize m.parent? c = parent, m'.parent? c' = parent' at hparent
    cases hsibling with
    | some hsibling => exact .arrived hsibling
    | none =>
      cases hparent with
      | some hparent => exact .leaving hparent
      | none => exact .ended

theorem called_abreast (h : m.GoAbout t StandsAt) (h' : m'.GoAbout t StandsAt')
    (wanted : α → Bool) {w : Walk κ} {w' : Walk κ'}
    (hw : w.InStep (Abreast StandsAt StandsAt') w') :
    List.Forall₂ (Abreast StandsAt StandsAt') (m.called wanted w) (m'.called wanted w') := by
  cases hw with
  | arrived hc =>
    simp only [called, h.label_eq h' hc]
    split
    · exact .cons hc .nil
    · exact .nil
  | leaving => exact .nil
  | ended => exact .nil

/-- Two walks that are in step stay in step and make their calls for the same nodes. -/
theorem inStep_run (h : m.GoAbout t StandsAt) (h' : m'.GoAbout t StandsAt')
    (wanted : α → Bool) (n : Nat) {w : Walk κ} {w' : Walk κ'}
    (hw : w.InStep (Abreast StandsAt StandsAt') w') :
    (m.run wanted n w).1.InStep (Abreast StandsAt StandsAt') (m'.run wanted n w').1 ∧
      List.Forall₂ (Abreast StandsAt StandsAt') (m.run wanted n w).2
        (m'.run wanted n w').2 := by
  induction n generalizing w w' with
  | zero => exact ⟨hw, .nil⟩
  | succ n ih =>
    obtain ⟨hlast, hcalls⟩ := ih (h.inStep_step h' hw)
    exact ⟨hlast, List.rel_append (h.called_abreast h' wanted hw) hcalls⟩

end Moves.GoAbout

end Marginalia.Syntax
