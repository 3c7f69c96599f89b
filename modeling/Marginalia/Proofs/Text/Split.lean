import Marginalia.Text.Lines
import Mathlib.Data.List.Basic

set_option autoImplicit false

/-!
# Splitting and joining

A text is cut at every separator, and two texts with a separator between them are
cut on their own.  So what is joined from parts without a separator is cut into
these parts again.
-/

namespace Marginalia.Text

variable {α : Type} [DecidableEq α] {separator : α}

theorem splitOn_ne_nil (separator : α) (s : List α) : splitOn separator s ≠ [] := by
  cases s with
  | nil => simp [splitOn]
  | cons c s =>
    simp only [splitOn]
    split
    · exact List.cons_ne_nil _ _
    · split <;> exact List.cons_ne_nil _ _

theorem splitOn_cons_self (s : List α) :
    splitOn separator (separator :: s) = [] :: splitOn separator s := by
  simp only [splitOn, if_true]

/-- A character that does not separate goes to the first part. -/
theorem splitOn_cons_of_ne {c : α} (h : c ≠ separator) {s part : List α}
    {parts : List (List α)} (hs : splitOn separator s = part :: parts) :
    splitOn separator (c :: s) = (c :: part) :: parts := by
  simp only [splitOn, if_neg h, hs]

/-- Two texts around a separator are cut on their own. -/
theorem splitOn_append_cons (s t : List α) :
    splitOn separator (s ++ separator :: t) = splitOn separator s ++ splitOn separator t := by
  induction s with
  | nil => exact splitOn_cons_self t
  | cons c s ih =>
    by_cases hc : c = separator
    · subst hc
      rw [List.cons_append, splitOn_cons_self, splitOn_cons_self, ih]
      rfl
    · obtain ⟨part, parts, hparts⟩ := List.exists_cons_of_ne_nil (splitOn_ne_nil separator s)
      rw [hparts, List.cons_append] at ih
      rw [List.cons_append, splitOn_cons_of_ne hc ih, splitOn_cons_of_ne hc hparts]
      rfl

theorem splitOn_eq_singleton {s : List α} (h : separator ∉ s) :
    splitOn separator s = [s] := by
  induction s with
  | nil => rfl
  | cons c s ih =>
    obtain ⟨hc, hs⟩ := not_or.1 (mt List.mem_cons.2 h)
    exact splitOn_cons_of_ne (Ne.symm hc) (ih hs)

/-- No part holds the separator. -/
theorem not_mem_of_mem_splitOn {s part : List α} (h : part ∈ splitOn separator s) :
    separator ∉ part := by
  induction s generalizing part with
  | nil =>
    rw [List.mem_singleton.1 h]
    exact List.not_mem_nil
  | cons c s ih =>
    by_cases hc : c = separator
    · subst hc
      rw [splitOn_cons_self] at h
      rcases List.mem_cons.1 h with rfl | h
      · exact List.not_mem_nil
      · exact ih h
    · obtain ⟨first, rest, hs⟩ := List.exists_cons_of_ne_nil (splitOn_ne_nil separator s)
      rw [splitOn_cons_of_ne hc hs] at h
      rcases List.mem_cons.1 h with rfl | h
      · have hfirst := ih (hs ▸ List.mem_cons_self)
        exact fun hmem => (List.mem_cons.1 hmem).elim (Ne.symm hc) hfirst
      · exact ih (hs ▸ List.mem_cons_of_mem _ h)

/-- What holds of the characters of all parts holds of all characters but the separators. -/
theorem forall_mem_splitOn_iff {P : α → Prop} {s : List α} :
    (∀ part ∈ splitOn separator s, ∀ c ∈ part, P c) ↔ ∀ c ∈ s, c = separator ∨ P c := by
  induction s with
  | nil => simp [splitOn]
  | cons c s ih =>
    by_cases hc : c = separator
    · subst hc
      rw [splitOn_cons_self, List.forall_mem_cons, ih, List.forall_mem_cons]
      exact and_congr (iff_of_true nofun (.inl rfl)) Iff.rfl
    · obtain ⟨first, rest, hs⟩ := List.exists_cons_of_ne_nil (splitOn_ne_nil separator s)
      rw [hs, List.forall_mem_cons] at ih
      rw [splitOn_cons_of_ne hc hs, List.forall_mem_cons, List.forall_mem_cons,
        List.forall_mem_cons, and_assoc, ih]
      exact and_congr_left fun _ => (or_iff_right hc).symm

/-! ## Joining -/

/-- Parts without separators are found again in what is joined from them. -/
theorem splitOn_intercalate {parts : List (List α)} (hne : parts ≠ [])
    (h : ∀ part ∈ parts, separator ∉ part) :
    splitOn separator ([separator].intercalate parts) = parts := by
  induction parts with
  | nil => exact absurd rfl hne
  | cons first rest ih =>
    have hfirst := splitOn_eq_singleton (h first List.mem_cons_self)
    cases rest with
    | nil => rw [List.intercalate_singleton, hfirst]
    | cons next rest =>
      have hrest := ih (List.cons_ne_nil _ _) fun p hp => h p (List.mem_cons_of_mem _ hp)
      rw [List.intercalate_cons_cons, List.append_assoc, List.singleton_append,
        splitOn_append_cons, hfirst, hrest, List.singleton_append]

/-- What is read of a text piece by piece is read of joined texts one by one. -/
theorem map_joinWith {β : Type} {f : String → List β} (hempty : f "" = [])
    (happend : ∀ s t, f (s ++ t) = f s ++ f t) (sep : String) (parts : List String) :
    f (joinWith sep parts) = (f sep).intercalate (parts.map f) := by
  induction parts with
  | nil => exact hempty
  | cons first rest ih =>
    cases rest with
    | nil =>
      rw [joinWith, String.intercalate_singleton, List.map_singleton, List.intercalate_singleton]
    | cons next rest =>
      rw [List.map_cons, List.map_cons, List.intercalate_cons_cons, ← List.map_cons, ← ih, joinWith,
        String.intercalate_cons_cons, happend, happend]
      rfl

theorem splitOn_joinWith {sep : String} {c : Char} (hsep : sep.toList = [c]) {parts : List String}
    (hne : parts ≠ []) (h : ∀ part ∈ parts, c ∉ part.toList) :
    splitOn c (joinWith sep parts).toList = parts.map String.toList := by
  rw [map_joinWith rfl fun _ _ => String.toList_append, hsep]
  refine splitOn_intercalate (mt List.map_eq_nil_iff.1 hne) fun part hpart => ?_
  obtain ⟨s, hs, rfl⟩ := List.mem_map.1 hpart
  exact h s hs

end Marginalia.Text
