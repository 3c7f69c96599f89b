import Marginalia.Proofs.Text.Context
import Marginalia.Proofs.Text.Trim

set_option autoImplicit false

/-!
# Lowering a trimmed text

No character is lowered to a blank one unless it is blank itself, so a text without blanks at
its ends has none there after it is lowered.  For the characters that are lowered by a table
this is a property of the table: no stretch of it moves a code point into a stretch of
blanks.
-/

namespace Marginalia.Text

/-! ## Single characters -/

/-- A stretch of blank characters as one that a shift might apply to. -/
def blankShift (stretch : Nat × Nat) : CaseShift := ⟨stretch.1, stretch.2, 1, 0⟩

theorem covers_blankShift {stretch : Nat × Nat} {n : Nat} (hfirst : stretch.1 ≤ n)
    (hlast : n ≤ stretch.2) : (blankShift stretch).covers n = true := by
  simp [CaseShift.covers, blankShift, hfirst, hlast, Nat.mod_one]

theorem lowerShifts_clear_blanks :
    (lowerShifts.all fun s => blankStretches.all fun b => s.clears (blankShift b)) = true := by
  decide +kernel

theorem not_blank_zero : (blankStretches.all fun b => !(blankShift b).covers 0) = true := by
  decide

theorem not_blank_letters : (['ς', 'σ', 'i', '\u0307'].all fun c => !isBlank c) = true := by
  decide

theorem isBlank_lowerChar {c : Char} (h : isBlank c = false) : isBlank (lowerChar c) = false := by
  by_cases hsame : lowerChar c = c
  · rw [hsame]
    exact h
  · refine Bool.eq_false_iff.2 fun hblank => ?_
    obtain ⟨b, hb, hfirst, hlast⟩ := (inStretches_iff _ _).1 hblank
    have hclears : ∀ s ∈ lowerShifts, s.clears (blankShift b) = true := fun s hs =>
      List.all_eq_true.1 (List.all_eq_true.1 lowerShifts_clear_blanks s hs) b hb
    have hzero : (blankShift b).covers 0 = false :=
      Bool.not_eq_eq_eq_not.1 (List.all_eq_true.1 not_blank_zero b hb)
    have hmisses := not_covers_lowerChar hclears hzero hsame
    rw [covers_blankShift hfirst hlast] at hmisses
    cases hmisses

theorem isBlank_of_mem_lowerBetween {before after : List Char} {c d : Char}
    (hc : isBlank c = false) (hd : d ∈ lowerBetween before c after) : isBlank d = false := by
  have hletters : ∀ x ∈ ['ς', 'σ', 'i', '\u0307'], isBlank x = false := fun x hx =>
    Bool.not_eq_eq_eq_not.1 (List.all_eq_true.1 not_blank_letters x hx)
  unfold lowerBetween at hd
  split at hd
  · split at hd
    · exact hletters d (by simp [List.mem_singleton.1 hd])
    · exact hletters d (by simp [List.mem_singleton.1 hd])
  · split at hd
    · exact hletters d (List.mem_cons_of_mem _ (List.mem_cons_of_mem _ hd))
    · rw [List.mem_singleton.1 hd]
      exact isBlank_lowerChar hc

/-! ## Texts -/

theorem noBlankEnds_lower {s : List Char} (h : NoBlankEnds s) : NoBlankEnds (lower s) := by
  constructor
  · intro b hb
    cases s with
    | nil => cases hb
    | cons c s =>
      have hfirst : (lowerBetween [] c s).head? = some b := by
        rw [← hb, lower, lowerAfter, List.head?_append_of_ne_nil _ (lowerBetween_ne_nil _ _ _)]
      exact isBlank_of_mem_lowerBetween (h.head c rfl) (List.mem_of_head? hfirst)
  · intro b hb
    rcases List.eq_nil_or_concat' s with rfl | ⟨front, c, rfl⟩
    · cases hb
    · have hlast : (lowerBetween front.reverse c []).getLast? = some b := by
        rw [← hb, lower, lowerAfter_append, lowerAfter, lowerAfter, List.append_nil,
          List.append_nil, List.getLast?_append_of_ne_nil _ (lowerBetween_ne_nil _ _ _)]
      exact isBlank_of_mem_lowerBetween (h.last c List.getLast?_concat) (List.mem_of_getLast? hlast)

/-- A trimmed text is trimmed no further after it is lowered. -/
theorem trim_lower_trim (s : List Char) : trim (lower (trim s)) = lower (trim s) :=
  (noBlankEnds_lower (noBlankEnds_trim s)).trim_eq

end Marginalia.Text
