import Marginalia.Text.Lower

set_option autoImplicit false

/-!
# Lowering a text twice

No capital is lowered to another capital, so a lowered text is its own lowered
form.  For the characters that are lowered by a table this is a property of the
table: no stretch of it moves a code point into a stretch of it.
-/

namespace Marginalia.Text

/-! ## Stretches of the table -/

namespace CaseShift

/-- Whether a shift applies to none of the code points from one to another, or to none
of every second one. -/
def misses (u : CaseShift) (low high : Nat) (sparse : Bool) : Bool :=
  Nat.blt high u.first || Nat.blt u.last low ||
    (sparse && Nat.beq u.step 2 && Nat.beq ((low + u.first) % 2) 1)

/-- Whether a shift moves no code point to where another one applies. -/
def clears (s u : CaseShift) : Bool :=
  Nat.blt 0 (s.apply s.first) &&
    u.misses (s.apply s.first) (s.apply s.last) (Nat.beq s.first s.last || Nat.beq s.step 2)

theorem not_covers_apply {s u : CaseShift} {n : Nat} (h : s.clears u = true)
    (hn : s.covers n = true) : u.covers (s.apply n) = false := by
  refine Bool.eq_false_iff.2 fun hcovers => ?_
  simp only [covers, Bool.and_eq_true, decide_eq_true_eq, beq_iff_eq] at hn hcovers
  obtain ⟨⟨hlow, hhigh⟩, hstep⟩ := hn
  obtain ⟨⟨hlow', hhigh'⟩, hstep'⟩ := hcovers
  simp only [clears, misses, Bool.and_eq_true, Bool.or_eq_true, Nat.blt_eq, Nat.beq_eq] at h
  obtain ⟨hpos, (hbefore | hafter) | ⟨⟨hsparse, htwo⟩, hodd⟩⟩ := h
  · simp only [apply] at hlow' hbefore
    omega
  · simp only [apply] at hhigh' hafter
    omega
  · rw [htwo] at hstep'
    simp only [apply] at hstep' hlow' hpos hodd
    rcases hsparse with hone | hsecond
    · omega
    · rw [hsecond] at hstep
      omega

end CaseShift

/-- Code points that no character may be lowered to: the capitals that are lowered in
another way, and the dot. -/
def keptApart : List CaseShift := [⟨0x130, 0x130, 1, 0⟩, ⟨0x2e, 0x2e, 1, 0⟩]

theorem lowerShifts_clear :
    (lowerShifts.all fun s => (keptApart ++ lowerShifts).all s.clears) = true := by
  decide +kernel

theorem clears_of_mem {s u : CaseShift} (hs : s ∈ lowerShifts)
    (hu : u ∈ keptApart ++ lowerShifts) : s.clears u = true :=
  List.all_eq_true.1 (List.all_eq_true.1 lowerShifts_clear s hs) u hu

/-! ## Single characters -/

theorem move_of_not_covers {n : Nat} (h : ∀ u ∈ lowerShifts, u.covers n = false) :
    CaseShift.move lowerShifts n = n := by
  have hfind : lowerShifts.find? (·.covers n) = none :=
    List.find?_eq_none.2 fun u hu => by rw [h u hu]; exact Bool.false_ne_true
  rw [CaseShift.move, hfind]

/-- No shift applies to the null character. -/
theorem not_covers_zero : ((keptApart ++ lowerShifts).all fun u => !u.covers 0) = true := by
  decide

/-- Where no shift of the table moves a code point to one of a stretch, a character that is
lowered to another one is not lowered into the stretch. -/
theorem not_covers_lowerChar {u : CaseShift} (hclears : ∀ s ∈ lowerShifts, s.clears u = true)
    (hzero : u.covers 0 = false) {c : Char} (hmoved : lowerChar c ≠ c) :
    u.covers (lowerChar c).toNat = false := by
  cases hfind : lowerShifts.find? (·.covers c.toNat) with
  | none =>
    rw [lowerChar, CaseShift.move, hfind] at hmoved
    exact absurd (Char.ofNat_toNat c) hmoved
  | some s =>
    have hcovers : s.covers c.toNat = true :=
      List.find?_some (p := fun u : CaseShift => u.covers c.toNat) hfind
    have happly := CaseShift.not_covers_apply (hclears s (List.mem_of_find?_eq_some hfind)) hcovers
    rw [lowerChar, CaseShift.move, hfind]
    by_cases hvalid : (s.apply c.toNat).isValidChar
    · rw [Char.ofNat, dif_pos hvalid]
      exact happly
    · rw [Char.ofNat, dif_neg hvalid]
      exact hzero

/-- A lowered character is the character itself, or one to which no shift applies and
that is kept apart from the capitals. -/
theorem lowerChar_spec (c : Char) :
    lowerChar c = c ∨ ∀ u ∈ keptApart ++ lowerShifts, u.covers (lowerChar c).toNat = false := by
  by_cases hsame : lowerChar c = c
  · exact .inl hsame
  · refine .inr fun u hu => not_covers_lowerChar (fun s hs => clears_of_mem hs hu) ?_ hsame
    exact Bool.not_eq_eq_eq_not.1 (List.all_eq_true.1 not_covers_zero u hu)

theorem lowerChar_lowerChar (c : Char) : lowerChar (lowerChar c) = lowerChar c := by
  rcases lowerChar_spec c with h | h
  · rw [h, h]
  · have hmove := move_of_not_covers fun u hu => h u (List.mem_append_right _ hu)
    rw [lowerChar, hmove, Char.ofNat_toNat]

/-- A character that a shift applies to is no lowered one, except of itself. -/
theorem lowerChar_ne {c d : Char} (hd : ((keptApart ++ lowerShifts).any (·.covers d.toNat)) = true)
    (hne : c ≠ d) : lowerChar c ≠ d := by
  rintro rfl
  rcases lowerChar_spec c with h | h
  · exact hne h.symm
  · obtain ⟨u, hu, hcovers⟩ := List.any_eq_true.1 hd
    rw [h u hu] at hcovers
    cases hcovers

/-! ## Texts -/

/-- A character that lowering leaves alone, wherever it stands. -/
structure IsLowered (c : Char) : Prop where
  sigma : c ≠ 'Σ'
  dotted : c ≠ 'İ'
  same : lowerChar c = c

theorem isLowered_lowerChar {c : Char} (hsigma : c ≠ 'Σ') (hdotted : c ≠ 'İ') :
    IsLowered (lowerChar c) :=
  ⟨lowerChar_ne (by decide) hsigma, lowerChar_ne (by decide) hdotted,
    lowerChar_lowerChar c⟩

theorem isLowered_of_mem_lowerBetween {before after : List Char} {c d : Char}
    (h : d ∈ lowerBetween before c after) : IsLowered d := by
  unfold lowerBetween at h
  split at h
  · split at h
    · rw [List.mem_singleton.1 h]
      exact ⟨by decide, by decide, by decide⟩
    · rw [List.mem_singleton.1 h]
      exact ⟨by decide, by decide, by decide⟩
  · split at h
    · rcases List.mem_cons.1 h with rfl | h
      · exact ⟨by decide, by decide, by decide⟩
      · rw [List.mem_singleton.1 h]
        exact ⟨by decide, by decide, by decide⟩
    · rename_i hsigma hdotted
      rw [List.mem_singleton.1 h]
      exact isLowered_lowerChar hsigma hdotted

theorem isLowered_of_mem_lowerAfter {before s : List Char} {d : Char}
    (h : d ∈ lowerAfter before s) : IsLowered d := by
  induction s generalizing before with
  | nil => exact absurd h List.not_mem_nil
  | cons c s ih =>
    rcases List.mem_append.1 h with h | h
    · exact isLowered_of_mem_lowerBetween h
    · exact ih h

theorem lowerAfter_of_isLowered {s : List Char} (h : ∀ c ∈ s, IsLowered c)
    (before : List Char) : lowerAfter before s = s := by
  induction s generalizing before with
  | nil => rfl
  | cons c s ih =>
    obtain ⟨hsigma, hdotted, hsame⟩ := h c List.mem_cons_self
    have hc : lowerBetween before c s = [c] := by
      rw [lowerBetween, if_neg hsigma, if_neg hdotted, hsame]
    rw [lowerAfter, hc, ih fun d hd => h d (List.mem_cons_of_mem _ hd)]
    rfl

/-- A lowered text is its own lowered form. -/
theorem lower_lower (s : List Char) : lower (lower s) = lower s :=
  lowerAfter_of_isLowered (fun _ => isLowered_of_mem_lowerAfter) []

/-! ## Lengths -/

/-- Only the dotted capital is lowered to more than one character. -/
theorem length_lowerBetween (before after : List Char) (c : Char) :
    (lowerBetween before c after).length = if c = 'İ' then 2 else 1 := by
  unfold lowerBetween
  split
  · rename_i hsigma
    have hdotted : ¬c = 'İ' := by
      rw [hsigma]
      decide
    rw [if_neg hdotted]
    split <;> rfl
  · split <;> rfl

theorem lowerBetween_ne_nil (before after : List Char) (c : Char) :
    lowerBetween before c after ≠ [] := by
  intro hnil
  have hlength := length_lowerBetween before after c
  rw [hnil, List.length_nil] at hlength
  split at hlength <;> cases hlength

theorem length_lowerAfter (before s : List Char) :
    (lowerAfter before s).length = s.length + s.count 'İ' := by
  induction s generalizing before with
  | nil => rfl
  | cons c s ih =>
    rw [lowerAfter, List.length_append, length_lowerBetween, ih, List.length_cons, List.count_cons]
    by_cases hc : c = 'İ'
    · simp only [hc, if_true, beq_self_eq_true]
      omega
    · simp only [hc, if_false, beq_iff_eq]
      omega

theorem lower_eq_nil_iff {s : List Char} : lower s = [] ↔ s = [] := by
  rw [← List.length_eq_zero_iff, lower, length_lowerAfter, Nat.add_eq_zero_iff,
    List.length_eq_zero_iff, and_iff_left_iff_imp]
  rintro rfl
  rfl

/-! ## Dots -/

/-- A lowered text starts with a dot only if the text does. -/
theorem head?_lower_ne_dot {s : List Char} (h : s.head? ≠ some '.') :
    (lower s).head? ≠ some '.' := by
  cases s with
  | nil => exact h
  | cons c s =>
    have hc : c ≠ '.' := fun heq => h (by rw [heq]; rfl)
    have hdot := lowerChar_ne (d := '.') (by decide) hc
    simp only [lower, lowerAfter, lowerBetween]
    split
    · split <;> simp
    · split
      · simp
      · simpa using hdot

end Marginalia.Text
