set_option autoImplicit false

/-!
# Looking for one text inside another
-/

namespace Marginalia.Text

/-- Whether a text begins with another. -/
def startsWith : List Char → List Char → Bool
  | _, [] => true
  | [], _ :: _ => false
  | c :: s, d :: part => c == d && startsWith s part

/-- Whether a text holds another as a run of neighbouring characters. -/
def contains : List Char → List Char → Bool
  | [], part => startsWith [] part
  | c :: s, part => startsWith (c :: s) part || contains s part

theorem startsWith_iff (s part : List Char) :
    startsWith s part = true ↔ ∃ after, s = part ++ after := by
  induction part generalizing s with
  | nil => simp [startsWith]
  | cons d part ih =>
    cases s with
    | nil => simp [startsWith]
    | cons c s =>
      simp only [startsWith, Bool.and_eq_true, beq_iff_eq, ih, List.cons_append, List.cons.injEq]
      constructor
      · rintro ⟨hc, after, hs⟩
        exact ⟨after, hc, hs⟩
      · rintro ⟨after, hc, hs⟩
        exact ⟨hc, after, hs⟩

theorem contains_iff (s part : List Char) :
    contains s part = true ↔ ∃ before after, s = before ++ part ++ after := by
  induction s with
  | nil =>
    simp only [contains, startsWith_iff]
    constructor
    · rintro ⟨after, h⟩
      exact ⟨[], after, h⟩
    · rintro ⟨before, after, h⟩
      simp at h
      exact ⟨[], by simp [h]⟩
  | cons c s ih =>
    simp only [contains, Bool.or_eq_true, startsWith_iff, ih]
    constructor
    · rintro (⟨after, h⟩ | ⟨before, after, h⟩)
      · exact ⟨[], after, h⟩
      · exact ⟨c :: before, after, by simp [h]⟩
    · rintro ⟨before, after, h⟩
      cases before with
      | nil => exact .inl ⟨after, h⟩
      | cons b before =>
        simp only [List.cons_append, List.cons.injEq] at h
        exact .inr ⟨before, after, h.2⟩

/-- A text does not hold one in which a character occurs more often. -/
theorem not_contains_of_count_lt {s part : List Char} {c : Char}
    (h : s.count c < part.count c) : contains s part = false := by
  refine Bool.eq_false_iff.2 fun hcontains => ?_
  obtain ⟨before, after, rfl⟩ := (contains_iff s part).1 hcontains
  rw [List.count_append, List.count_append] at h
  omega

theorem startsWith_append_cons {c : Char} {part : List Char} (hc : c ∉ part) (s t : List Char) :
    startsWith (s ++ c :: t) part = startsWith s part := by
  induction part generalizing s with
  | nil => simp [startsWith]
  | cons d part ih =>
    obtain ⟨hne, hrest⟩ := not_or.1 (mt List.mem_cons.2 hc)
    cases s with
    | nil => simp [startsWith, hne]
    | cons e s => simp only [List.cons_append, startsWith, ih hrest]

/-- A text without a certain character is not found across this character. -/
theorem contains_append_cons {c : Char} {part : List Char} (hc : c ∉ part) (s t : List Char) :
    contains (s ++ c :: t) part = (contains s part || contains t part) := by
  induction s with
  | nil =>
    rw [List.nil_append, contains, contains]
    exact congrArg (· || _) (startsWith_append_cons hc [] t)
  | cons d s ih =>
    rw [List.cons_append, contains, contains, ih, Bool.or_assoc]
    exact congrArg (· || _) (startsWith_append_cons hc (d :: s) t)

end Marginalia.Text
