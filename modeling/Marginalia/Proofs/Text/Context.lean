import Marginalia.Proofs.Text.Lower
import Marginalia.Text.Find
import Mathlib.Data.List.Basic

set_option autoImplicit false

/-!
# Lowering a part of a text

Only the capital sigma is lowered by what stands around it: it has its final form when the
nearest character before it is cased and the nearest one after it is not, of those that
case does not ignore.  So a part of a text is lowered as it is alone, unless a capital sigma
in it looks beyond the part and finds there what changes its form.  The parts that are
lowered alike wherever they stand are those that tell the forms of all their sigmas.
-/

namespace Marginalia.Text

/-! ## The nearest character that counts -/

/-- Whether the nearest character that case does not ignore is a cased one; a text in which
case ignores all characters does not tell. -/
def nearest? (s : List Char) : Option Bool := (s.find? fun c => !isCaseIgnorable c).map isCased

theorem nearest?_append (s t : List Char) : nearest? (s ++ t) = (nearest? s).or (nearest? t) := by
  rw [nearest?, List.find?_append, Option.map_or]
  rfl

theorem meetsCased_eq (s : List Char) : meetsCased s = (nearest? s).getD false := by
  induction s with
  | nil => rfl
  | cons c s ih =>
    cases hc : isCaseIgnorable c with
    | true =>
      have hmeets : meetsCased (c :: s) = meetsCased s := by
        simp only [meetsCased, List.dropWhile_cons, hc, if_true]
      rw [hmeets, ih, nearest?, nearest?, List.find?_cons_of_neg (by simp [hc])]
    | false =>
      rw [nearest?, List.find?_cons_of_pos (by simp [hc])]
      simp [meetsCased, hc]

/-- What a text tells of the nearest character, more text behind it does not change. -/
theorem meetsCased_append (s t : List Char) :
    meetsCased (s ++ t) = ((nearest? s).or (nearest? t)).getD false := by
  rw [meetsCased_eq, nearest?_append]

theorem meetsCased_append_left {s : List Char} (h : meetsCased s = true) (t : List Char) :
    meetsCased (s ++ t) = true := by
  rw [meetsCased_eq] at h
  rw [meetsCased_append]
  cases hs : nearest? s with
  | none => simp [hs] at h
  | some cased => simpa [hs] using h

/-! ## The form of a sigma -/

/-- Whether a capital sigma closes a word, between the text before it, which is held
backwards, and the text after it. -/
def closesWord (before after : List Char) : Bool := meetsCased before && !meetsCased after

theorem lowerBetween_sigma (before after : List Char) :
    lowerBetween before 'Σ' after = if closesWord before after then ['ς'] else ['σ'] := rfl

theorem lowerBetween_of_ne {c : Char} (h : c ≠ 'Σ') (before after before' after' : List Char) :
    lowerBetween before c after = lowerBetween before' c after' := by
  simp only [lowerBetween, if_neg h]

/-- Whether what two texts tell of the nearest characters settles if a capital sigma between
them closes a word, whatever stands around them. -/
def settlesForm : Option Bool → Option Bool → Bool
  | _, some true => true
  | some _, some false => true
  | some false, none => true
  | _, _ => false

theorem closesWord_append_of_settlesForm {s t : List Char}
    (h : settlesForm (nearest? s) (nearest? t) = true) (before after : List Char) :
    closesWord (s ++ before) (t ++ after) = closesWord s t := by
  rw [closesWord, closesWord, meetsCased_append, meetsCased_append, meetsCased_eq s,
    meetsCased_eq t]
  cases hs : nearest? s with
  | none =>
    rw [hs] at h
    match ht : nearest? t with
    | none => rw [ht] at h; cases h
    | some false => rw [ht] at h; cases h
    | some true => simp
  | some cased =>
    cases ht : nearest? t with
    | some _ => rfl
    | none =>
      rw [hs, ht] at h
      cases cased with
      | false => rfl
      | true => cases h

/-- The form of a sigma is open in two cases: a cased character is before it and none that
counts after it, or none that counts is before it and no cased one after it. -/
theorem settlesForm_eq_false_iff (left right : Option Bool) :
    settlesForm left right = false ↔
      (left = some true ∧ right = none) ∨ (left = none ∧ right ≠ some true) := by
  match left, right with
  | none, none | none, some false | none, some true => decide
  | some false, none | some false, some false | some false, some true => decide
  | some true, none | some true, some false | some true, some true => decide

/-- The lowered form that a text has between two others, the first of which is held
backwards. -/
def lowerWithin (before : List Char) : List Char → List Char → List Char
  | [], _ => []
  | c :: s, after => lowerBetween before c (s ++ after) ++ lowerWithin (c :: before) s after

theorem lowerAfter_append (before s after : List Char) :
    lowerAfter before (s ++ after) =
      lowerWithin before s after ++ lowerAfter (s.reverse ++ before) after := by
  induction s generalizing before with
  | nil => rfl
  | cons c s ih =>
    simp only [List.cons_append, lowerAfter, lowerWithin, ih, List.reverse_cons,
      List.append_assoc, List.nil_append]

theorem lowerWithin_nil (before s : List Char) : lowerWithin before s [] = lowerAfter before s := by
  have h := lowerAfter_append before s []
  rw [List.append_nil, lowerAfter, List.append_nil] at h
  exact h.symm

/-- A part of a text is lowered by what stands around it. -/
theorem lower_append_append (before s after : List Char) :
    lower (before ++ s ++ after) =
      lowerWithin [] before (s ++ after) ++ lowerWithin before.reverse s after ++
        lowerAfter (s.reverse ++ before.reverse) after := by
  rw [lower, List.append_assoc, lowerAfter_append, lowerAfter_append, List.append_nil,
    List.append_assoc]

/-- A text is lowered alike in surroundings in which its sigmas have the same forms. -/
theorem lowerWithin_congr {s before after before' after' : List Char}
    (h : ∀ x y, s = x ++ 'Σ' :: y →
      closesWord (x.reverse ++ before) (y ++ after) =
        closesWord (x.reverse ++ before') (y ++ after')) :
    lowerWithin before s after = lowerWithin before' s after' := by
  induction s generalizing before before' with
  | nil => rfl
  | cons c s ih =>
    have hfirst : lowerBetween before c (s ++ after) = lowerBetween before' c (s ++ after') := by
      by_cases hc : c = 'Σ'
      · subst hc
        have hforms := h [] s rfl
        rw [List.reverse_nil, List.nil_append, List.nil_append] at hforms
        rw [lowerBetween_sigma, lowerBetween_sigma, hforms]
      · exact lowerBetween_of_ne hc _ _ _ _
    have hrest : lowerWithin (c :: before) s after = lowerWithin (c :: before') s after' := by
      refine ih fun x y hs => ?_
      have hforms := h (c :: x) y (by rw [hs]; rfl)
      rwa [List.reverse_cons, List.append_assoc, List.append_assoc] at hforms
    rw [lowerWithin, lowerWithin, hfirst, hrest]

/-! ## Texts that tell the forms of their sigmas -/

/-- Whether a text tells the form of every capital sigma in it, with the text before it,
which is held backwards, but without what comes after it. -/
def tellsFormsAfter : List Char → List Char → Bool
  | _, [] => true
  | before, c :: after =>
    (c != 'Σ' || settlesForm (nearest? before) (nearest? after)) &&
      tellsFormsAfter (c :: before) after

/-- Whether a text tells the form of every capital sigma in it, wherever it stands. -/
def tellsForms (s : List Char) : Bool := tellsFormsAfter [] s

theorem tellsFormsAfter_iff {before s : List Char} :
    tellsFormsAfter before s = true ↔
      ∀ x y, s = x ++ 'Σ' :: y →
        settlesForm (nearest? (x.reverse ++ before)) (nearest? y) = true := by
  induction s generalizing before with
  | nil => exact iff_of_true rfl fun x y h => nomatch List.append_eq_nil_iff.1 h.symm
  | cons c s ih =>
    rw [tellsFormsAfter, Bool.and_eq_true, ih, Bool.or_eq_true, bne_iff_ne]
    constructor
    · rintro ⟨hfirst, hrest⟩ x y hs
      cases x with
      | nil =>
        obtain ⟨rfl, rfl⟩ := List.cons.inj hs
        exact hfirst.resolve_left fun hne => hne rfl
      | cons d x =>
        obtain ⟨rfl, rfl⟩ := List.cons.inj hs
        have hx := hrest x y rfl
        rwa [List.reverse_cons, List.append_assoc]
    · intro h
      refine ⟨?_, fun x y hs => ?_⟩
      · by_cases hc : c = 'Σ'
        · subst hc
          exact .inr (h [] s rfl)
        · exact .inl hc
      · have hx := h (c :: x) y (by rw [hs]; rfl)
        rwa [List.reverse_cons, List.append_assoc] at hx

theorem tellsForms_iff {s : List Char} :
    tellsForms s = true ↔
      ∀ x y, s = x ++ 'Σ' :: y → settlesForm (nearest? x.reverse) (nearest? y) = true := by
  rw [tellsForms, tellsFormsAfter_iff]
  simp only [List.append_nil]

/-- A text that tells the forms of its sigmas is lowered alike wherever it stands. -/
theorem lowerWithin_of_tellsForms {s : List Char} (h : tellsForms s = true)
    (before after : List Char) : lowerWithin before s after = lower s := by
  rw [lower, ← lowerWithin_nil]
  refine lowerWithin_congr fun x y hs => ?_
  have hsettled := tellsForms_iff.1 h x y hs
  rw [closesWord_append_of_settlesForm hsettled, List.append_nil, List.append_nil]

/-! ## Texts that do not -/

section Counting

variable {s before after before' after' : List Char}

/-- In surroundings that close more words, a character has the final form as often at least
and the other form as often at most. -/
theorem counts_lowerBetween_le {c : Char}
    (h : c = 'Σ' → closesWord before after = true → closesWord before' after' = true) :
    (lowerBetween before c after).count 'ς' ≤ (lowerBetween before' c after').count 'ς' ∧
      (lowerBetween before' c after').count 'σ' ≤ (lowerBetween before c after).count 'σ' := by
  by_cases hc : c = 'Σ'
  · subst hc
    rw [lowerBetween_sigma, lowerBetween_sigma]
    cases hcloses : closesWord before after with
    | true =>
      rw [h rfl hcloses]
      decide
    | false => cases closesWord before' after' <;> decide
  · rw [lowerBetween_of_ne hc before after before' after']
    exact ⟨Nat.le_refl _, Nat.le_refl _⟩

/-- Whether the sigmas of a text that close a word in some surroundings do so in others. -/
def ClosesMore (s before after before' after' : List Char) : Prop :=
  ∀ x y, s = x ++ 'Σ' :: y → closesWord (x.reverse ++ before) (y ++ after) = true →
    closesWord (x.reverse ++ before') (y ++ after') = true

theorem ClosesMore.head {c : Char} (h : ClosesMore (c :: s) before after before' after')
    (hc : c = 'Σ') (hcloses : closesWord before (s ++ after) = true) :
    closesWord before' (s ++ after') = true := by
  subst hc
  exact h [] s rfl hcloses

theorem ClosesMore.tail {c : Char} (h : ClosesMore (c :: s) before after before' after') :
    ClosesMore s (c :: before) after (c :: before') after' := by
  intro x y hs hcloses
  have hx := h (c :: x) y (by rw [hs]; rfl)
  rw [List.reverse_cons, List.append_assoc, List.append_assoc] at hx
  exact hx hcloses

theorem ClosesMore.counts_le (h : ClosesMore s before after before' after') :
    (lowerWithin before s after).count 'ς' ≤ (lowerWithin before' s after').count 'ς' ∧
      (lowerWithin before' s after').count 'σ' ≤ (lowerWithin before s after).count 'σ' := by
  induction s generalizing before before' with
  | nil => exact ⟨Nat.le_refl _, Nat.le_refl _⟩
  | cons c s ih =>
    obtain ⟨hfinal, hmedial⟩ := counts_lowerBetween_le h.head
    obtain ⟨hfinals, hmedials⟩ := ih h.tail
    simp only [lowerWithin, List.count_append]
    omega

/-- If moreover one sigma closes a word in the other surroundings only, the forms are not
as many. -/
theorem ClosesMore.counts_lt (h : ClosesMore s before after before' after') {x y : List Char}
    (hs : s = x ++ 'Σ' :: y) (hopen : closesWord (x.reverse ++ before) (y ++ after) = false)
    (hcloses : closesWord (x.reverse ++ before') (y ++ after') = true) :
    (lowerWithin before s after).count 'ς' < (lowerWithin before' s after').count 'ς' ∧
      (lowerWithin before' s after').count 'σ' < (lowerWithin before s after).count 'σ' := by
  induction s generalizing before before' x with
  | nil => exact nomatch List.append_eq_nil_iff.1 hs.symm
  | cons c s ih =>
    simp only [lowerWithin, List.count_append]
    cases x with
    | nil =>
      obtain ⟨rfl, rfl⟩ := List.cons.inj hs
      obtain ⟨hfinals, hmedials⟩ := h.tail.counts_le
      rw [List.reverse_nil, List.nil_append] at hopen hcloses
      have hforms : (['ς'].count 'ς' = 1 ∧ ['ς'].count 'σ' = 0) ∧
          ['σ'].count 'ς' = 0 ∧ ['σ'].count 'σ' = 1 := by decide
      simp only [lowerBetween_sigma, hopen, hcloses, Bool.false_eq_true, if_false, if_true]
      omega
    | cons d x =>
      obtain ⟨rfl, rfl⟩ := List.cons.inj hs
      rw [List.reverse_cons, List.append_assoc] at hopen hcloses
      obtain ⟨hfinal, hmedial⟩ := counts_lowerBetween_le h.head
      obtain ⟨hfinals, hmedials⟩ := ih h.tail rfl hopen hcloses
      omega

end Counting

theorem nearest?_letter : nearest? ['a'] = some true := by decide +kernel

theorem lowerBetween_letter (before after : List Char) : lowerBetween before 'a' after = ['a'] := by
  rw [lowerBetween_of_ne (by decide) before after [] []]
  decide

/-- A letter after a text keeps its sigmas from closing a word; so the lowered text has fewer
final forms if one of them closed a word before. -/
theorem not_contains_lower_before_letter {s x y : List Char} (hs : s = x ++ 'Σ' :: y)
    (hleft : nearest? x.reverse = some true) (hright : nearest? y = none) :
    contains (lower ([] ++ s ++ ['a'])) (lower s) = false := by
  have hmore : ClosesMore s [] ['a'] [] [] := by
    intro x y _ hcloses
    rw [closesWord, Bool.and_eq_true, Bool.not_eq_true'] at hcloses
    rw [closesWord, Bool.and_eq_true, Bool.not_eq_true', List.append_nil y]
    refine ⟨hcloses.1, Bool.eq_false_iff.2 fun hmeets => ?_⟩
    rw [meetsCased_append_left hmeets] at hcloses
    cases hcloses.2
  have hlt := (hmore.counts_lt hs
    (by simp [closesWord, meetsCased_append, nearest?_letter, hright])
    (by simp [closesWord, meetsCased_eq, hleft, hright])).1
  refine not_contains_of_count_lt (c := 'ς') ?_
  rw [lower_append_append, lower, ← lowerWithin_nil [] s]
  simpa [lowerWithin, lowerAfter, lowerBetween_letter] using hlt

/-- A letter before a text makes its sigmas close a word that no cased character goes on;
so the lowered text has fewer of the other forms if one of them did not close a word before. -/
theorem not_contains_lower_after_letter {s x y : List Char} (hs : s = x ++ 'Σ' :: y)
    (hleft : nearest? x.reverse = none) (hright : nearest? y ≠ some true) :
    contains (lower (['a'] ++ s ++ [])) (lower s) = false := by
  have hmore : ClosesMore s [] [] ['a'] [] := by
    intro x y _ hcloses
    rw [closesWord, Bool.and_eq_true, List.append_nil x.reverse] at hcloses
    rw [closesWord, Bool.and_eq_true]
    exact ⟨meetsCased_append_left hcloses.1 _, hcloses.2⟩
  have hmeets : meetsCased y = false := by
    rw [meetsCased_eq]
    match hy : nearest? y with
    | none => rfl
    | some false => rfl
    | some true => exact absurd hy hright
  have hlt := (hmore.counts_lt hs
    (by simp [closesWord, meetsCased_eq x.reverse, hleft])
    (by simp [closesWord, meetsCased_append, nearest?_letter, hleft, hmeets])).2
  refine not_contains_of_count_lt (c := 'σ') ?_
  rw [lower_append_append, lower, ← lowerWithin_nil [] s]
  simpa [lowerWithin, lowerAfter, lowerBetween_letter] using hlt

/-- A text that does not tell the forms of its sigmas stands in a text in whose lowered form
its own is not found. -/
theorem exists_not_contains_lower {s : List Char} (h : tellsForms s = false) :
    ∃ before after, contains (lower (before ++ s ++ after)) (lower s) = false := by
  have hopen : ∃ x y, s = x ++ 'Σ' :: y ∧
      settlesForm (nearest? x.reverse) (nearest? y) = false := by
    by_contra hnone
    refine absurd (tellsForms_iff.2 fun x y hs => ?_) (Bool.eq_false_iff.1 h)
    exact Bool.of_not_eq_false fun hopen => hnone ⟨x, y, hs, hopen⟩
  obtain ⟨x, y, hs, hsettles⟩ := hopen
  rcases (settlesForm_eq_false_iff _ _).1 hsettles with ⟨hleft, hright⟩ | ⟨hleft, hright⟩
  · exact ⟨[], ['a'], not_contains_lower_before_letter hs hleft hright⟩
  · exact ⟨['a'], [], not_contains_lower_after_letter hs hleft hright⟩

/-! ## Characters that separate -/

/-- Whether a character is neither cased nor ignored, so that no sigma sees what is beyond
it. -/
def isWall (c : Char) : Bool := !isCased c && !isCaseIgnorable c

theorem nearest?_wall {c : Char} (hc : isWall c = true) (s : List Char) :
    nearest? (c :: s) = some false := by
  rw [isWall, Bool.and_eq_true, Bool.not_eq_true'] at hc
  simp only [nearest?, List.find?_cons, hc.2, Option.map_some, hc.1]

/-- What is met before a wall does not depend on what is behind the wall. -/
theorem meetsCased_append_wall {c : Char} (hc : isWall c = true) (s t : List Char) :
    meetsCased (s ++ c :: t) = meetsCased s := by
  rw [meetsCased_append, meetsCased_eq, nearest?_wall hc]
  cases nearest? s <;> rfl

/-- Two texts with a wall between them are lowered on their own. -/
theorem lower_append_wall {c : Char} (hc : isWall c = true) (s t : List Char) :
    lower (s ++ c :: t) = lower s ++ lowerBetween [] c [] ++ lower t := by
  have hleft : lowerWithin [] s (c :: t) = lower s := by
    rw [lower, ← lowerWithin_nil]
    refine lowerWithin_congr fun x y _ => ?_
    rw [closesWord, closesWord, meetsCased_append_wall hc, List.append_nil y]
  have hright : lowerAfter (c :: s.reverse) t = lower t := by
    rw [lower, ← lowerWithin_nil, ← lowerWithin_nil]
    refine lowerWithin_congr fun x y _ => ?_
    rw [closesWord, closesWord, meetsCased_append_wall hc, List.append_nil x.reverse]
  have hsigma : c ≠ 'Σ' := by
    rintro rfl
    revert hc
    decide
  rw [lower, lowerAfter_append, hleft, List.append_nil, lowerAfter, hright,
    lowerBetween_of_ne hsigma _ t [] [], List.append_assoc]

end Marginalia.Text
