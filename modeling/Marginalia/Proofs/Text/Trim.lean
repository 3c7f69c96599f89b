import Marginalia.Text.Blank
import Mathlib.Data.List.Basic
import Mathlib.Data.List.TakeWhile

set_option autoImplicit false

/-!
# Trimmed texts

Trimming leaves out the blanks at both ends and nothing else, so what is left is the one
stretch of a text that begins and ends without a blank and has only blanks around it.  A
trimmed text is therefore trimmed no further.
-/

namespace Marginalia.Text

variable {s mid before after : List Char}

/-! ## At the end -/

theorem trimEnd_append_blank {c : Char} (h : isBlank c = true) (s : List Char) :
    trimEnd (s ++ [c]) = trimEnd s := by
  rw [trimEnd, List.reverse_append, List.reverse_singleton, List.singleton_append,
    List.dropWhile_cons_of_pos h, trimEnd]

theorem trimEnd_append_of_not_blank {c : Char} (h : isBlank c = false) (s : List Char) :
    trimEnd (s ++ [c]) = s ++ [c] := by
  rw [trimEnd, List.reverse_append, List.reverse_singleton, List.singleton_append,
    List.dropWhile_cons_of_neg (by simp [h]), List.reverse_cons, List.reverse_reverse]

/-- Trimming leaves the blanks at the end away, and nothing else. -/
theorem exists_trimEnd_append (s : List Char) :
    ∃ blanks, s = trimEnd s ++ blanks ∧ (∀ b ∈ blanks, isBlank b = true) ∧
      ∀ b, (trimEnd s).getLast? = some b → isBlank b = false := by
  refine ⟨(s.reverse.takeWhile isBlank).reverse, ?_, ?_, ?_⟩
  · rw [trimEnd, ← List.reverse_append, List.takeWhile_append_dropWhile, List.reverse_reverse]
  · intro b hb
    exact List.all_eq_true.1 List.all_takeWhile b (List.mem_reverse.1 hb)
  · intro b hb
    have hnot := List.head?_dropWhile_not isBlank s.reverse
    rw [trimEnd, List.getLast?_reverse] at hb
    rw [hb] at hnot
    exact hnot

/-! ## At both ends -/

/-- Whether a text has no blank at either end. -/
structure NoBlankEnds (s : List Char) : Prop where
  head : ∀ b, s.head? = some b → isBlank b = false
  last : ∀ b, s.getLast? = some b → isBlank b = false

theorem trimStart_append_of_blank (h : ∀ b ∈ before, isBlank b = true) (s : List Char) :
    trimStart (before ++ s) = trimStart s :=
  List.dropWhile_append_of_pos h

theorem trimEnd_append_of_blank (h : ∀ b ∈ after, isBlank b = true) (s : List Char) :
    trimEnd (s ++ after) = trimEnd s := by
  rw [trimEnd, List.reverse_append,
    List.dropWhile_append_of_pos fun b hb => h b (List.mem_reverse.1 hb), trimEnd]

/-- A text that begins without a blank is left as it is at its start. -/
theorem trimStart_eq_self (h : ∀ b, s.head? = some b → isBlank b = false) : trimStart s = s := by
  cases s with
  | nil => rfl
  | cons c s => exact List.dropWhile_cons_of_neg (by simp [h c rfl])

theorem trimEnd_eq_self (h : ∀ b, s.getLast? = some b → isBlank b = false) : trimEnd s = s := by
  rcases List.eq_nil_or_concat' s with rfl | ⟨front, c, rfl⟩
  · rfl
  · exact trimEnd_append_of_not_blank (h c List.getLast?_concat) front

/-- Nothing is left of a blank text. -/
theorem trim_eq_nil_of_blank (h : ∀ b ∈ s, isBlank b = true) : trim s = [] := by
  have hstart : trimStart s = [] := List.dropWhile_eq_nil_iff.2 h
  rw [trim, hstart]
  rfl

/-- Only blanks are trimmed. -/
theorem exists_trim_append (s : List Char) :
    ∃ before after, s = before ++ trim s ++ after ∧ (∀ b ∈ before, isBlank b = true) ∧
      (∀ b ∈ after, isBlank b = true) ∧ NoBlankEnds (trim s) := by
  obtain ⟨after, hsplit, hafter, hlast⟩ := exists_trimEnd_append (trimStart s)
  refine ⟨s.takeWhile isBlank, after, ?_, fun b hb => List.all_eq_true.1 List.all_takeWhile b hb,
    hafter, ?_, hlast⟩
  · rw [List.append_assoc, trim, ← hsplit, trimStart, List.takeWhile_append_dropWhile]
  · intro b hb
    have hstart : (trimStart s).head? = some b := by
      rw [hsplit, List.head?_append, show (trimEnd (trimStart s)).head? = some b from hb]
      rfl
    have hnot := List.head?_dropWhile_not isBlank s
    rw [show s.dropWhile isBlank = trimStart s from rfl, hstart] at hnot
    exact hnot

/-- A stretch without blanks at its ends that has only blanks around it is what is left of a
text. -/
theorem trim_append (hbefore : ∀ b ∈ before, isBlank b = true)
    (hafter : ∀ b ∈ after, isBlank b = true) (hmid : NoBlankEnds mid) :
    trim (before ++ mid ++ after) = mid := by
  cases mid with
  | nil =>
    rw [List.append_nil]
    exact trim_eq_nil_of_blank (List.forall_mem_append.2 ⟨hbefore, hafter⟩)
  | cons c mid =>
    have hstart : trimStart (c :: mid ++ after) = c :: mid ++ after :=
      trimStart_eq_self fun b hb => hmid.head b hb
    rw [trim, List.append_assoc, trimStart_append_of_blank hbefore, hstart,
      trimEnd_append_of_blank hafter, trimEnd_eq_self hmid.last]

theorem noBlankEnds_trim (s : List Char) : NoBlankEnds (trim s) := by
  obtain ⟨-, -, -, -, -, h⟩ := exists_trim_append s
  exact h

/-- Nothing is trimmed from a text without blanks at its ends. -/
theorem NoBlankEnds.trim_eq (h : NoBlankEnds s) : trim s = s := by
  have hwhole := @trim_append s [] [] nofun nofun h
  rwa [List.nil_append, List.append_nil] at hwhole

theorem trim_trim (s : List Char) : trim (trim s) = trim s := (noBlankEnds_trim s).trim_eq

/-- Nothing is left of a text if and only if it is blank. -/
theorem trim_eq_nil_iff : trim s = [] ↔ ∀ b ∈ s, isBlank b = true := by
  refine ⟨fun h => ?_, trim_eq_nil_of_blank⟩
  obtain ⟨before, after, hsplit, hbefore, hafter, -⟩ := exists_trim_append s
  rw [h, List.append_nil] at hsplit
  rw [hsplit]
  exact List.forall_mem_append.2 ⟨hbefore, hafter⟩

/-! ## What is left -/

/-- What is left of a text is no empty text. -/
theorem trimmed?_eq_some_iff {s t : String} :
    trimmed? s = some t ↔ t ≠ "" ∧ trim s.toList = t.toList := by
  unfold trimmed?
  constructor
  · intro h
    split at h
    · cases h
    · rename_i c rest hrest
      rw [← Option.some.inj h, String.toList_ofList]
      refine ⟨fun hempty => ?_, hrest⟩
      cases (String.toList_ofList (l := c :: rest)).symm.trans (congrArg String.toList hempty)
  · rintro ⟨hne, hlist⟩
    rw [hlist]
    split
    · rename_i hnil
      exact absurd (String.toList_inj.1 hnil) hne
    · rename_i hcons
      rw [← hcons, String.ofList_toList]

theorem trimmed?_eq_none_iff {s : String} :
    trimmed? s = none ↔ ∀ b ∈ s.toList, isBlank b = true := by
  rw [← trim_eq_nil_iff, trimmed?]
  split <;> simp_all

/-- What is left of a text is left of itself. -/
theorem trimmed?_of_trimmed? {s t : String} (h : trimmed? s = some t) : trimmed? t = some t := by
  obtain ⟨hne, hlist⟩ := trimmed?_eq_some_iff.1 h
  exact trimmed?_eq_some_iff.2 ⟨hne, by rw [← hlist, trim_trim]⟩

end Marginalia.Text
