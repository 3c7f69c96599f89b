import Marginalia.Proofs.Text.Context
import Marginalia.Proofs.Text.Trim
import Marginalia.Text.Find
import Mathlib.Data.List.Induction

set_option autoImplicit false

/-!
# Line ends

A text may end its lines with a line feed alone or with a carriage return in front of it.
Both characters are blank and neither is cased, so the second form of a text is trimmed
where the first one is, and carries the same tags as long as no tag goes over a line end.
-/

namespace Marginalia.Text

/-- A text with a carriage return in front of each of its line feeds. -/
def withReturns (s : List Char) : List Char :=
  s.flatMap fun c => if c = '\n' then ['\r', '\n'] else [c]

/-- A text with the other line ends. -/
def crlf (s : String) : String := String.ofList (withReturns s.toList)

theorem withReturns_nil : withReturns [] = [] := rfl

theorem withReturns_newline (s : List Char) :
    withReturns ('\n' :: s) = '\r' :: '\n' :: withReturns s := rfl

theorem withReturns_cons {c : Char} (h : c ≠ '\n') (s : List Char) :
    withReturns (c :: s) = c :: withReturns s := by
  rw [withReturns, List.flatMap_cons, if_neg h]
  rfl

theorem withReturns_append (s t : List Char) :
    withReturns (s ++ t) = withReturns s ++ withReturns t :=
  List.flatMap_append

theorem withReturns_of_notMem {s : List Char} (h : '\n' ∉ s) : withReturns s = s := by
  induction s with
  | nil => rfl
  | cons c s ih =>
    rw [List.mem_cons, not_or] at h
    rw [withReturns_cons (Ne.symm h.1), ih h.2]

theorem length_withReturns (s : List Char) :
    (withReturns s).length = s.length + s.count '\n' := by
  induction s with
  | nil => rfl
  | cons c s ih =>
    by_cases hc : c = '\n'
    · subst hc
      rw [withReturns_newline, List.count_cons_self, List.length_cons, List.length_cons,
        List.length_cons, ih]
      omega
    · rw [withReturns_cons hc, List.count_cons_of_ne hc, List.length_cons, List.length_cons, ih]
      omega

theorem newline_mem_withReturns_iff {s : List Char} : '\n' ∈ withReturns s ↔ '\n' ∈ s := by
  rw [withReturns, List.mem_flatMap]
  constructor
  · rintro ⟨c, hc, hmem⟩
    by_cases hline : c = '\n'
    · exact hline ▸ hc
    · rw [if_neg hline, List.mem_singleton] at hmem
      exact hmem ▸ hc
  · intro h
    exact ⟨'\n', h, by decide⟩

/-! ## Trimming -/

/-- The other line ends are trimmed where line feeds are. -/
theorem trimEnd_withReturns (s : List Char) :
    trimEnd (withReturns s) = withReturns (trimEnd s) := by
  induction s using List.reverseRecOn with
  | nil => rfl
  | append_singleton s c ih =>
    rw [withReturns_append]
    by_cases hline : c = '\n'
    · subst hline
      have hends : withReturns s ++ withReturns ['\n'] = withReturns s ++ ['\r'] ++ ['\n'] := by
        rw [List.append_assoc]
        rfl
      rw [hends, trimEnd_append_blank (by decide), trimEnd_append_blank (by decide), ih,
        trimEnd_append_blank (by decide)]
    · rw [withReturns_cons hline, withReturns_nil]
      cases hc : isBlank c with
      | true => rw [trimEnd_append_blank hc, trimEnd_append_blank hc, ih]
      | false =>
        rw [trimEnd_append_of_not_blank hc, trimEnd_append_of_not_blank hc, withReturns_append,
          withReturns_cons hline, withReturns_nil]

/-! ## Lowering and finding -/

theorem lower_append_newline (s t : List Char) :
    lower (s ++ '\n' :: t) = lower s ++ '\n' :: lower t := by
  have hform : lowerBetween [] '\n' [] = ['\n'] := by decide
  rw [lower_append_wall (by decide +kernel), hform, List.append_assoc]
  rfl

theorem lower_append_return (s t : List Char) :
    lower (s ++ '\r' :: t) = lower s ++ '\r' :: lower t := by
  have hform : lowerBetween [] '\r' [] = ['\r'] := by decide
  rw [lower_append_wall (by decide +kernel), hform, List.append_assoc]
  rfl

/-- What is found in no text is found in all of them. -/
theorem contains_of_contains_nil {part : List Char} (h : contains [] part = true) (s : List Char) :
    contains s part = true := by
  obtain ⟨before, after, hnil⟩ := (contains_iff _ _).1 h
  have hpart : part = [] :=
    (List.append_eq_nil_iff.1 (List.append_eq_nil_iff.1 hnil.symm).1).2
  exact (contains_iff _ _).2 ⟨[], s, by rw [hpart]; rfl⟩

/-- What is on one line is found in a text whatever its line ends are.  The induction goes
over the text from its start; before it stands what the line holds that has begun. -/
theorem contains_lower_withReturns {part : List Char} (hline : '\n' ∉ part) (hreturn : '\r' ∉ part)
    (begun s : List Char) :
    contains (lower (begun ++ withReturns s)) part = contains (lower (begun ++ s)) part := by
  induction s generalizing begun with
  | nil => rfl
  | cons c s ih =>
    by_cases hc : c = '\n'
    · subst hc
      have hnext : lower ('\n' :: withReturns s) = '\n' :: lower (withReturns s) :=
        lower_append_newline [] (withReturns s)
      have hsplit : contains ('\n' :: lower (withReturns s)) part =
          (contains [] part || contains (lower (withReturns s)) part) :=
        contains_append_cons hline [] _
      have hlater : contains (lower (withReturns s)) part = contains (lower s) part := ih []
      rw [withReturns_newline, lower_append_return, hnext, lower_append_newline,
        contains_append_cons hreturn, contains_append_cons hline, hsplit, hlater]
      cases hnil : contains [] part with
      | false => rfl
      | true => rw [contains_of_contains_nil hnil (lower s), Bool.or_true]
    · rw [withReturns_cons hc, List.append_cons, ih, ← List.append_cons]

end Marginalia.Text
