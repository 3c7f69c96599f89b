import Marginalia.Proofs.Language.Merging
import Marginalia.Proofs.TagSet
import Marginalia.Proofs.Text.LineEnds

set_option autoImplicit false

/-!
# The kind of a comment is that of its text

Lines are classified before they are merged, and only a line without a tag joins the
comment before it.  A line feed is neither cased nor ignored, so the lines of a comment are
lowered on their own, and a tag without a line feed is not found across them.  So a comment
is of the kind that its whole text has.
-/

namespace Marginalia

open Marginalia.Text

namespace TagSet

/-- Whether no tag of a set goes over a line end. -/
def OneLine (set : TagSet) : Prop := ∀ form ∈ set.tags, '\n' ∉ form.toList

/-- A text carries a tag when it does so before a line end or after it. -/
theorem classify_append_newline_eq_todo_iff {set : TagSet} (h : set.OneLine) (s t : List Char) :
    set.classify (s ++ '\n' :: t) = .todo ↔
      set.classify s = .todo ∨ set.classify t = .todo := by
  simp only [classify_eq_todo_iff, ← exists_or, ← and_or_left]
  refine exists_congr fun form => and_congr_right fun hform => ?_
  rw [lower_append_newline, contains_append_cons (h form hform), Bool.or_eq_true]

/-- A line without a tag does not change the kind of the text before it. -/
theorem classify_append_newline {set : TagSet} (h : set.OneLine) (s : List Char) {t : List Char}
    (ht : set.classify t ≠ .todo) : set.classify (s ++ '\n' :: t) = set.classify s := by
  have hiff := classify_append_newline_eq_todo_iff h s t
  rw [or_iff_left ht] at hiff
  cases hs : set.classify s with
  | todo => exact hiff.2 hs
  | note =>
    cases hwhole : set.classify (s ++ '\n' :: t) with
    | note => rfl
    | todo => exact absurd (hs.symm.trans (hiff.1 hwhole)) (by decide)

end TagSet

namespace Language

variable {filepath : String} {tags : TagSet}

/-- Whether a comment is of the kind that its text has. -/
def IsOfItsKind (tags : TagSet) (c : Comment) : Prop := c.kind = tags.classify c.text.toList

theorem isOfItsKind_alone (c : LineComment) : IsOfItsKind tags (c.alone filepath tags) := by
  rw [IsOfItsKind, LineComment.alone, String.toList_ofList]

/-- A comment keeps its kind when a line joins it. -/
theorem IsOfItsKind.withLine (htags : tags.OneLine) {opened : Comment} {c : LineComment}
    (h : IsOfItsKind tags opened) (hjoins : c.joins tags opened = true) :
    IsOfItsKind tags (withLine opened c) := by
  have hplain : tags.classify c.text ≠ .todo := by
    rw [LineComment.joins, Bool.and_eq_true, bne_iff_ne] at hjoins
    exact hjoins.2
  have htext : (Language.withLine opened c).text.toList = opened.text.toList ++ '\n' :: c.text := by
    simp [Language.withLine]
  rw [IsOfItsKind, htext, TagSet.classify_append_newline htags _ hplain]
  exact h

theorem isOfItsKind_of_mem_mergeLines (htags : tags.OneLine) {lines : List LineComment}
    {c : Comment} (hc : c ∈ mergeLines filepath tags lines) : IsOfItsKind tags c :=
  forall_mem_mergeLines isOfItsKind_alone (fun _ _ h hjoins => h.withLine htags hjoins) c hc

/-- An extractor that chooses among what finders find, whatever they are, and one that
merges lines, whatever they are, answer for every text, and each comment is of the kind
that its text has, for all tags without a line feed. -/
theorem comments_are_of_their_kinds {x : Extractor}
    (hx : (∃ name lines, x = .ofLines name lines) ∨ ∃ name finders, x = .ofFinders name finders)
    (htags : tags.OneLine) (filepath text : String) :
    ∃ comments, x.extract filepath text tags = some comments ∧
      ∀ c ∈ comments, c.kind = tags.classify c.text.toList := by
  rcases hx with ⟨name, lines, rfl⟩ | ⟨name, finders, rfl⟩
  · exact ⟨_, rfl, fun c hc => isOfItsKind_of_mem_mergeLines htags hc⟩
  · refine ⟨_, rfl, fun c hc => ?_⟩
    obtain ⟨span, -, rfl⟩ := List.mem_map.1 hc
    rw [commentOf, String.toList_ofList]

/-- A comment with a tag, and a line below it that would complete another tag if no line
feed stood between them. -/
def wrappedText : String := "# TODO προσ\n# οχη\n"

/-- The tags of the wrapped text. -/
def wrappedTags : TagSet := .ofList ["todo", "προσοχη"]

/-- The line is merged into the comment, which keeps its kind. -/
theorem comments_are_of_their_kinds_wrapped :
    wrappedTags.OneLine ∧
      ∃ comments, Extractor.python.extract "a.py" wrappedText wrappedTags = some comments ∧
        ∀ c ∈ comments, c.kind = wrappedTags.classify c.text.toList := by
  have htags : wrappedTags.OneLine := by
    rw [TagSet.OneLine]
    decide
  exact ⟨htags, comments_are_of_their_kinds (.inl ⟨_, _, rfl⟩) htags "a.py" wrappedText⟩

end Language

end Marginalia
