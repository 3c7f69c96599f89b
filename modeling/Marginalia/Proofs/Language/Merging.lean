import Marginalia.Language.Registry
import Marginalia.Proofs.Note.Location
import Mathlib.Data.List.Chain

set_option autoImplicit false

/-!
# How lines are merged

Merging divides the lines of a source into comments of one or two lines each.  A line
belongs to the comment before it when it stands directly below the first line of that
comment and carries no tag; since lines rise, that can hold of one line only.  These rules
leave one division, whatever lines, gaps and tags there are.
-/

namespace Marginalia.Language

/-! ## Divisions -/

/-- The lines of one comment. -/
structure Group where
  first : LineComment
  second : Option LineComment
  deriving DecidableEq, Repr, Inhabited

namespace Group

/-- The lines in order. -/
def lines (g : Group) : List LineComment := g.first :: g.second.toList

/-- The texts of the lines with a line feed between them. -/
def text (g : Group) : List Char :=
  match g.second with
  | none => g.first.text
  | some c => g.first.text ++ '\n' :: c.text

/-- The comment that the lines make: it stands where the first one stands and is of the
kind of that line. -/
def comment (filepath : String) (tags : TagSet) (g : Group) : Comment :=
  { filepath := filepath, text := String.ofList g.text, line := g.first.line
    kind := tags.classify g.first.text, multiline := g.second.isSome }

end Group

/-- Whether a line stands directly below another one and carries no tag. -/
def LineComment.Continues (tags : TagSet) (a c : LineComment) : Prop :=
  c.line.toNat = a.line.toNat + 1 ∧ tags.classify c.text ≠ .todo

instance (tags : TagSet) (a c : LineComment) : Decidable (a.Continues tags c) :=
  inferInstanceAs (Decidable (_ ∧ _))

/-- Whether lines are divided as the rules of merging have it. -/
structure IsDivision (tags : TagSet) (lines : List LineComment) (groups : List Group) : Prop where
  /-- the lines are those of the groups, in order -/
  whole : groups.flatMap Group.lines = lines
  /-- a second line continues the first one -/
  joined : ∀ g ∈ groups, ∀ c ∈ g.second, g.first.Continues tags c
  /-- a line that begins a group does not continue the first line of the group before -/
  apart : groups.IsChain fun g h => ¬ g.first.Continues tags h.first

/-- The division that joins a line to the one before it as soon as the rules allow. -/
def divide (tags : TagSet) : List LineComment → List Group
  | [] => []
  | [a] => [⟨a, none⟩]
  | a :: c :: rest =>
    if a.Continues tags c then ⟨a, some c⟩ :: divide tags rest
    else ⟨a, none⟩ :: divide tags (c :: rest)

variable {filepath : String} {tags : TagSet} {lines : List LineComment}

theorem Group.flatMap_lines_cons (g : Group) (groups : List Group) :
    (g :: groups).flatMap Group.lines =
      g.first :: (g.second.toList ++ groups.flatMap Group.lines) := rfl

/-- There is one division at most. -/
theorem IsDivision.eq_divide {groups : List Group} (h : IsDivision tags lines groups) :
    groups = divide tags lines := by
  induction groups generalizing lines with
  | nil =>
    rw [← h.whole]
    rfl
  | cons g groups ih =>
    have hrest := ih ⟨rfl, fun g' hg' => h.joined g' (List.mem_cons_of_mem _ hg'),
      (List.isChain_cons.1 h.apart).2⟩
    rw [← h.whole, Group.flatMap_lines_cons]
    obtain ⟨a, second⟩ := g
    cases second with
    | some c =>
      have hjoined : a.Continues tags c := h.joined _ List.mem_cons_self c rfl
      rw [Option.toList_some, List.singleton_append, divide, if_pos hjoined, ← hrest]
    | none =>
      rw [Option.toList_none, List.nil_append]
      cases groups with
      | nil => rfl
      | cons g' groups =>
        have hapart : ¬ a.Continues tags g'.first := (List.isChain_cons_cons.1 h.apart).1
        rw [Group.flatMap_lines_cons] at hrest ⊢
        rw [divide, if_neg hapart, ← hrest]

/-- The first group of the division begins with the first line. -/
theorem head?_divide (tags : TagSet) (lines : List LineComment) :
    (divide tags lines).head?.map Group.first = lines.head? := by
  match lines with
  | [] => rfl
  | [_] => rfl
  | a :: c :: rest =>
    rw [divide]
    split <;> rfl

/-- Whether lines rise. -/
def Rise (lines : List LineComment) : Prop := lines.Pairwise fun a c => a.line < c.line

/-- A line after two that were joined does not continue the first of them. -/
theorem Rise.not_continues {a c e : LineComment} {rest : List LineComment}
    (h : Rise (a :: c :: rest)) (he : e ∈ rest) (hjoined : a.Continues tags c) :
    ¬ a.Continues tags e := by
  intro hjoined'
  have hlt := UInt32.lt_iff_toNat_lt.1 (List.rel_of_pairwise_cons h.tail he)
  rw [hjoined.1, hjoined'.1] at hlt
  exact absurd hlt (Nat.lt_irrefl _)

/-- Rising lines have a division. -/
theorem isDivision_divide (tags : TagSet) (h : Rise lines) :
    IsDivision tags lines (divide tags lines) := by
  fun_induction divide tags lines with
  | case1 => exact ⟨rfl, fun _ hg => absurd hg List.not_mem_nil, .nil⟩
  | case2 a =>
    refine ⟨rfl, fun g hg c hc => ?_, .singleton _⟩
    rw [List.mem_singleton.1 hg] at hc
    cases hc
  | case3 a c rest hjoined ih =>
    have hrest := ih h.tail.tail
    refine ⟨?_, List.forall_mem_cons.2 ⟨?_, hrest.joined⟩,
      List.isChain_cons.2 ⟨fun g hg => ?_, hrest.apart⟩⟩
    · rw [Group.flatMap_lines_cons, hrest.whole]
      rfl
    · rintro _ ⟨⟩
      exact hjoined
    · have hfirst := head?_divide tags rest
      rw [hg, Option.map_some] at hfirst
      exact h.not_continues (List.mem_of_head? hfirst.symm) hjoined
  | case4 a c rest hjoined ih =>
    have hrest := ih h.tail
    refine ⟨?_, List.forall_mem_cons.2 ⟨?_, hrest.joined⟩,
      List.isChain_cons.2 ⟨fun g hg => ?_, hrest.apart⟩⟩
    · rw [Group.flatMap_lines_cons, hrest.whole]
      rfl
    · rintro _ ⟨⟩
    · have hfirst := head?_divide tags (c :: rest)
      rw [hg, Option.map_some, List.head?_cons, Option.some.injEq] at hfirst
      rwa [hfirst]

/-! ## Merging -/

/-- A line after another one joins it when it continues it. -/
theorem joins_iff {opened : Comment} {a c : LineComment} (hline : opened.line = a.line)
    (h : a.line < c.line) : c.joins tags opened = true ↔ a.Continues tags c := by
  have hlt := UInt32.lt_iff_toNat_lt.1 h
  have hnext : (a.line + 1).toNat = a.line.toNat + 1 := by
    rw [UInt32.toNat_add, UInt32.toNat_one]
    exact Nat.mod_eq_of_lt (Nat.lt_of_le_of_lt hlt c.line.toNat_lt)
  rw [LineComment.joins, Bool.and_eq_true, beq_iff_eq, bne_iff_ne, hline, ← UInt32.toNat_inj,
    hnext]
  rfl

/-- A comment that the next line does not join is finished. -/
theorem mergeAfter_of_not_joins {opened : Comment}
    (h : ∀ c ∈ lines.head?, c.joins tags opened = false) :
    mergeAfter filepath tags opened lines = opened :: mergeLines filepath tags lines := by
  cases lines with
  | nil => rfl
  | cons c rest => rw [mergeAfter, h c rfl, mergeLines, if_neg Bool.false_ne_true]

/-- What holds of a line on its own, and stays true when a line joins, holds of all comments
that lines make. -/
theorem forall_mem_mergeLines {motive : Comment → Prop}
    (alone : ∀ c : LineComment, motive (c.alone filepath tags))
    (joined : ∀ opened c, motive opened → c.joins tags opened = true → motive (withLine opened c)) :
    ∀ m ∈ mergeLines filepath tags lines, motive m := by
  have hafter : ∀ (lines : List LineComment) (opened : Comment), motive opened →
      ∀ m ∈ mergeAfter filepath tags opened lines, motive m := by
    intro lines
    induction lines with
    | nil =>
      intro opened hopened m hm
      rwa [List.mem_singleton.1 hm]
    | cons c rest ih =>
      intro opened hopened
      rw [mergeAfter]
      split
      · rename_i hjoins
        exact ih _ (joined opened c hopened hjoins)
      · exact List.forall_mem_cons.2 ⟨hopened, ih _ (alone c)⟩
  cases lines with
  | nil => exact fun m hm => absurd hm List.not_mem_nil
  | cons c rest => exact hafter rest _ (alone c)

theorem withLine_alone (a c : LineComment) :
    withLine (a.alone filepath tags) c = Group.comment filepath tags ⟨a, some c⟩ := by
  have htext : String.ofList a.text ++ "\n" ++ String.ofList c.text =
      String.ofList (a.text ++ '\n' :: c.text) := by
    rw [← String.toList_inj]
    simp
  rw [withLine, LineComment.alone, Group.comment, Group.text, htext]
  rfl

/-- Merging makes a comment of each group of the division. -/
theorem mergeLines_eq (filepath : String) (tags : TagSet) (h : Rise lines) :
    mergeLines filepath tags lines = (divide tags lines).map (Group.comment filepath tags) := by
  fun_induction divide tags lines with
  | case1 => rfl
  | case2 a => rfl
  | case3 a c rest hjoined ih =>
    have hac : a.line < c.line := List.rel_of_pairwise_cons h List.mem_cons_self
    have hjoins : c.joins tags (a.alone filepath tags) = true := (joins_iff rfl hac).2 hjoined
    rw [mergeLines, mergeAfter, if_pos hjoins, withLine_alone, List.map_cons, ← ih h.tail.tail]
    refine mergeAfter_of_not_joins fun e he => Bool.eq_false_iff.2 fun hjoins' => ?_
    have hmem := List.mem_of_head? he
    have hae : a.line < e.line := List.rel_of_pairwise_cons h (List.mem_cons_of_mem _ hmem)
    exact h.not_continues hmem hjoined ((joins_iff rfl hae).1 hjoins')
  | case4 a c rest hjoined ih =>
    have hac : a.line < c.line := List.rel_of_pairwise_cons h List.mem_cons_self
    rw [mergeLines, List.map_cons, ← ih h.tail]
    refine mergeAfter_of_not_joins fun e he => Bool.eq_false_iff.2 fun hjoins => ?_
    cases he
    exact hjoined ((joins_iff rfl hac).1 hjoins)

/-! ## What the rules imply -/

theorem first_sublist_lines (groups : List Group) :
    (groups.map Group.first).Sublist (groups.flatMap Group.lines) := by
  induction groups with
  | nil => exact .slnil
  | cons g groups ih =>
    rw [List.map_cons, Group.flatMap_lines_cons]
    exact (ih.trans (List.sublist_append_right _ _)).cons_cons _

/-- Groups begin at rising lines. -/
theorem IsDivision.rise {groups : List Group} (h : IsDivision tags lines groups)
    (hrise : Rise lines) : groups.Pairwise fun g g' => g.first.line < g'.first.line := by
  have hsublist := first_sublist_lines groups
  rw [h.whole] at hsublist
  have hfirsts : (groups.map Group.first).Pairwise fun a c => a.line < c.line :=
    List.Pairwise.sublist hsublist hrise
  rwa [List.pairwise_map] at hfirsts

/-- A line with a tag begins a group. -/
theorem IsDivision.exists_first {groups : List Group} (h : IsDivision tags lines groups)
    {c : LineComment} (hc : c ∈ lines) (htodo : tags.classify c.text = .todo) :
    ∃ g ∈ groups, g.first = c := by
  rw [← h.whole] at hc
  obtain ⟨g, hg, hc⟩ := List.mem_flatMap.1 hc
  rcases List.mem_cons.1 hc with rfl | hc
  · exact ⟨g, hg, rfl⟩
  · exact absurd htodo (h.joined g hg c (Option.mem_toList.1 hc)).2

/-- Where no line holds a line feed, a text that does is of two lines. -/
theorem IsDivision.newline_mem_iff {groups : List Group} (h : IsDivision tags lines groups)
    (hplain : ∀ c ∈ lines, '\n' ∉ c.text) {g : Group} (hg : g ∈ groups) :
    '\n' ∈ g.text ↔ g.second.isSome := by
  obtain ⟨a, second⟩ := g
  cases second with
  | some c => exact iff_of_true (List.mem_append_right _ List.mem_cons_self) rfl
  | none =>
    refine iff_of_false (hplain a ?_) Bool.false_ne_true
    rw [← h.whole]
    exact List.mem_flatMap.2 ⟨_, hg, List.mem_cons_self⟩

/-- How the comments that merging makes relate to lines and to a division of them. -/
structure Merges (filepath : String) (tags : TagSet) (lines : List LineComment)
    (groups : List Group) : Prop where
  /-- no other division keeps the rules -/
  only : ∀ other, IsDivision tags lines other ↔ other = groups
  /-- merging makes a comment of each group, in order -/
  comments : mergeLines filepath tags lines = groups.map (Group.comment filepath tags)
  /-- these are the comments of every source that has the lines -/
  extracted : ∀ source : String, pythonLines source.toList = lines →
    Extractor.python.extract filepath source tags =
      some (groups.map (Group.comment filepath tags))
  /-- a comment has two lines exactly when its text holds a line feed -/
  newline : ∀ g ∈ groups, '\n' ∈ g.text ↔ g.second.isSome
  /-- comments stand at rising lines -/
  rise : (groups.map (Group.comment filepath tags)).Pairwise fun c d => c.line < d.line
  /-- no two comments stand in one place -/
  places : ((groups.map (Group.comment filepath tags)).map Comment.place).Nodup
  /-- a line with a tag begins a comment that is to be done -/
  tagged : ∀ c ∈ lines, tags.classify c.text = .todo →
    ∃ g ∈ groups, g.first = c ∧ (g.comment filepath tags).kind = .todo

/-- Merging divides rising lines without line feeds in the only way that keeps its rules, and
makes a comment of each group of the division. -/
theorem merges_divide (hrise : Rise lines) (hplain : ∀ c ∈ lines, '\n' ∉ c.text)
    (filepath : String) (tags : TagSet) :
    Merges filepath tags lines (divide tags lines) := by
  have hdivision := isDivision_divide tags hrise
  have hmerge := mergeLines_eq filepath tags hrise
  have hlines : ((divide tags lines).map (Group.comment filepath tags)).Pairwise
      fun c d => c.line < d.line := List.pairwise_map.2 (hdivision.rise hrise)
  refine ⟨fun other => ⟨IsDivision.eq_divide, ?_⟩, hmerge, ?_,
    fun g hg => hdivision.newline_mem_iff hplain hg, hlines, ?_, ?_⟩
  · rintro rfl
    exact hdivision
  · rintro source rfl
    exact congrArg some hmerge
  · refine List.pairwise_map.2 (hlines.imp fun {c d} hlt hplace => ?_)
    have hsame : c.line = d.line := congrArg Prod.snd hplace
    rw [hsame] at hlt
    exact UInt32.lt_irrefl _ hlt
  · intro c hc htodo
    obtain ⟨g, hg, rfl⟩ := hdivision.exists_first hc htodo
    exact ⟨g, hg, rfl, htodo⟩

/-- Three plain lines in a row, a line with a tag below them, a plain line below that one and
a line by itself. -/
def mixedLines : List LineComment :=
  [⟨3, "a".toList⟩, ⟨4, "b".toList⟩, ⟨5, "c".toList⟩, ⟨6, "TODO d".toList⟩, ⟨7, "e".toList⟩,
    ⟨9, "f".toList⟩]

/-- The third line is left alone, because it is not directly below the first one. -/
theorem merges_divide_mixed :
    Rise mixedLines ∧ (∀ c ∈ mixedLines, '\n' ∉ c.text) ∧
      Merges "a.py" .standard mixedLines
        [⟨⟨3, "a".toList⟩, some ⟨4, "b".toList⟩⟩, ⟨⟨5, "c".toList⟩, none⟩,
          ⟨⟨6, "TODO d".toList⟩, some ⟨7, "e".toList⟩⟩, ⟨⟨9, "f".toList⟩, none⟩] := by
  have hrise : Rise mixedLines := by
    rw [Rise]
    decide
  have hplain : ∀ c ∈ mixedLines, '\n' ∉ c.text := by decide
  have hdivide : divide .standard mixedLines =
      [⟨⟨3, "a".toList⟩, some ⟨4, "b".toList⟩⟩, ⟨⟨5, "c".toList⟩, none⟩,
        ⟨⟨6, "TODO d".toList⟩, some ⟨7, "e".toList⟩⟩, ⟨⟨9, "f".toList⟩, none⟩] := by
    decide
  refine ⟨hrise, hplain, ?_⟩
  rw [← hdivide]
  exact merges_divide hrise hplain "a.py" .standard

end Marginalia.Language
