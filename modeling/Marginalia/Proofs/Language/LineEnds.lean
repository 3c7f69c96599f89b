import Marginalia.Proofs.Language.Builtin
import Marginalia.Proofs.Language.Cover
import Marginalia.Proofs.Pattern.LineEnds

set_option autoImplicit false

/-!
# Comments and line ends

Checking a file out with other line ends does not change its comments: the same ones are
found, in the same order and on the same lines, of the same kinds and with the same text but
for the line ends in it.  A comment up to the end of its line takes the carriage return in,
but it is trimmed away; and as nothing starts at a line end, no comment is lost to it.  Of two
comments that start together the longer is still taken, unless they ended together before,
and then they differ in blanks only.
-/

namespace Marginalia

open Marginalia.Text

/-! ## Kinds -/

/-- Whether no tag of a set holds a character of a line end. -/
def TagSet.WithinLines (set : TagSet) : Prop :=
  ∀ form ∈ set.tags, '\n' ∉ form.toList ∧ '\r' ∉ form.toList

theorem TagSet.WithinLines.classify_withReturns {set : TagSet} (h : set.WithinLines)
    (s : List Char) : set.classify (withReturns s) = set.classify s := by
  have hany : set.tags.any (fun tag => contains (lower (withReturns s)) tag.toList) =
      set.tags.any fun tag => contains (lower s) tag.toList := by
    rw [Bool.eq_iff_iff, List.any_eq_true, List.any_eq_true]
    refine exists_congr fun form => and_congr_right fun hform => ?_
    obtain ⟨hline, hreturn⟩ := h form hform
    exact Eq.congr_left (contains_lower_withReturns hline hreturn [] s)
  simp only [classify, hany]

namespace Language

open Marginalia.Pattern (Cursor Fence Machine Span)

variable {text : List Char}

/-! ## Spans that stand for others -/

/-- Whether a span of the text with carriage returns stands for one of the other: it starts
where that one does and ends where it does, or behind the carriage return that follows. -/
structure Becomes (u v : Span) : Prop where
  first : v.first = u.first.returned
  last : v.last = u.last.returned ∨ v.last = u.last.returnedAfter

theorem becomes_returnedSpan (f : Fence) (u : Span) : Becomes u (f.returnedSpan u) :=
  ⟨rfl, f.ended_eq u.last⟩

theorem Becomes.last_bounds {u v : Span} (h : Becomes u v) :
    u.last.returned.offset ≤ v.last.offset ∧ v.last.offset ≤ u.last.returnedAfter.offset := by
  obtain ⟨hle, -⟩ := u.last.returned_le_returnedAfter
  rcases h.last with hlast | hlast
  · rw [hlast]
    exact ⟨Nat.le_refl _, hle⟩
  · rw [hlast]
    exact ⟨hle, Nat.le_refl _⟩

section Order

variable {a b a' b' : Span}

theorem Becomes.starts_lt_iff (ha : Becomes a a') (hb : Becomes b b') (hin : a.first.IsIn text)
    (hin' : b.first.IsIn text) :
    a'.first.offset < b'.first.offset ↔ a.first.offset < b.first.offset := by
  rw [ha.first, hb.first]
  exact hin.returned_lt_iff hin'

/-- What starts before the end of a span does so in the other text too. -/
theorem Becomes.starts_inside (ha : Becomes a a') (hb : Becomes b b') (hin : a.first.IsIn text)
    (hin' : b.last.IsIn text) (h : a.first.offset < b.last.offset) :
    a'.first.offset < b'.last.offset := by
  rw [ha.first]
  exact Nat.lt_of_lt_of_le ((hin.returned_lt_iff hin').2 h) hb.last_bounds.1

/-- The carriage return behind a span does not reach one that starts at no line end. -/
theorem Becomes.starts_behind (ha : Becomes a a') (hb : Becomes b b') (hin : a.first.IsIn text)
    (hin' : b.last.IsIn text) (hhead : a.first.rest.head? ≠ some '\n')
    (h : b.last.offset ≤ a.first.offset) : b'.last.offset ≤ a'.first.offset := by
  refine Nat.le_of_not_lt fun hinside => ?_
  rw [ha.first] at hinside
  have hreach := Nat.lt_of_lt_of_le hinside hb.last_bounds.2
  rw [hin.returned_lt_returnedAfter_iff hin' hhead] at hreach
  omega

/-- A shorter span is not longer in the other text. -/
theorem Becomes.ends_le (ha : Becomes a a') (hb : Becomes b b') (hin : a.last.IsIn text)
    (hin' : b.last.IsIn text) (h : a.last.offset < b.last.offset) :
    a'.last.offset ≤ b'.last.offset := by
  have hreach := ha.last_bounds.2
  obtain ⟨-, hextra⟩ := a.last.returned_le_returnedAfter
  have hlater := (hin.returned_lt_iff hin').2 h
  have hleast := hb.last_bounds.1
  omega

end Order

/-- What lies between two places becomes what lies between those that stand for them. -/
theorem take_returned {p q : Cursor} (hp : p.IsIn text) (hq : q.IsIn text)
    (hle : p.offset ≤ q.offset) (extra : Nat) :
    p.returned.rest.take (q.returned.offset + extra - p.returned.offset) =
      withReturns (p.rest.take (q.offset - p.offset)) ++ q.returned.rest.take extra := by
  have hbetween := hp.take_append_rest hq hle
  have hlength : (p.rest.take (q.offset - p.offset)).length = q.offset - p.offset := by
    have hfirst := hp.offset_add_length
    have hlast := hq.offset_le
    rw [List.length_take]
    omega
  have hextent : q.returned.offset + extra - p.returned.offset =
      (withReturns (p.rest.take (q.offset - p.offset))).length + extra := by
    rw [length_withReturns, hlength]
    simp only [Cursor.returned, hp.row_add hq hle]
    omega
  rw [hextent, Cursor.returned, ← hbetween, withReturns_append, hbetween]
  exact List.take_length_add_append extra

/-- Spans that stand for each other hold the same text, but for the line ends in it and a
carriage return behind it. -/
theorem Becomes.text_eq {u v : Span} (h : Becomes u v) (hfirst : u.first.IsIn text)
    (hlast : u.last.IsIn text) (hle : u.first.offset ≤ u.last.offset) :
    v.text = withReturns u.text ∨ v.text = withReturns u.text ++ ['\r'] := by
  have htake := take_returned hfirst hlast hle
  have hplain : v.last = u.last.returned → v.text = withReturns u.text := by
    intro heq
    have hall := htake 0
    rw [Nat.add_zero, List.take_zero, List.append_nil] at hall
    rw [Span.text, h.first, heq]
    exact hall
  rcases h.last with heq | heq
  · exact .inl (hplain heq)
  · by_cases hline : u.last.rest.head? = some '\n'
    · obtain ⟨rest, hrest⟩ := List.head?_eq_some_iff.1 hline
      refine .inr ?_
      have hoffset : v.last.offset = u.last.returned.offset + 1 := by
        rw [heq, Cursor.returnedAfter_newline hrest]
        rfl
      have hextra : u.last.returned.rest.take 1 = ['\r'] := by
        rw [Cursor.returned, hrest]
        rfl
      rw [Span.text, h.first, hoffset, htake 1, hextra]
      rfl
    · exact .inl (hplain (heq.trans (Cursor.returnedAfter_of_ne hline)))

/-- Their comments are the same but for the line ends in their text. -/
theorem Becomes.commentOf_eq {u v : Span} (h : Becomes u v) (hfirst : u.first.IsIn text)
    (hlast : u.last.IsIn text) (hle : u.first.offset ≤ u.last.offset) (filepath : String)
    {tags : TagSet} (htags : tags.WithinLines) :
    commentOf filepath tags v =
      { commentOf filepath tags u with text := crlf (commentOf filepath tags u).text } := by
  have hbody : trimEnd v.text = withReturns (trimEnd u.text) := by
    rcases h.text_eq hfirst hlast hle with htext | htext
    · rw [htext, trimEnd_withReturns]
    · rw [htext, trimEnd_append_blank (by decide), trimEnd_withReturns]
  have hline : lineAt v.first = lineAt u.first := by
    rw [h.first]
    rfl
  have hmultiline :
      (withReturns (trimEnd u.text)).contains '\n' = (trimEnd u.text).contains '\n' := by
    rw [Bool.eq_iff_iff, List.contains_iff_mem, List.contains_iff_mem,
      newline_mem_withReturns_iff]
  simp only [commentOf, hbody, hline, htags.classify_withReturns, hmultiline, crlf,
    String.toList_ofList]

/-! ## The choice -/

/-- The span that is chosen in the text with carriage returns in place of a span of the
other: the one with the carriage return behind it if that is found. -/
def counterpart (finders : List Finder) (text : List Char) (u : Span) : Span :=
  if ⟨u.first.returned, u.last.returnedAfter⟩ ∈ found finders (withReturns text) then
    ⟨u.first.returned, u.last.returnedAfter⟩
  else ⟨u.first.returned, u.last.returned⟩

variable {finders : List Finder} {u : Span}

theorem becomes_counterpart (finders : List Finder) (text : List Char) (u : Span) :
    Becomes u (counterpart finders text u) := by
  unfold counterpart
  split
  · exact ⟨rfl, .inr rfl⟩
  · exact ⟨rfl, .inl rfl⟩

/-- The counterpart of a span is found if any span is that stands for it. -/
theorem counterpart_mem {v : Span} (hv : v ∈ found finders (withReturns text))
    (h : Becomes u v) : counterpart finders text u ∈ found finders (withReturns text) := by
  unfold counterpart
  split
  · assumption
  · rename_i hnot
    obtain ⟨first, last⟩ := v
    obtain ⟨rfl, rfl | rfl⟩ := h
    · exact hv
    · exact absurd hv hnot

/-- No span that is found and stands for another is longer than the counterpart. -/
theorem last_le_counterpart {v : Span} (hv : v ∈ found finders (withReturns text))
    (h : Becomes u v) : v.last.offset ≤ (counterpart finders text u).last.offset := by
  rcases h.last with hlast | hlast
  · rw [hlast]
    exact (becomes_counterpart finders text u).last_bounds.1
  · have hlonger : v = ⟨u.first.returned, u.last.returnedAfter⟩ := by
      rw [← h.first, ← hlast]
    have hsame : counterpart finders text u = v := by
      rw [counterpart, if_pos (hlonger ▸ hv), hlonger]
    exact Nat.le_of_eq (congrArg (·.last.offset) hsame.symm)

/-- Whether a finder runs the machine of a fence that does not mind how lines end. -/
def Finder.IsOfLines (find : Finder) : Prop :=
  ∃ (m : Machine) (f : Fence), find = m.spans ∧ m.IsFence f ∧ f.IsOfLines

theorem Finder.IsOfLines.sound {find : Finder} (h : find.IsOfLines) : find.Sound := by
  obtain ⟨m, -, rfl, -, -⟩ := h
  exact sound_spans m

section Fenced

variable (hfinders : ∀ find ∈ finders, find.IsOfLines)
include hfinders

/-- What is found in the text with carriage returns stands for what is found in the other. -/
theorem exists_becomes {v : Span} (hv : v ∈ found finders (withReturns text)) :
    ∃ s ∈ found finders text, Becomes s v := by
  obtain ⟨⟨_, hfind, hv⟩, -⟩ := mem_found.1 hv
  obtain ⟨m, f, rfl, hf, hlines⟩ := hfinders _ hfind
  rw [Machine.spans_withReturns hf hlines, List.mem_map] at hv
  obtain ⟨s, hs, rfl⟩ := hv
  have hmatch := Machine.isMatch_of_mem_spans hs
  exact ⟨s, mem_found.2 ⟨⟨_, hfind, hs⟩, hmatch.nonempty⟩, becomes_returnedSpan f s⟩

/-- For all that is found in a text there is something that stands for it. -/
theorem exists_becomes_of_mem {s : Span} (hs : s ∈ found finders text) :
    ∃ v ∈ found finders (withReturns text), Becomes s v := by
  obtain ⟨⟨_, hfind, hs⟩, -⟩ := mem_found.1 hs
  obtain ⟨m, f, rfl, hf, hlines⟩ := hfinders _ hfind
  have hv : f.returnedSpan s ∈ m.spans (withReturns text) := by
    rw [Machine.spans_withReturns hf hlines]
    exact List.mem_map_of_mem hs
  have hmatch := Machine.isMatch_of_mem_spans hv
  exact ⟨_, mem_found.2 ⟨⟨_, hfind, hv⟩, hmatch.nonempty⟩, becomes_returnedSpan f s⟩

/-- Nothing that is found starts at a line end. -/
theorem head?_ne_newline_of_mem {s : Span} (hs : s ∈ found finders text) :
    s.first.rest.head? ≠ some '\n' := by
  obtain ⟨⟨_, hfind, hs⟩, -⟩ := mem_found.1 hs
  obtain ⟨m, f, rfl, hf, hlines⟩ := hfinders _ hfind
  obtain ⟨-, hin, hend, -⟩ := (Machine.isLeftmost_spans hf text).sound s hs
  rw [Machine.endAt?_eq hf hin] at hend
  exact hlines.head?_ne_newline hend

/-- The counterparts of a cover are one. -/
theorem IsCover.counterparts {us : List Span} (h : IsCover (found finders text) us) :
    IsCover (found finders (withReturns text)) (us.map (counterpart finders text)) := by
  have hstands : ∀ u, Becomes u (counterpart finders text u) := becomes_counterpart finders text
  have hin : ∀ s ∈ found finders text, s.first.IsIn text ∧ s.last.IsIn text := fun s hs =>
    isIn_of_mem_found (fun find hfind => (hfinders find hfind).sound) hs
  refine ⟨?_, ?_, ?_, ?_⟩
  · intro v hv
    obtain ⟨u, hu, rfl⟩ := List.mem_map.1 hv
    obtain ⟨v, hv, hbecomes⟩ := exists_becomes_of_mem hfinders (h.among u hu)
    exact counterpart_mem hv hbecomes
  · refine List.pairwise_map.2 ((List.Pairwise.and_mem.1 h.apart).imp ?_)
    intro a b hboth
    obtain ⟨ha, hb, hstarts, happart⟩ := hboth
    obtain ⟨hfirstA, hlastA⟩ := hin a (h.among a ha)
    obtain ⟨hfirstB, -⟩ := hin b (h.among b hb)
    exact ⟨((hstands a).starts_lt_iff (hstands b) hfirstA hfirstB).2 hstarts,
      (hstands b).starts_behind (hstands a) hfirstB hlastA
        (head?_ne_newline_of_mem hfinders (h.among b hb)) happart⟩
  · intro v hv
    obtain ⟨s, hs, hbecomes⟩ := exists_becomes hfinders hv
    obtain ⟨u, hu, hle, hinside⟩ := h.covers s hs
    obtain ⟨hfirst, hlast⟩ := hin u (h.among u hu)
    have hstarts := hbecomes.starts_lt_iff (hstands u) (hin s hs).1 hfirst
    exact ⟨_, List.mem_map_of_mem hu, Nat.le_of_not_lt (hstarts.not.2 (Nat.not_lt_of_le hle)),
      hbecomes.starts_inside (hstands u) (hin s hs).1 hlast hinside⟩
  · intro v hv w hw hsame
    obtain ⟨u, hu, rfl⟩ := List.mem_map.1 hw
    obtain ⟨s, hs, hbecomes⟩ := exists_becomes hfinders hv
    obtain ⟨hfirstS, hlastS⟩ := hin s hs
    obtain ⟨hfirst, hlast⟩ := hin u (h.among u hu)
    have hbefore := (hstands u).starts_lt_iff hbecomes hfirst hfirstS
    have hbehind := hbecomes.starts_lt_iff (hstands u) hfirstS hfirst
    have hsameFirst : u.first.offset = s.first.offset := by omega
    rcases Nat.lt_or_eq_of_le (h.longest s hs u hu hsameFirst) with hshorter | hsameLast
    · exact hbecomes.ends_le (hstands u) hlastS hlast hshorter
    · -- spans that ended together differ by a carriage return, and the counterpart has it
      obtain rfl := Span.eq_of_offsets hfirstS hlastS hfirst hlast hsameFirst.symm hsameLast
      exact last_le_counterpart hv hbecomes

/-- The same comments are found in both texts, but for the line ends in their text. -/
theorem patternComments_withReturns (filepath : String) {tags : TagSet}
    (htags : tags.WithinLines) :
    patternComments finders filepath (withReturns text) tags =
      (patternComments finders filepath text tags).map fun c =>
        { c with text := crlf c.text } := by
  have hsound : ∀ find ∈ finders, find.Sound := fun find hfind => (hfinders find hfind).sound
  have hcover : IsCover (found finders text) (selected finders text) := (isCover_iff hsound).2 rfl
  rw [patternComments, patternComments,
    ← (isCover_iff hsound).1 (hcover.counterparts hfinders), List.map_map, List.map_map]
  refine List.map_congr_left fun u hu => ?_
  have hfound := hcover.among u hu
  obtain ⟨hfirst, hlast⟩ := isIn_of_mem_found hsound hfound
  exact (becomes_counterpart finders text u).commentOf_eq hfirst hlast
    (Nat.le_of_lt (mem_found.1 hfound).2) filepath htags

end Fenced

/-! ## The languages that come with the library -/

/-- No pattern of these languages minds how lines end. -/
theorem isOfLines_fences : ∀ e ∈ lineFences ++ blockFences, e.2.IsOfLines := by
  decide

/-- What an extractor of these languages finds does not depend on line ends, but for those in
the text of comments that go over several lines. -/
theorem extract_crlf {rule : Rule} (hrule : rule ∈ builtinRules) {tags : TagSet}
    (htags : tags.WithinLines) (filepath text : String) :
    ∃ x comments, Extractor.ofRule? rule = some x ∧
      x.extract filepath text tags = some comments ∧
      x.extract filepath (crlf text) tags =
        some (comments.map fun c => { c with text := crlf c.text }) ∧
      ∀ c ∈ comments, c.multiline = false → crlf c.text = c.text := by
  obtain ⟨machines, hread, hfences⟩ := exists_machines_of_fences hrule
  have hlines : ∀ find ∈ machines.map (·.spans), Finder.IsOfLines find := by
    refine List.forall_mem_map.2 fun m hm => ?_
    obtain ⟨e, he, hfence⟩ := hfences m hm
    exact ⟨m, e.2, rfl, hfence, isOfLines_fences e he⟩
  refine ⟨_, _, ofRule?_eq_of_machines? hread, rfl, ?_, ?_⟩
  · have htext : (crlf text).toList = withReturns text.toList := String.toList_ofList
    rw [← patternComments_withReturns hlines filepath htags, ← htext]
    rfl
  · intro c hc hmultiline
    obtain ⟨u, -, rfl⟩ := List.mem_map.1 hc
    have hline : '\n' ∉ trimEnd u.text := by
      simpa [commentOf] using hmultiline
    rw [crlf, commentOf, String.toList_ofList, withReturns_of_notMem hline]

/-- A comment on one line, and one that goes over two. -/
def twoLineText : String := "// TODO a\n/* b\n */\n"

/-- With the other line ends the one is the same and the other has one in its text. -/
theorem extract_crlf_twoLine :
    cRule ∈ builtinRules ∧ TagSet.standard.WithinLines ∧
      (Extractor.ofRule? cRule).bind (·.extract "a.c" (crlf twoLineText) .standard) =
        some [⟨"a.c", "// TODO a", 1, .todo, false⟩, ⟨"a.c", "/* b\r\n */", 2, .note, true⟩] := by
  have hrule : cRule ∈ builtinRules := by decide
  have htags : TagSet.standard.WithinLines := by
    rw [TagSet.WithinLines]
    decide
  obtain ⟨x, comments, hx, hextract, hreturns, -⟩ := extract_crlf hrule htags "a.c" twoLineText
  have hcomments : (Extractor.ofRule? cRule).bind (·.extract "a.c" twoLineText .standard) =
      some [⟨"a.c", "// TODO a", 1, .todo, false⟩, ⟨"a.c", "/* b\n */", 2, .note, true⟩] :=
    extract_of_sorted hrule (by decide +kernel) (by decide +kernel)
  rw [hx, Option.bind_some, hextract, Option.some.injEq] at hcomments
  subst hcomments
  exact ⟨hrule, htags, by rw [hx, Option.bind_some, hreturns]; decide⟩

end Language

end Marginalia
