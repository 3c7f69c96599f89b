import Marginalia.Proofs.Language.Builtin
import Marginalia.Proofs.Language.Cover
import Marginalia.Proofs.Text.Slice
import Marginalia.Proofs.Text.Trim
import Mathlib.Data.List.Forall2

set_option autoImplicit false

/-!
# Going through a text by bytes

Matches are found as ranges of bytes, and the comments come from one pass over these
ranges: the text between the start of the last range that was taken and the start of
the next one is cut out for its line feeds, and the range itself for the comment.  As
long as the engine that runs the patterns finds parts of the text, no such cut is out of
range or within a character, for any patterns and any text; so the pass gives all
comments of the spans that are chosen, and each says where its span is and what it holds.
-/

namespace Marginalia.Language

open Marginalia.Pattern (Cursor Span)
open Marginalia.Text

/-! ## The pass over ranges of bytes -/

/-- A range of the bytes of a text, whose last byte is the one before `stop`. -/
structure ByteRange where
  start : Nat
  stop : Nat
  deriving DecidableEq, Repr, Inhabited

/-- Whether a range comes before another: by start, and at one start the longer first. -/
def ByteRange.comesFirst (a b : ByteRange) : Bool :=
  a.start < b.start || (a.start == b.start && b.stop ≤ a.stop)

/-- The bytes of a span. -/
def byteRange (text : List Char) (s : Span) : ByteRange :=
  ⟨byteOffset text s.first.offset, byteOffset text s.last.offset⟩

/-- The comments of ranges that come in order.  No range is taken that starts before
`covered`; and `line` is the line of the byte `counted`, up to which line feeds have
been counted.  There is no answer when a part cannot be cut out of the text. -/
def commentsAlong (filepath text : String) (tags : TagSet) :
    Nat → Nat → UInt32 → List ByteRange → Option (List Comment)
  | _, _, _, [] => some []
  | covered, counted, line, r :: ranges =>
    if r.start < covered then commentsAlong filepath text tags covered counted line ranges
    else do
      let passed ← slice? text counted r.start
      let raw ← slice? text r.start r.stop
      let line := line + UInt32.ofNat (passed.toList.count '\n')
      let body := trimEnd raw.toList
      let later ← commentsAlong filepath text tags r.stop r.start line ranges
      some ({ filepath := filepath
              text := String.ofList body
              line := line
              kind := tags.classify body
              multiline := body.contains '\n' } :: later)

/-- The ranges of bytes that finders find in a text and that hold at least one byte. -/
def rangesFound (finders : List Finder) (text : List Char) : List ByteRange :=
  (finders.flatMap fun find => (find text).map (byteRange text)).filter fun r => r.start < r.stop

/-- The comments that are chosen among what finders find in a text, by the bytes. -/
def commentsByBytes (finders : List Finder) (filepath text : String) (tags : TagSet) :
    Option (List Comment) :=
  let ranges := rangesFound finders text.toList
  commentsAlong filepath text tags 0 0 1 (ranges.mergeSort ByteRange.comesFirst)

/-! ## The pass and the choice -/

variable {filepath text : String} {tags : TagSet}

theorem slice?_between {p q : Cursor} (hp : p.IsIn text.toList) (hle : p.offset ≤ q.offset) :
    slice? text (byteOffset text.toList p.offset) (byteOffset text.toList q.offset) =
      some (String.ofList (p.rest.take (q.offset - p.offset))) := by
  rw [slice?_byteOffset text hle, hp.drop_offset]

/-- The line of a later place is found by counting the line feeds in between. -/
theorem lineAt_add {s : List Char} {p q : Cursor} (hp : p.IsIn s) (hq : q.IsIn s)
    (hle : p.offset ≤ q.offset) :
    lineAt p + UInt32.ofNat ((p.rest.take (q.offset - p.offset)).count '\n') = lineAt q := by
  rw [lineAt, lineAt, hp.row_add hq hle, ← UInt32.ofNat_add, Nat.add_assoc]

/-- The pass goes on rightly from any two places, the one up to which matches are
covered and the one up to which lines are counted, as long as the second is not
behind the first. -/
theorem commentsAlong_eq {covered counted : Cursor} {l : List Span}
    (hcovered : covered.IsIn text.toList) (hcounted : counted.IsIn text.toList)
    (hle : counted.offset ≤ covered.offset)
    (hl : ∀ s ∈ l, s.first.IsIn text.toList ∧ s.last.IsIn text.toList ∧
      s.first.offset ≤ s.last.offset) :
    commentsAlong filepath text tags (byteOffset text.toList covered.offset)
        (byteOffset text.toList counted.offset) (lineAt counted)
        (l.map (byteRange text.toList)) =
      some ((disjointFrom covered.offset l).map (commentOf filepath tags)) := by
  induction l generalizing covered counted with
  | nil => rfl
  | cons s l ih =>
    have hrest := fun t ht => hl t (List.mem_cons_of_mem s ht)
    obtain ⟨hfirst, hlast, hextent⟩ := hl s List.mem_cons_self
    have hbefore : byteOffset text.toList s.first.offset < byteOffset text.toList covered.offset ↔
        s.first.offset < covered.offset := byteOffset_lt_iff hcovered.offset_le
    simp only [List.map_cons, commentsAlong, disjointFrom, byteRange, hbefore]
    split
    · exact ih hcovered hcounted hle hrest
    · rename_i hfrom
      have hpassed : counted.offset ≤ s.first.offset := Nat.le_trans hle (Nat.le_of_not_lt hfrom)
      rw [slice?_between hcounted hpassed, slice?_between hfirst hextent]
      simp only [Option.bind_eq_bind, Option.bind_some, String.toList_ofList,
        lineAt_add hcounted hfirst hpassed]
      rw [ih hlast hfirst hextent hrest]
      rfl

theorem ByteRange.comesFirst_iff (a b : ByteRange) :
    a.comesFirst b = true ↔ a.start < b.start ∨ (a.start = b.start ∧ b.stop ≤ a.stop) := by
  simp only [comesFirst, Bool.or_eq_true, Bool.and_eq_true, decide_eq_true_eq, beq_iff_eq]

section Sound

variable {finders : List Finder} (hfinders : ∀ find ∈ finders, find.Sound)
include hfinders

/-- The ranges are those of the spans that are found. -/
theorem rangesFound_eq (source : List Char) :
    rangesFound finders source = (found finders source).map (byteRange source) := by
  rw [rangesFound, found, ← List.map_flatMap, List.filter_map]
  refine congrArg _ (List.filter_congr fun s hs => ?_)
  obtain ⟨find, hfind, hs⟩ := List.mem_flatMap.1 hs
  obtain ⟨-, hlast⟩ := hfinders find hfind source s hs
  rw [Function.comp_apply, decide_eq_decide]
  exact byteOffset_lt_iff hlast.offset_le

/-- Ranges come in the order of their spans. -/
theorem comesFirst_byteRange {source : List Char} {a b : Span} (ha : a ∈ found finders source)
    (hb : b ∈ found finders source) :
    (byteRange source a).comesFirst (byteRange source b) = comesFirst a b := by
  obtain ⟨hfirstA, hlastA⟩ := isIn_of_mem_found hfinders ha
  obtain ⟨hfirstB, hlastB⟩ := isIn_of_mem_found hfinders hb
  have hstart : byteOffset source a.first.offset < byteOffset source b.first.offset ↔
      a.first.offset < b.first.offset := byteOffset_lt_iff hfirstB.offset_le
  have hstart' : byteOffset source b.first.offset < byteOffset source a.first.offset ↔
      b.first.offset < a.first.offset := byteOffset_lt_iff hfirstA.offset_le
  have hstop : byteOffset source a.last.offset < byteOffset source b.last.offset ↔
      a.last.offset < b.last.offset := byteOffset_lt_iff hlastB.offset_le
  rw [Bool.eq_iff_iff, ByteRange.comesFirst_iff, Language.comesFirst_iff]
  simp only [byteRange]
  omega

/-- The pass cuts only at borders of characters, and it finds what is chosen. -/
theorem commentsByBytes_eq (filepath text : String) (tags : TagSet) :
    commentsByBytes finders filepath text tags =
      some (patternComments finders filepath text.toList tags) := by
  have hsorted : (rangesFound finders text.toList).mergeSort ByteRange.comesFirst =
      (candidates finders text.toList).map (byteRange text.toList) := by
    rw [rangesFound_eq hfinders, candidates]
    refine (List.map_mergeSort ?_).symm
    intro a ha b hb
    exact (comesFirst_byteRange hfinders ha hb).symm
  rw [commentsByBytes, hsorted]
  refine commentsAlong_eq .start .start (Nat.le_refl 0) ?_
  intro s hs
  have hs := mem_candidates.1 hs
  obtain ⟨hfirst, hlast⟩ := isIn_of_mem_found hfinders hs
  exact ⟨hfirst, hlast, Nat.le_of_lt (mem_found.1 hs).2⟩

end Sound

/-! ## What a comment says of its span -/

/-- Whether a comment says what a span of a text is and where it starts. -/
structure Tells (filepath : String) (source : List Char) (tags : TagSet) (u : Span)
    (c : Comment) : Prop where
  filepath : c.filepath = filepath
  /-- the text of the span, without the blanks at its end and without those only -/
  text : ∃ blanks, (source.drop u.first.offset).take (u.last.offset - u.first.offset) =
      c.text.toList ++ blanks ∧
    (∀ b ∈ blanks, isBlank b = true) ∧ ∀ b, c.text.toList.getLast? = some b → isBlank b = false
  /-- one more than the line feeds before the span, which are counted in 32 bits -/
  line : c.line.toNat = (1 + (source.take u.first.offset).count '\n') % 2 ^ 32
  kind : c.kind = tags.classify c.text.toList
  multiline : c.multiline = true ↔ '\n' ∈ c.text.toList

theorem tells_commentOf {s : List Char} {u : Span} (hu : u.first.IsIn s) :
    Tells filepath s tags u (commentOf filepath tags u) := by
  refine ⟨rfl, ?_, ?_, ?_, ?_⟩
  · rw [hu.drop_offset]
    simp only [commentOf, String.toList_ofList]
    exact exists_trimEnd_append _
  · rw [← hu.row_eq]
    exact UInt32.toNat_ofNat
  · simp only [commentOf, String.toList_ofList]
  · simp only [commentOf, String.toList_ofList, List.contains_iff_mem]

/-! ## The comments of a rule -/

theorem exists_of_mem_mapM {α β : Type} {f : α → Option β} {l : List α} {out : List β}
    (h : l.mapM f = some out) {b : β} (hb : b ∈ out) : ∃ a ∈ l, f a = some b := by
  induction l generalizing out with
  | nil =>
    rw [← Option.some.inj h] at hb
    exact absurd hb List.not_mem_nil
  | cons a l ih =>
    rw [List.mapM_cons] at h
    obtain ⟨first, hfirst, h⟩ := Option.bind_eq_some_iff.1 h
    obtain ⟨rest, hrest, h⟩ := Option.bind_eq_some_iff.1 h
    rw [← Option.some.inj h] at hb
    rcases List.mem_cons.1 hb with rfl | hb
    · exact ⟨a, List.mem_cons_self, hfirst⟩
    · obtain ⟨other, hother, hb⟩ := ih hrest hb
      exact ⟨other, List.mem_cons_of_mem _ hother, hb⟩

/-- The finders of a rule find parts of texts if the engine does. -/
theorem Engine.Sound.of_compile? {engine : Engine} (h : engine.Sound) {rule : Rule}
    {finders : List Finder} (hread : rule.compile? engine = some finders) :
    ∀ find ∈ finders, find.Sound := by
  obtain ⟨lines, hlines, hread⟩ := Option.bind_eq_some_iff.1 hread
  obtain ⟨blocks, hblocks, hread⟩ := Option.bind_eq_some_iff.1 hread
  rw [← Option.some.inj hread]
  intro find hfind
  rcases List.mem_append.1 hfind with hfind | hfind
  · obtain ⟨pattern, -, hpattern⟩ := exists_of_mem_mapM hlines hfind
    exact h _ pattern find hpattern
  · obtain ⟨pattern, -, hpattern⟩ := exists_of_mem_mapM hblocks hfind
    exact h _ pattern find hpattern

/-- With any engine that finds parts of texts, an extractor made from patterns that the
engine can read always answers, for any file, and never cuts a text but at borders
between characters.  Its comments tell, one by one and in order, of the only cover of
what the engine finds. -/
theorem Extractor.comments_tell_cover {engine : Engine} (hengine : engine.Sound) {rule : Rule}
    {x : Extractor} (hx : Extractor.ofRuleBy? engine rule = some x) (filepath text : String)
    (tags : TagSet) :
    ∃ finders us comments, rule.compile? engine = some finders ∧
      x.extract filepath text tags = some comments ∧
      commentsByBytes finders filepath text tags = some comments ∧
      IsCover (found finders text.toList) us ∧
      List.Forall₂ (Tells filepath text.toList tags) us comments ∧
      ∀ vs, IsCover (found finders text.toList) vs → vs = us := by
  obtain ⟨finders, hread, rfl⟩ := Option.map_eq_some_iff.1 hx
  have hfinders := hengine.of_compile? hread
  have hcover : IsCover (found finders text.toList) (selected finders text.toList) :=
    (isCover_iff hfinders).2 rfl
  refine ⟨finders, selected finders text.toList, _, hread, rfl,
    commentsByBytes_eq hfinders filepath text tags, hcover, ?_,
    fun _ => (isCover_iff hfinders).1⟩
  rw [patternComments, List.forall₂_map_right_iff, List.forall₂_same]
  intro u hu
  exact tells_commentOf (isIn_of_mem_found hfinders (hcover.among u hu)).1

/-- A line comment behind two bytes that are one character, with the opening of a block. -/
def nestedText : String := "ü // see /* this */\n"

/-- The block within the line comment is no comment of its own. -/
theorem Extractor.comments_tell_cover_nested :
    machineEngine.Sound ∧ ∃ x finders us, Extractor.ofRuleBy? machineEngine cRule = some x ∧
      cRule.compile? machineEngine = some finders ∧
      x.extract "a.c" nestedText .standard =
        some [⟨"a.c", "// see /* this */", 1, .note, false⟩] ∧
      commentsByBytes finders "a.c" nestedText .standard =
        some [⟨"a.c", "// see /* this */", 1, .note, false⟩] ∧
      IsCover (found finders nestedText.toList) us ∧
      List.Forall₂ (Tells "a.c" nestedText.toList .standard) us
        [⟨"a.c", "// see /* this */", 1, .note, false⟩] := by
  have hrule : cRule ∈ builtinRules := by decide
  obtain ⟨x, hx⟩ := exists_ofRule? hrule
  obtain ⟨finders, us, comments, hread, hextract, hbytes, hcover, htells, -⟩ :=
    Extractor.comments_tell_cover sound_machineEngine hx "a.c" nestedText .standard
  have hcomments : (Extractor.ofRule? cRule).bind (·.extract "a.c" nestedText .standard) =
      some [⟨"a.c", "// see /* this */", 1, .note, false⟩] :=
    extract_of_sorted hrule (by decide +kernel) (by decide +kernel)
  rw [hx, Option.bind_some, hextract, Option.some.injEq] at hcomments
  subst hcomments
  exact ⟨sound_machineEngine, x, finders, us, hx, hread, hextract, hbytes, hcover, htells⟩

end Marginalia.Language
