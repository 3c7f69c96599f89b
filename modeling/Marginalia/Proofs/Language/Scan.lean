import Marginalia.Language.Selection
import Marginalia.Proofs.Pattern.Run
import Marginalia.Proofs.Pattern.Search

set_option autoImplicit false

/-!
# Choosing matches and scanning a text

A scan goes through a text once and takes, at the first place where some pattern
matches, the longest match there.  The choice among the matches that the patterns
find, each on its own, comes to the same unless a match is hidden: a pattern goes
on behind a match of its own even when that one is not taken, and so never finds a
match that starts in it.  The two agree exactly on the texts in which the scan
takes no match that is hidden from all of its patterns.  This is so whenever the
matches that are not taken lie within ones that are.
-/

namespace Marginalia.Language

open Marginalia.Pattern (Cursor Fence IsLeftmost Machine Span leftmost)

/-! ## The scan -/

/-- The further of two ends. -/
def furthest : Option Cursor → Option Cursor → Option Cursor
  | some p, some q => if p.offset < q.offset then some q else some p
  | some p, none => some p
  | none, q => q

/-- Where the longest match at a place ends. -/
def longestAt? (patterns : List Machine) (length : Nat) (p : Cursor) : Option Cursor :=
  (patterns.map (·.endAt? length p)).foldr furthest none

/-- The matches that one scan of a text takes: at the first place from the end of
the match before at which some pattern matches, the longest match. -/
def scan (patterns : List Machine) (text : List Char) : List Span :=
  leftmost (longestAt? patterns text.length) text (.start text) 0

/-- Whether a match is hidden: every pattern that it is a match of found another
match before, and went on behind the place where this one starts. -/
def Hidden (patterns : List Machine) (text : List Char) (u : Span) : Prop :=
  ∀ m ∈ patterns, m.endAt? text.length u.first = some u.last →
    ∃ s ∈ m.spans text,
      s.first.offset < u.first.offset ∧ u.first.offset < s.last.offset

/-! ## Longest matches -/

theorem furthest_eq_or (a b : Option Cursor) : furthest a b = a ∨ furthest a b = b := by
  cases a with
  | none => exact .inr rfl
  | some p =>
    cases b with
    | none => exact .inl rfl
    | some q =>
      simp only [furthest]
      split
      · exact .inr rfl
      · exact .inl rfl

theorem le_furthest_left {p : Cursor} (b : Option Cursor) :
    ∃ r, furthest (some p) b = some r ∧ p.offset ≤ r.offset := by
  cases b with
  | none => exact ⟨p, rfl, Nat.le_refl _⟩
  | some q =>
    simp only [furthest]
    split
    · rename_i hlt
      exact ⟨q, rfl, Nat.le_of_lt hlt⟩
    · exact ⟨p, rfl, Nat.le_refl _⟩

theorem le_furthest_right {q : Cursor} (a : Option Cursor) :
    ∃ r, furthest a (some q) = some r ∧ q.offset ≤ r.offset := by
  cases a with
  | none => exact ⟨q, rfl, Nat.le_refl _⟩
  | some p =>
    simp only [furthest]
    split
    · exact ⟨q, rfl, Nat.le_refl _⟩
    · rename_i hge
      exact ⟨p, rfl, Nat.le_of_not_lt hge⟩

/-- The longest match at a place is a match of one of the patterns. -/
theorem exists_of_longestAt? {patterns : List Machine} {length : Nat} {p q : Cursor}
    (h : longestAt? patterns length p = some q) :
    ∃ m ∈ patterns, m.endAt? length p = some q := by
  induction patterns with
  | nil => cases h
  | cons m patterns ih =>
    have hstep : longestAt? (m :: patterns) length p =
        furthest (m.endAt? length p) (longestAt? patterns length p) := rfl
    rcases furthest_eq_or (m.endAt? length p) (longestAt? patterns length p) with hthis | hlater
    · rw [hstep, hthis] at h
      exact ⟨m, List.mem_cons_self, h⟩
    · rw [hstep, hlater] at h
      obtain ⟨m', hm', hend⟩ := ih h
      exact ⟨m', List.mem_cons_of_mem _ hm', hend⟩

/-- No match at a place is longer than the longest one. -/
theorem exists_longestAt? {patterns : List Machine} {length : Nat} {m : Machine} {p q : Cursor}
    (hm : m ∈ patterns) (h : m.endAt? length p = some q) :
    ∃ r, longestAt? patterns length p = some r ∧ q.offset ≤ r.offset := by
  induction patterns with
  | nil => exact absurd hm List.not_mem_nil
  | cons m' patterns ih =>
    have hstep : longestAt? (m' :: patterns) length p =
        furthest (m'.endAt? length p) (longestAt? patterns length p) := rfl
    rw [hstep]
    rcases List.mem_cons.1 hm with rfl | hm
    · rw [h]
      exact le_furthest_left _
    · obtain ⟨r, hr, hle⟩ := ih hm
      rw [hr]
      obtain ⟨r', hr', hle'⟩ := le_furthest_right (m'.endAt? length p)
      exact ⟨r', hr', Nat.le_trans hle hle'⟩

/-! ## The choice among spans -/

/-- Whether a span stands for another: the other starts within it, and is not longer
when both start at one place. -/
def Covers (u s : Span) : Prop :=
  u.first.offset ≤ s.first.offset ∧ s.first.offset < u.last.offset ∧
    (u.first.offset = s.first.offset → s.last.offset ≤ u.last.offset)

theorem comesFirst_iff (a b : Span) :
    comesFirst a b = true ↔ a.first.offset < b.first.offset ∨
      (a.first.offset = b.first.offset ∧ b.last.offset ≤ a.last.offset) := by
  simp only [comesFirst, Bool.or_eq_true, Bool.and_eq_true, decide_eq_true_eq, beq_iff_eq]

theorem disjointFrom_subset (covered : Nat) (l : List Span) : disjointFrom covered l ⊆ l := by
  induction l generalizing covered with
  | nil => exact List.Subset.refl _
  | cons a l ih =>
    unfold disjointFrom
    split
    · exact List.subset_cons_of_subset a (ih covered)
    · exact List.cons_subset_cons a (ih a.last.offset)

/-- Spans that stand for all of some spans that start at or after an offset: they do
not overlap, are among the others, and each of the others starts within one. -/
structure StandFor (covered : Nat) (us l : List Span) : Prop where
  sorted : l.Pairwise fun a b => comesFirst a b = true
  apart : us.Pairwise fun a b => a.last.offset ≤ b.first.offset
  among : ∀ u ∈ us, u ∈ l ∧ covered ≤ u.first.offset ∧ u.first.offset < u.last.offset
  covers : ∀ s ∈ l, covered ≤ s.first.offset → ∃ u ∈ us, Covers u s
  same : ∀ u ∈ us, ∀ s ∈ l, u.first.offset = s.first.offset →
    u.last.offset = s.last.offset → u = s

namespace StandFor

variable {covered : Nat} {us l : List Span} {a : Span}

/-- A span that starts too early can be left out. -/
theorem skip (h : StandFor covered us (a :: l)) (hbefore : a.first.offset < covered) :
    StandFor covered us l := by
  refine ⟨h.sorted.tail, h.apart, ?_, ?_, ?_⟩
  · intro u hu
    obtain ⟨hul, hfrom, hlt⟩ := h.among u hu
    rcases List.mem_cons.1 hul with rfl | hul
    · exact absurd hfrom (Nat.not_le_of_lt hbefore)
    · exact ⟨hul, hfrom, hlt⟩
  · intro s hs
    exact h.covers s (List.mem_cons_of_mem a hs)
  · intro u hu s hs
    exact h.same u hu s (List.mem_cons_of_mem a hs)

theorem eq_or_comesFirst (h : StandFor covered us (a :: l)) {u : Span} (hu : u ∈ us) :
    u = a ∨ comesFirst a u = true := by
  rcases List.mem_cons.1 (h.among u hu).1 with rfl | hul
  · exact .inl rfl
  · exact .inr (List.rel_of_pairwise_cons h.sorted hul)

/-- The first of the given spans stands for itself, unless it starts too early. -/
theorem head_mem (h : StandFor covered us (a :: l)) (hfrom : covered ≤ a.first.offset) :
    a ∈ us := by
  obtain ⟨u, hu, hle, hinside, hlonger⟩ := h.covers a List.mem_cons_self hfrom
  rcases h.eq_or_comesFirst hu with rfl | hau
  · exact hu
  · rw [comesFirst_iff] at hau
    have : u = a := h.same u hu a List.mem_cons_self (by omega) (by omega)
    rwa [← this]

/-- It is then the first of those that stand for the others. -/
theorem eq_cons (h : StandFor covered us (a :: l)) (hfrom : covered ≤ a.first.offset) :
    ∃ later, us = a :: later := by
  have ha := h.head_mem hfrom
  cases us with
  | nil => cases ha
  | cons u us =>
    rcases List.mem_cons.1 ha with rfl | ha
    · exact ⟨us, rfl⟩
    · -- the first of the spans would start after the least one
      have hapart := List.rel_of_pairwise_cons h.apart ha
      have hlt := (h.among u List.mem_cons_self).2.2
      rcases h.eq_or_comesFirst List.mem_cons_self with rfl | hau
      · exact ⟨us, rfl⟩
      · rw [comesFirst_iff] at hau
        omega

/-- The others stand for those that start at or after its end. -/
theorem take (h : StandFor covered (a :: us) (a :: l)) : StandFor a.last.offset us l := by
  obtain ⟨hapart, hlater⟩ := List.pairwise_cons.1 h.apart
  obtain ⟨-, hfrom, hlt⟩ := h.among a List.mem_cons_self
  refine ⟨h.sorted.tail, hlater, ?_, ?_, ?_⟩
  · intro u hu
    obtain ⟨hul, -, hult⟩ := h.among u (List.mem_cons_of_mem a hu)
    have hle := hapart u hu
    rcases List.mem_cons.1 hul with rfl | hul
    · omega
    · exact ⟨hul, hle, hult⟩
  · intro s hs hle
    obtain ⟨u, hu, hcovers⟩ := h.covers s (List.mem_cons_of_mem a hs) (by omega)
    rcases List.mem_cons.1 hu with rfl | hu
    · exact absurd hle (Nat.not_le_of_lt hcovers.2.1)
    · exact ⟨u, hu, hcovers⟩
  · intro u hu s hs
    exact h.same u (List.mem_cons_of_mem a hu) s (List.mem_cons_of_mem a hs)

/-- Spans that stand for all that are given are the ones chosen. -/
theorem disjointFrom_eq (h : StandFor covered us l) : disjointFrom covered l = us := by
  induction l generalizing us covered with
  | nil =>
    cases us with
    | nil => rfl
    | cons u us => exact absurd (h.among u List.mem_cons_self).1 List.not_mem_nil
  | cons a l ih =>
    unfold disjointFrom
    split
    · rename_i hbefore
      exact ih (h.skip hbefore)
    · rename_i hfrom
      obtain ⟨later, rfl⟩ := h.eq_cons (Nat.le_of_not_lt hfrom)
      rw [ih h.take]

end StandFor

/-! ## What finders find -/

/-- Whether all that a finder finds is a part of the text it is given. -/
def Finder.Sound (find : Finder) : Prop :=
  ∀ text, ∀ s ∈ find text, s.first.IsIn text ∧ s.last.IsIn text

/-- Whether all finders of an engine find parts of texts. -/
def Engine.Sound (engine : Engine) : Prop :=
  ∀ o pattern find, engine o pattern = some find → find.Sound

theorem mem_found {finders : List Finder} {text : List Char} {s : Span} :
    s ∈ found finders text ↔
      (∃ find ∈ finders, s ∈ find text) ∧ s.first.offset < s.last.offset := by
  rw [found, List.mem_filter, List.mem_flatMap, decide_eq_true_iff]

theorem mem_candidates {finders : List Finder} {text : List Char} {s : Span} :
    s ∈ candidates finders text ↔ s ∈ found finders text := by
  rw [candidates, List.mem_mergeSort]

theorem pairwise_candidates (finders : List Finder) (text : List Char) :
    (candidates finders text).Pairwise fun a b => comesFirst a b = true := by
  apply List.pairwise_mergeSort
  · intro a b c hab hbc
    rw [comesFirst_iff] at *
    omega
  · intro a b
    rw [Bool.or_eq_true, comesFirst_iff, comesFirst_iff]
    omega

section Sound

variable {finders : List Finder} {text : List Char} (hfinders : ∀ find ∈ finders, find.Sound)
include hfinders

theorem isIn_of_mem_found {s : Span} (hs : s ∈ found finders text) :
    s.first.IsIn text ∧ s.last.IsIn text := by
  obtain ⟨⟨find, hfind, hs⟩, -⟩ := mem_found.1 hs
  exact hfinders find hfind text s hs

/-- All that finders find is known by where it starts and where it ends. -/
theorem eq_of_mem_found {a b : Span} (ha : a ∈ found finders text) (hb : b ∈ found finders text)
    (hfirst : a.first.offset = b.first.offset) (hlast : a.last.offset = b.last.offset) : a = b := by
  obtain ⟨hfirstA, hlastA⟩ := isIn_of_mem_found hfinders ha
  obtain ⟨hfirstB, hlastB⟩ := isIn_of_mem_found hfinders hb
  exact Span.eq_of_offsets hfirstA hlastA hfirstB hlastB hfirst hlast

end Sound

/-! ## Machines as finders -/

variable {patterns : List Machine} {text : List Char}

theorem sound_spans (m : Machine) : Finder.Sound m.spans := by
  intro text s hs
  have hmatch := Machine.isMatch_of_mem_spans hs
  exact ⟨hmatch.isIn, hmatch.isIn_last⟩

theorem sound_machineEngine : machineEngine.Sound := by
  intro o pattern find hfind
  obtain ⟨m, -, rfl⟩ := Option.map_eq_some_iff.1 hfind
  exact sound_spans m

theorem sound_of_mem_spans : ∀ find ∈ patterns.map (·.spans), Finder.Sound find :=
  List.forall_mem_map.2 fun m _ => sound_spans m

theorem found_spans (patterns : List Machine) (text : List Char) :
    found (patterns.map (·.spans)) text = patterns.flatMap (·.spans text) := by
  rw [found, List.flatMap_map, List.filter_eq_self]
  intro s hs
  obtain ⟨m, -, hs⟩ := List.mem_flatMap.1 hs
  exact decide_eq_true (Machine.isMatch_of_mem_spans hs).nonempty

theorem mem_found_spans {s : Span} :
    s ∈ found (patterns.map (·.spans)) text ↔ ∃ m ∈ patterns, s ∈ m.spans text := by
  rw [found_spans, List.mem_flatMap]

/-! ## The choice and the scan -/

section Fenced

variable (hpatterns : ∀ m ∈ patterns, ∃ f, m.IsFence f)
include hpatterns

theorem isLeftmost_scan (text : List Char) :
    IsLeftmost (longestAt? patterns text.length) text 0 (scan patterns text) := by
  apply Pattern.isLeftmost_leftmost
  intro p q hp hq
  obtain ⟨m, hm, hend⟩ := exists_of_longestAt? hq
  obtain ⟨f, hf⟩ := hpatterns m hm
  exact Machine.endAt?_isIn hf hp hend

/-- What the patterns find are matches, with at least one character each. -/
theorem found_isMatch {s : Span} (hs : s ∈ found (patterns.map (·.spans)) text) :
    ∃ m ∈ patterns, s ∈ m.spans text ∧ s.first.IsIn text ∧
      m.endAt? text.length s.first = some s.last ∧ s.first.offset < s.last.offset := by
  obtain ⟨m, hm, hs⟩ := mem_found_spans.1 hs
  obtain ⟨f, hf⟩ := hpatterns m hm
  exact ⟨m, hm, hs, ((Machine.isLeftmost_spans hf text).sound s hs).2⟩

/-- The scan takes a match that stands for one that a pattern finds. -/
theorem exists_covers {s : Span} (hs : s ∈ found (patterns.map (·.spans)) text) :
    ∃ u ∈ scan patterns text, Covers u s := by
  obtain ⟨m, hm, -, hin, hend, hlt⟩ := found_isMatch hpatterns hs
  obtain ⟨r, hr, hle⟩ := exists_longestAt? hm hend
  have hscan := isLeftmost_scan hpatterns text
  obtain ⟨u, hu, hbefore, hinside⟩ := hscan.covers s.first r (Nat.zero_le _) hin hr (by omega)
  refine ⟨u, hu, hbefore, hinside, ?_⟩
  intro hsame
  rw [hscan.eq_of_offset hu hin hr hsame]
  exact hle

/-- The scan takes a match that a pattern finds, unless the match is hidden. -/
theorem mem_found_iff_of_mem_scan {u : Span} (hu : u ∈ scan patterns text) :
    u ∈ found (patterns.map (·.spans)) text ↔ ¬Hidden patterns text u := by
  obtain ⟨-, hin, -, hlt⟩ := (isLeftmost_scan hpatterns text).sound u hu
  have hmem : ∀ m ∈ patterns, m.endAt? text.length u.first = some u.last →
      (u ∈ m.spans text ↔ ¬∃ s ∈ m.spans text,
        s.first.offset < u.first.offset ∧ u.first.offset < s.last.offset) := by
    intro m hm hend
    obtain ⟨f, hf⟩ := hpatterns m hm
    exact (Machine.isLeftmost_spans hf text).mem_iff (Nat.zero_le _) hin hend hlt
  constructor
  · intro hfound hhidden
    obtain ⟨m, hm, hspan, -, hend, -⟩ := found_isMatch hpatterns hfound
    exact (hmem m hm hend).1 hspan (hhidden m hm hend)
  · intro hseen
    apply Classical.byContradiction
    intro hmissing
    apply hseen
    intro m hm hend
    apply Classical.byContradiction
    intro houtside
    exact hmissing (mem_found_spans.2 ⟨m, hm, (hmem m hm hend).2 houtside⟩)

/-- The choice is the scan exactly when the scan takes nothing hidden. -/
theorem selected_eq_scan_iff_of_fences (text : List Char) :
    selected (patterns.map (·.spans)) text = scan patterns text ↔
      ∀ u ∈ scan patterns text, ¬Hidden patterns text u := by
  have hscan := isLeftmost_scan hpatterns text
  constructor
  · intro hsame u hu
    rw [← mem_found_iff_of_mem_scan hpatterns hu, ← mem_candidates]
    apply disjointFrom_subset 0
    unfold selected at hsame
    rwa [hsame]
  · intro hseen
    have hmem : ∀ u ∈ scan patterns text, u ∈ found (patterns.map (·.spans)) text := by
      intro u hu
      exact (mem_found_iff_of_mem_scan hpatterns hu).2 (hseen u hu)
    apply StandFor.disjointFrom_eq
    refine ⟨pairwise_candidates _ text, hscan.apart, ?_, ?_, ?_⟩
    · intro u hu
      exact ⟨mem_candidates.2 (hmem u hu), Nat.zero_le _, (hscan.sound u hu).2.2.2⟩
    · intro s hs _
      exact exists_covers hpatterns (mem_candidates.1 hs)
    · intro u hu s hs
      exact eq_of_mem_found sound_of_mem_spans (hmem u hu) (mem_candidates.1 hs)

/-- Where all that the patterns find lies within what the scan takes, nothing that
the scan takes is hidden. -/
theorem not_hidden_of_nested (hnested : ∀ s ∈ found (patterns.map (·.spans)) text,
      ∃ u ∈ scan patterns text, u.first.offset ≤ s.first.offset ∧ s.last.offset ≤ u.last.offset)
    {u : Span} (hu : u ∈ scan patterns text) : ¬Hidden patterns text u := by
  intro hhidden
  have hscan := isLeftmost_scan hpatterns text
  obtain ⟨m, hm, hend⟩ := exists_of_longestAt? (hscan.sound u hu).2.2.1
  obtain ⟨s, hs, hbefore, hinside⟩ := hhidden m hm hend
  obtain ⟨v, hv, hfirst, hlast⟩ := hnested s (mem_found_spans.2 ⟨m, hm, hs⟩)
  have := hscan.last_le hv hu (by omega)
  omega

end Fenced

/-- The scan for one pattern takes what the pattern finds. -/
theorem scan_singleton {m : Machine} {f : Fence} (hm : m.IsFence f) (text : List Char) :
    scan [m] text = m.spans text := by
  have hends : longestAt? [m] text.length = m.endAt? text.length := by
    funext p
    cases hend : m.endAt? text.length p with
    | none => simp only [longestAt?, List.map, List.foldr, furthest, hend]
    | some q => simp only [longestAt?, List.map, List.foldr, furthest, hend]
  rw [Machine.spans_eq_leftmost hm, scan, hends]

/-- One pattern alone hides nothing that the scan takes. -/
theorem not_hidden_of_singleton {m : Machine} {f : Fence} (hm : m.IsFence f) {u : Span}
    (hu : u ∈ scan [m] text) : ¬Hidden [m] text u := by
  rw [scan_singleton hm] at hu
  intro hhidden
  have hspans := Machine.isLeftmost_spans hm text
  obtain ⟨s, hs, hbefore, hinside⟩ := hhidden m List.mem_cons_self (hspans.sound u hu).2.2.1
  exact absurd (hspans.last_le hs hu hbefore) (Nat.not_le_of_lt hinside)

end Marginalia.Language
