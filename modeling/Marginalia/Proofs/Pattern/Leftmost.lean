import Marginalia.Proofs.Pattern.Place
import Mathlib.Data.List.Pairwise

set_option autoImplicit false

/-!
# Leftmost matches

Going through a text from the left and taking every match that starts at or after
the end of the one taken before gives matches that do not overlap and leave no
match out, in the sense that every match starts within one that is taken.  So a
match is taken unless it starts inside one that is taken.
-/

namespace Marginalia.Pattern

/-- The leftmost matches from an offset on, when `ends` tells where a match that
starts at a place ends.  The list is the text after the place. -/
def leftmost (ends : Cursor → Option Cursor) : List Char → Cursor → Nat → List Span
  | [], _, _ => []
  | c :: rest, p, resume =>
    let next := p.advance c rest
    if p.offset < resume then leftmost ends rest next resume
    else
      match ends p with
      | some q =>
        if p.offset < q.offset then ⟨p, q⟩ :: leftmost ends rest next q.offset
        else leftmost ends rest next resume
      | none => leftmost ends rest next resume

theorem leftmost_congr {ends ends' : Cursor → Option Cursor} {text : List Char} {p : Cursor}
    (hp : p.IsIn text) (h : ∀ q, q.IsIn text → ends q = ends' q) (resume : Nat) :
    leftmost ends p.rest p resume = leftmost ends' p.rest p resume := by
  generalize hrest : p.rest = rest
  induction rest generalizing p resume with
  | nil => rfl
  | cons c rest ih =>
    have hnext : ∀ resume, leftmost ends rest (p.advance c rest) resume =
        leftmost ends' rest (p.advance c rest) resume := by
      intro resume
      exact ih (.advance hp hrest) resume rfl
    simp only [leftmost, h p hp, hnext]

/-- Spans that are the leftmost matches in a text from an offset on. -/
structure IsLeftmost (ends : Cursor → Option Cursor) (text : List Char) (start : Nat)
    (spans : List Span) : Prop where
  /-- each is a match with at least one character -/
  sound : ∀ s ∈ spans, start ≤ s.first.offset ∧
    s.first.IsIn text ∧ ends s.first = some s.last ∧ s.first.offset < s.last.offset
  /-- they do not overlap and are in order -/
  apart : spans.Pairwise fun a b => a.last.offset ≤ b.first.offset
  /-- every match starts within one of them -/
  covers : ∀ p q : Cursor, start ≤ p.offset → p.IsIn text → ends p = some q →
    p.offset < q.offset → ∃ s ∈ spans, s.first.offset ≤ p.offset ∧ p.offset < s.last.offset

variable {ends : Cursor → Option Cursor} {text : List Char}

/-! ## The search finds them -/

namespace IsLeftmost

variable {start : Nat} {spans : List Span}

/-- Where the text is at its end there is no match. -/
theorem nil (hends : ∀ p q : Cursor, p.IsIn text → ends p = some q → q.IsIn text)
    (hstart : text.length ≤ start) : IsLeftmost ends text start [] := by
  refine ⟨?_, List.Pairwise.nil, ?_⟩
  · intro s hs
    cases hs
  · intro p q hp hin hq hlt
    have := (hends p q hin hq).offset_add_length
    omega

/-- A place where no match starts is passed over. -/
theorem skip (h : IsLeftmost ends text (start + 1) spans)
    (hhere : ∀ p q : Cursor, p.offset = start → p.IsIn text → ends p = some q →
      ¬p.offset < q.offset) : IsLeftmost ends text start spans := by
  refine ⟨?_, h.apart, ?_⟩
  · intro s hs
    obtain ⟨hle, hmatch⟩ := h.sound s hs
    exact ⟨Nat.le_of_succ_le hle, hmatch⟩
  · intro p q hp hin hq hlt
    have hne : p.offset ≠ start := by
      intro heq
      exact hhere p q heq hin hq hlt
    exact h.covers p q (by omega) hin hq hlt

/-- A match is taken, and the search goes on where it ends. -/
theorem take {p q : Cursor} (h : IsLeftmost ends text q.offset spans) (hin : p.IsIn text)
    (hq : ends p = some q) (hlt : p.offset < q.offset) :
    IsLeftmost ends text p.offset (⟨p, q⟩ :: spans) := by
  refine ⟨?_, List.pairwise_cons.2 ⟨?_, h.apart⟩, ?_⟩
  · intro s hs
    rcases List.mem_cons.1 hs with rfl | hs
    · exact ⟨Nat.le_refl _, hin, hq, hlt⟩
    · obtain ⟨hle, hmatch⟩ := h.sound s hs
      exact ⟨by omega, hmatch⟩
  · intro s hs
    exact (h.sound s hs).1
  · intro r r' hr hrin hr' hlt'
    by_cases hinside : r.offset < q.offset
    · exact ⟨⟨p, q⟩, List.mem_cons_self, hr, hinside⟩
    · obtain ⟨s, hs, hcovered⟩ := h.covers r r' (by omega) hrin hr' hlt'
      exact ⟨s, List.mem_cons_of_mem _ hs, hcovered⟩

end IsLeftmost

/-- The search from a place and an offset on, by induction on the text that is left. -/
theorem isLeftmost_leftmost_max
    (hends : ∀ p q : Cursor, p.IsIn text → ends p = some q → q.IsIn text) {p : Cursor}
    (hp : p.IsIn text) (resume : Nat) :
    IsLeftmost ends text (max p.offset resume) (leftmost ends p.rest p resume) := by
  generalize hrest : p.rest = rest
  induction rest generalizing p resume with
  | nil =>
    have hend := hp.offset_add_length
    rw [hrest, List.length_nil] at hend
    exact .nil hends (by omega)
  | cons c rest ih =>
    have hnext : ∀ resume, IsLeftmost ends text (max (p.offset + 1) resume)
        (leftmost ends rest (p.advance c rest) resume) := by
      intro resume
      exact ih (.advance hp hrest) resume rfl
    simp only [leftmost]
    split
    · rename_i hbefore
      have hmax : max p.offset resume = max (p.offset + 1) resume := by omega
      rw [hmax]
      exact hnext resume
    · rename_i hfrom
      have hmax : max p.offset resume = p.offset := by omega
      have hmax' : max (p.offset + 1) resume = p.offset + 1 := by omega
      have hlater := hnext resume
      rw [hmax'] at hlater
      rw [hmax]
      cases hmatch : ends p with
      | none =>
        apply hlater.skip
        intro r q heq hin hq
        rw [hin.eq_of_offset hp heq, hmatch] at hq
        cases hq
      | some q =>
        simp only
        split
        · rename_i hlt
          have hlast : max (p.offset + 1) q.offset = q.offset := by omega
          have hbehind := hnext q.offset
          rw [hlast] at hbehind
          exact hbehind.take hp hmatch hlt
        · rename_i hempty
          apply hlater.skip
          intro r q' heq hin hq'
          rw [hin.eq_of_offset hp heq, hmatch, Option.some.injEq] at hq'
          rw [← hq', heq]
          exact hempty

theorem isLeftmost_leftmost
    (hends : ∀ p q : Cursor, p.IsIn text → ends p = some q → q.IsIn text) :
    IsLeftmost ends text 0 (leftmost ends text (.start text) 0) :=
  isLeftmost_leftmost_max hends .start 0

/-! ## Matches among them -/

/-- Whether one of two spans ends where the other starts or before. -/
def Span.Apart (a b : Span) : Prop :=
  a.last.offset ≤ b.first.offset ∨ b.last.offset ≤ a.first.offset

instance : Std.Symm Span.Apart := ⟨fun _ _ => Or.symm⟩

/-- Of spans that lie apart, the one that holds the start of another is this other. -/
theorem Span.eq_of_apart {spans : List Span}
    (hapart : spans.Pairwise fun a b => a.last.offset ≤ b.first.offset)
    (hnonempty : ∀ s ∈ spans, s.first.offset < s.last.offset) {a b : Span} (ha : a ∈ spans)
    (hb : b ∈ spans) (hle : a.first.offset ≤ b.first.offset)
    (hinside : b.first.offset < a.last.offset) : a = b := by
  apply Classical.byContradiction
  intro hne
  have hpairs : spans.Pairwise Span.Apart := hapart.imp Or.inl
  have hlt := hnonempty b hb
  rcases hpairs.forall ha hb hne with hbehind | hbefore
  · exact absurd hinside (Nat.not_lt_of_le hbehind)
  · omega

namespace IsLeftmost

variable {start : Nat} {spans : List Span}

/-- Two of the spans that start in order do not overlap. -/
theorem last_le (h : IsLeftmost ends text start spans) {a b : Span} (ha : a ∈ spans)
    (hb : b ∈ spans) (hlt : a.first.offset < b.first.offset) : a.last.offset ≤ b.first.offset := by
  apply Nat.le_of_not_lt
  intro hinside
  have hsame := Span.eq_of_apart h.apart (fun s hs => (h.sound s hs).2.2.2) ha hb
    (Nat.le_of_lt hlt) hinside
  rw [hsame] at hlt
  exact Nat.lt_irrefl _ hlt

/-- A span that starts where a match starts is this match. -/
theorem eq_of_offset (h : IsLeftmost ends text start spans) {s : Span} (hs : s ∈ spans)
    {p q : Cursor} (hp : p.IsIn text) (hq : ends p = some q) (hsame : s.first.offset = p.offset) :
    s = ⟨p, q⟩ := by
  obtain ⟨-, hin, hend, -⟩ := h.sound s hs
  have hfirst := hin.eq_of_offset hp hsame
  rw [hfirst, hq, Option.some.injEq] at hend
  rw [← hfirst, hend]

/-- A match is one of the spans unless it starts inside one of them. -/
theorem mem_iff (h : IsLeftmost ends text start spans) {p q : Cursor} (hstart : start ≤ p.offset)
    (hp : p.IsIn text) (hq : ends p = some q) (hlt : p.offset < q.offset) :
    ⟨p, q⟩ ∈ spans ↔ ¬∃ s ∈ spans, s.first.offset < p.offset ∧ p.offset < s.last.offset := by
  constructor
  · rintro hmem ⟨s, hs, hbefore, hinside⟩
    exact absurd (h.last_le hs hmem hbefore) (Nat.not_le_of_lt hinside)
  · intro houtside
    obtain ⟨s, hs, hle, hinside⟩ := h.covers p q hstart hp hq hlt
    rcases Nat.lt_or_eq_of_le hle with hbefore | hsame
    · exact absurd ⟨s, hs, hbefore, hinside⟩ houtside
    · rwa [← h.eq_of_offset hs hp hq hsame]

end IsLeftmost

end Marginalia.Pattern
