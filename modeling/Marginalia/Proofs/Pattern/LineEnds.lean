import Marginalia.Proofs.Pattern.Search
import Marginalia.Proofs.Text.LineEnds

set_option autoImplicit false

/-!
# Fences and line ends

A text and the same text with carriage returns in front of its line feeds have the same
places, but for one more between the two characters of each line end.  A fence whose opening
and closing know of no line end, except as the start of a line, is opened and closed at the
same places of both.  Only a filler that goes on up to the end of the line takes the carriage
return with it.
-/

namespace Marginalia.Pattern

open Marginalia.Text

variable {text : List Char}

/-! ## Places -/

namespace Cursor

/-- The same place of the text with carriage returns. -/
def returned (p : Cursor) : Cursor := ⟨p.offset + p.row, p.row, p.before, withReturns p.rest⟩

/-- The same place, or the one behind the carriage return if a line ends there. -/
def returnedAfter (p : Cursor) : Cursor :=
  match p.rest with
  | '\n' :: rest => p.returned.advance '\r' ('\n' :: withReturns rest)
  | _ => p.returned

theorem returned_start (text : List Char) :
    (start text).returned = start (withReturns text) := rfl

theorem returned_advance {c : Char} (h : c ≠ '\n') (p : Cursor) (rest : List Char) :
    (p.advance c rest).returned = p.returned.advance c (withReturns rest) := by
  simp only [returned, advance, if_neg h]
  congr 1
  omega

theorem returned_advance_newline (p : Cursor) (rest : List Char) :
    (p.advance '\n' rest).returned =
      (p.returned.advance '\r' ('\n' :: withReturns rest)).advance '\n' (withReturns rest) := by
  simp only [returned, advance, if_true]
  congr 1
  omega

variable {p q : Cursor}

theorem IsIn.row_le (hp : p.IsIn text) (hq : q.IsIn text) (h : p.offset ≤ q.offset) :
    p.row ≤ q.row := by
  rw [hp.row_add hq h]
  exact Nat.le_add_right _ _

/-- The places keep their order. -/
theorem IsIn.returned_lt_iff (hp : p.IsIn text) (hq : q.IsIn text) :
    p.returned.offset < q.returned.offset ↔ p.offset < q.offset := by
  have hrow := hp.row_le hq
  have hrow' := hq.row_le hp
  simp only [Cursor.returned]
  omega

theorem returnedAfter_newline {rest : List Char} (h : p.rest = '\n' :: rest) :
    p.returnedAfter = p.returned.advance '\r' ('\n' :: withReturns rest) := by
  simp only [returnedAfter, h]

theorem returnedAfter_of_ne (h : p.rest.head? ≠ some '\n') : p.returnedAfter = p.returned := by
  unfold returnedAfter
  split
  · rename_i rest hrest
    rw [hrest] at h
    exact absurd rfl h
  · rfl

theorem returned_le_returnedAfter (p : Cursor) :
    p.returned.offset ≤ p.returnedAfter.offset ∧
      p.returnedAfter.offset ≤ p.returned.offset + 1 := by
  unfold returnedAfter
  split
  · exact ⟨Nat.le_succ _, Nat.le_refl _⟩
  · exact ⟨Nat.le_refl _, Nat.le_succ _⟩

/-- No place but that of a line end is put in front of another by the carriage return. -/
theorem IsIn.returned_lt_returnedAfter_iff (hp : p.IsIn text) (hq : q.IsIn text)
    (h : p.rest.head? ≠ some '\n') :
    p.returned.offset < q.returnedAfter.offset ↔ p.offset < q.offset := by
  have hlt := hp.returned_lt_iff hq
  have hlt' := hq.returned_lt_iff hp
  obtain ⟨hle, hle'⟩ := q.returned_le_returnedAfter
  constructor
  · intro hbefore
    by_contra hnot
    rcases Nat.lt_or_eq_of_le (Nat.le_of_not_lt hnot) with hbehind | hsame
    · have := hlt'.2 hbehind
      omega
    · obtain rfl := hq.eq_of_offset hp hsame
      rw [returnedAfter_of_ne h] at hbefore
      exact absurd hbefore (Nat.lt_irrefl _)
  · intro hbefore
    exact Nat.lt_of_lt_of_le (hlt.2 hbefore) hle

end Cursor

/-! ## Steps -/

namespace Step

/-- Whether a step knows of no line end except as the start of a line. -/
def isPlain : Step → Bool
  | .char s => !s.holds '\r' && !s.holds '\n'
  | .anchor a => a == .lineStart

/-- Whether a step reads a character. -/
def reads : Step → Bool
  | .char _ => true
  | .anchor _ => false

theorem isPlain_char {s : CharSet} (h : (Step.char s).isPlain = true) :
    s.holds '\r' = false ∧ s.holds '\n' = false := by
  simpa [isPlain] using h

theorem isPlain_anchor {a : Anchor} (h : (Step.anchor a).isPlain = true) : a = .lineStart := by
  simpa [isPlain] using h

end Step

variable {steps : List Step} {p : Cursor} {rest : List Char}

/-- Steps lead to the same places of both texts. -/
theorem follow_returned (h : steps.all Step.isPlain = true) (p : Cursor) :
    follow steps p.returned = (follow steps p).map Cursor.returned := by
  induction steps generalizing p with
  | nil => rfl
  | cons step steps ih =>
    rw [List.all_cons, Bool.and_eq_true] at h
    cases step with
    | anchor a =>
      obtain rfl := Step.isPlain_anchor h.1
      have hholds : Anchor.holds .lineStart p.returned = Anchor.holds .lineStart p := rfl
      rw [follow, follow, hholds]
      split
      · exact ih h.2 p
      · rfl
    | char s =>
      obtain ⟨hreturn, hline⟩ := Step.isPlain_char h.1
      cases hrest : p.rest with
      | nil => simp [follow, Cursor.returned, hrest, withReturns_nil]
      | cons c rest =>
        by_cases hc : c = '\n'
        · subst hc
          have hrest' : p.returned.rest = '\r' :: '\n' :: withReturns rest := by
            rw [Cursor.returned, hrest, withReturns_newline]
          simp [follow, hrest, hrest', hreturn, hline]
        · have hrest' : p.returned.rest = c :: withReturns rest := by
            rw [Cursor.returned, hrest, withReturns_cons hc]
          simp only [follow, hrest, hrest']
          split
          · rw [← Cursor.returned_advance hc]
            exact ih h.2 _
          · rfl

/-- Steps that read something do not lead on from a line feed. -/
theorem follow_newline (h : steps.all Step.isPlain = true) (hreads : steps.any Step.reads = true)
    (hrest : p.rest = '\n' :: rest) : follow steps p = none := by
  induction steps with
  | nil => cases hreads
  | cons step steps ih =>
    rw [List.all_cons, Bool.and_eq_true] at h
    cases step with
    | anchor a =>
      rw [follow]
      split
      · exact ih h.2 hreads
      · rfl
    | char s => simp [follow, hrest, (Step.isPlain_char h.1).2]

/-! ## Fences -/

namespace Fence

/-- Whether a fence is opened and closed without regard to how lines end: what opens and
closes it knows of no line end, and what is between may hold a carriage return.  A filler
that is as long as it can be ends with the line. -/
structure IsOfLines (f : Fence) : Prop where
  opens : f.opening.all Step.isPlain = true
  reads : f.opening.any Step.reads = true
  fills : f.filler.holds '\r' = true
  closes : f.closing.all Step.isPlain = true
  stops : if f.greedy then f.closing = [] ∧ f.filler.holds '\n' = false
    else f.closing.any Step.reads = true

instance (f : Fence) : Decidable f.IsOfLines :=
  decidable_of_iff
    (f.opening.all Step.isPlain = true ∧ f.opening.any Step.reads = true ∧
      f.filler.holds '\r' = true ∧ f.closing.all Step.isPlain = true ∧
      if f.greedy then f.closing = [] ∧ f.filler.holds '\n' = false
      else f.closing.any Step.reads = true)
    ⟨fun h => ⟨h.1, h.2.1, h.2.2.1, h.2.2.2.1, h.2.2.2.2⟩,
      fun h => ⟨h.opens, h.reads, h.fills, h.closes, h.stops⟩⟩

variable {f : Fence}

/-- Where a match ends in the text with carriage returns that ends at a place of the other. -/
def ended (f : Fence) (q : Cursor) : Cursor := if f.greedy then q.returnedAfter else q.returned

/-- The span of the text with carriage returns that a span of the other becomes. -/
def returnedSpan (f : Fence) (s : Span) : Span := ⟨s.first.returned, f.ended s.last⟩

theorem ended_eq (f : Fence) (q : Cursor) :
    f.ended q = q.returned ∨ f.ended q = q.returnedAfter := by
  unfold ended
  split
  · exact .inr rfl
  · exact .inl rfl

/-- A place is behind another in both texts, but for those at a line end. -/
theorem returned_lt_ended_iff {q : Cursor} (f : Fence) (hp : p.IsIn text) (hq : q.IsIn text)
    (h : p.rest.head? ≠ some '\n') :
    p.returned.offset < (f.ended q).offset ↔ p.offset < q.offset := by
  rcases f.ended_eq q with heq | heq
  · rw [heq]
    exact hp.returned_lt_iff hq
  · rw [heq]
    exact hp.returned_lt_returnedAfter_iff hq h

namespace IsOfLines

/-- A filler that is as short as it can be passes over a carriage return, as nothing closes
the fence before the line feed. -/
theorem insideEnd?_returned_short (hf : f.IsOfLines) (hshort : f.greedy = false)
    (rest : List Char) (p : Cursor) :
    f.insideEnd? (withReturns rest) p.returned =
      (f.insideEnd? rest p).map Cursor.returned := by
  have hreads : f.closing.any Step.reads = true := by
    have hstops := hf.stops
    rwa [hshort, if_neg Bool.false_ne_true] at hstops
  induction rest generalizing p with
  | nil => exact follow_returned hf.closes p
  | cons c rest ih =>
    by_cases hc : c = '\n'
    · subst hc
      have hwithin : follow f.closing (p.returned.advance '\r' ('\n' :: withReturns rest)) = none :=
        follow_newline hf.closes hreads rfl
      simp only [withReturns_newline, insideEnd?, hshort, hf.fills, hwithin, Bool.false_eq_true,
        if_false, if_true, Option.none_or, follow_returned hf.closes]
      rw [← Cursor.returned_advance_newline, ih]
      cases hline : f.filler.holds '\n' with
      | true => simp only [if_true, Option.map_or]
      | false => simp only [Bool.false_eq_true, if_false, Option.or_none]
    · simp only [withReturns_cons hc, insideEnd?, hshort, Bool.false_eq_true, if_false,
        follow_returned hf.closes]
      rw [← Cursor.returned_advance hc, ih]
      cases hfill : f.filler.holds c with
      | true => simp only [if_true, Option.map_or]
      | false => simp only [Bool.false_eq_true, if_false, Option.or_none]

/-- A filler that is as long as it can be takes the carriage return at the end of its line. -/
theorem insideEnd?_returned_long (hf : f.IsOfLines) (hlong : f.greedy = true)
    {rest : List Char} {p : Cursor} (hrest : p.rest = rest) :
    f.insideEnd? (withReturns rest) p.returned =
      (f.insideEnd? rest p).map Cursor.returnedAfter := by
  have hstops := hf.stops
  rw [hlong, if_pos rfl] at hstops
  obtain ⟨hclosing, hline⟩ := hstops
  induction rest generalizing p with
  | nil =>
    have hafter : p.returnedAfter = p.returned := Cursor.returnedAfter_of_ne (by simp [hrest])
    simp only [withReturns_nil, insideEnd?, hclosing, follow, Option.map_some, hafter]
  | cons c rest ih =>
    by_cases hc : c = '\n'
    · subst hc
      simp only [withReturns_newline, insideEnd?, hlong, hf.fills, hline, hclosing, follow,
        Bool.false_eq_true, if_false, if_true, Option.none_or, Option.some_or, Option.map_some,
        Cursor.returnedAfter_newline hrest]
    · have hafter : p.returnedAfter = p.returned :=
        Cursor.returnedAfter_of_ne (by simpa [hrest] using hc)
      simp only [withReturns_cons hc, insideEnd?, hlong, hclosing, follow, if_true]
      rw [← Cursor.returned_advance hc, ih rfl, Option.map_or, Option.map_some, hafter]
      cases hfill : f.filler.holds c with
      | true => simp only [if_true]
      | false => simp only [Bool.false_eq_true, if_false, Option.map_none]

/-- Matches start at the same places of both texts and end at places that stand for each
other. -/
theorem endAt?_returned (hf : f.IsOfLines) (p : Cursor) :
    f.endAt? p.returned = (f.endAt? p).map f.ended := by
  rw [endAt?, endAt?, follow_returned hf.opens]
  cases follow f.opening p with
  | none => rfl
  | some q =>
    rw [Option.map_some, Option.bind_some, Option.bind_some]
    cases hgreedy : f.greedy with
    | true =>
      have hended : f.ended = Cursor.returnedAfter := by
        funext r
        rw [ended, if_pos hgreedy]
      rw [hended]
      exact hf.insideEnd?_returned_long hgreedy rfl
    | false =>
      have hended : f.ended = Cursor.returned := by
        funext r
        rw [ended, hgreedy, if_neg Bool.false_ne_true]
      rw [hended]
      exact hf.insideEnd?_returned_short hgreedy q.rest q

/-- No match starts at a line feed. -/
theorem endAt?_newline (hf : f.IsOfLines) (hrest : p.rest = '\n' :: rest) : f.endAt? p = none := by
  rw [endAt?, follow_newline hf.opens hf.reads hrest, Option.bind_none]

/-- A match starts at no line end. -/
theorem head?_ne_newline (hf : f.IsOfLines) {q : Cursor} (h : f.endAt? p = some q) :
    p.rest.head? ≠ some '\n' := by
  intro hhead
  obtain ⟨rest, hrest⟩ := List.head?_eq_some_iff.1 hhead
  rw [hf.endAt?_newline hrest] at h
  cases h

end IsOfLines

end Fence

/-! ## Matches -/

theorem leftmost_of_none {ends : Cursor → Option Cursor} {c : Char} {rest : List Char}
    (h : ends p = none) (resume : Nat) :
    leftmost ends (c :: rest) p resume = leftmost ends rest (p.advance c rest) resume := by
  rw [leftmost]
  split
  · rfl
  · rw [h]

variable {f : Fence}

/-- The search finds matches that stand for each other from two places on that do, as long
as it resumes at places that do. -/
theorem Fence.IsOfLines.leftmost_returned (hf : f.IsOfLines) (hp : p.IsIn text)
    {resume resume' : Nat}
    (hresume : ∀ q : Cursor, q.IsIn text → q.rest.head? ≠ some '\n' →
      (q.returned.offset < resume' ↔ q.offset < resume)) :
    leftmost f.endAt? (withReturns p.rest) p.returned resume' =
      (leftmost f.endAt? p.rest p resume).map f.returnedSpan := by
  generalize hrest : p.rest = rest
  induction rest generalizing p resume resume' with
  | nil => rfl
  | cons c rest ih =>
    have hnext : (p.advance c rest).IsIn text := .advance hp hrest
    by_cases hc : c = '\n'
    · subst hc
      have hnone : f.endAt? p = none := hf.endAt?_newline hrest
      have hnone' : f.endAt? p.returned = none := by
        rw [hf.endAt?_returned, hnone, Option.map_none]
      rw [withReturns_newline, leftmost_of_none hnone', leftmost_of_none (hf.endAt?_newline rfl),
        leftmost_of_none hnone, ← Cursor.returned_advance_newline]
      exact ih hnext hresume rfl
    · have hhead : p.rest.head? ≠ some '\n' := by simpa [hrest] using hc
      have hskips := hresume p hp hhead
      simp only [withReturns_cons hc, leftmost, ← Cursor.returned_advance hc, hf.endAt?_returned]
      by_cases hskip : p.offset < resume
      · rw [if_pos hskip, if_pos (hskips.2 hskip)]
        exact ih hnext hresume rfl
      · rw [if_neg hskip, if_neg (hskips.not.2 hskip)]
        cases hend : f.endAt? p with
        | none => exact ih hnext hresume rfl
        | some q =>
          have hq := Fence.endAt?_isIn hp hend
          have hlonger := f.returned_lt_ended_iff hp hq hhead
          simp only [Option.map_some]
          by_cases hlong : p.offset < q.offset
          · rw [if_pos hlong, if_pos (hlonger.2 hlong), List.map_cons]
            refine congrArg _ (ih hnext (fun r hr hne => ?_) rfl)
            exact f.returned_lt_ended_iff hr hq hne
          · rw [if_neg hlong, if_neg (hlonger.not.2 hlong)]
            exact ih hnext hresume rfl

/-- What a pattern finds in the text with carriage returns stands for what it finds in the
other. -/
theorem Machine.spans_withReturns {m : Machine} (hm : m.IsFence f) (hf : f.IsOfLines)
    (text : List Char) : m.spans (withReturns text) = (m.spans text).map f.returnedSpan := by
  have hends : ∀ text : List Char, m.spans text = leftmost f.endAt? text (.start text) 0 := by
    intro text
    have hstart : (Cursor.start text).IsIn text := .start
    rw [spans_eq_leftmost hm]
    exact leftmost_congr hstart (fun q hq => endAt?_eq hm hq) 0
  have hstart : (Cursor.start text).IsIn text := .start
  rw [hends, hends, ← Cursor.returned_start]
  refine hf.leftmost_returned hstart fun q _ _ => ?_
  exact iff_of_false (Nat.not_lt_zero _) (Nat.not_lt_zero _)

end Marginalia.Pattern
