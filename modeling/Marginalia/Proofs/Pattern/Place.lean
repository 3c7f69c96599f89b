import Marginalia.Pattern.Match

set_option autoImplicit false

/-!
# Places of a text

The places of a text are its start and the place after each of its characters.
A place is known by its offset: there is only one for each.
-/

namespace Marginalia.Pattern

namespace Cursor

/-- The places of a text. -/
inductive IsIn (text : List Char) : Cursor → Prop
  | start : IsIn text (.start text)
  | advance {p : Cursor} {c : Char} {rest : List Char} (before : IsIn text p)
      (next : p.rest = c :: rest) : IsIn text (p.advance c rest)

variable {text : List Char} {p q : Cursor}

@[simp] theorem offset_start (text : List Char) : (start text).offset = 0 := rfl

@[simp] theorem rest_start (text : List Char) : (start text).rest = text := rfl

@[simp] theorem offset_advance (p : Cursor) (c : Char) (rest : List Char) :
    (p.advance c rest).offset = p.offset + 1 := rfl

@[simp] theorem rest_advance (p : Cursor) (c : Char) (rest : List Char) :
    (p.advance c rest).rest = rest := rfl

theorem IsIn.offset_add_length (h : p.IsIn text) : p.offset + p.rest.length = text.length := by
  induction h with
  | start => simp
  | advance _ next ih =>
    rw [next, List.length_cons] at ih
    rw [offset_advance, rest_advance]
    omega

theorem IsIn.offset_le (h : p.IsIn text) : p.offset ≤ text.length :=
  Nat.le.intro h.offset_add_length

theorem IsIn.drop_offset (h : p.IsIn text) : text.drop p.offset = p.rest := by
  induction h with
  | start => rfl
  | advance _ next ih =>
    rw [offset_advance, rest_advance, ← List.drop_drop, ih, next]
    rfl

/-- The row of a place is the number of line feeds before it. -/
theorem IsIn.row_eq (h : p.IsIn text) : p.row = (text.take p.offset).count '\n' := by
  induction h with
  | start => rfl
  | @advance p c rest before next ih =>
    have hnext : text[p.offset]? = some c := by
      rw [← List.head?_drop, before.drop_offset, next, List.head?_cons]
    rw [offset_advance, List.take_add_one, hnext, Option.toList_some, List.count_append, ← ih,
      List.count_singleton]
    simp only [Cursor.advance, beq_iff_eq]
    split <;> rfl

/-- Two places of a text with one offset are the same. -/
theorem IsIn.eq_of_offset (hp : p.IsIn text) (hq : q.IsIn text) (h : p.offset = q.offset) :
    p = q := by
  induction hp generalizing q with
  | start =>
    cases hq with
    | start => rfl
    | advance _ _ =>
      rw [offset_start, offset_advance] at h
      omega
  | advance _ next ih =>
    cases hq with
    | start =>
      rw [offset_start, offset_advance] at h
      omega
    | advance hq' next' =>
      rw [offset_advance, offset_advance] at h
      have hsame := ih hq' (by omega)
      subst hsame
      rw [next, List.cons.injEq] at next'
      rw [next'.1, next'.2]

/-- What is left after a place goes on with what is left after a later one. -/
theorem IsIn.take_append_rest (hp : p.IsIn text) (hq : q.IsIn text) (h : p.offset ≤ q.offset) :
    p.rest.take (q.offset - p.offset) ++ q.rest = p.rest := by
  have hdrop : p.rest.drop (q.offset - p.offset) = q.rest := by
    rw [← hp.drop_offset, ← hq.drop_offset, List.drop_drop, Nat.add_sub_cancel' h]
  rw [← hdrop, List.take_append_drop]

/-- The row of a later place is found by counting the line feeds in between. -/
theorem IsIn.row_add (hp : p.IsIn text) (hq : q.IsIn text) (h : p.offset ≤ q.offset) :
    q.row = p.row + (p.rest.take (q.offset - p.offset)).count '\n' := by
  rw [hp.row_eq, hq.row_eq, ← List.count_append, ← hp.drop_offset, ← List.take_add,
    Nat.add_sub_cancel' h]

end Cursor

/-- Two spans of a text with the same offsets are the same. -/
theorem Span.eq_of_offsets {text : List Char} {s t : Span} (hs : s.first.IsIn text)
    (hs' : s.last.IsIn text) (ht : t.first.IsIn text) (ht' : t.last.IsIn text)
    (hfirst : s.first.offset = t.first.offset) (hlast : s.last.offset = t.last.offset) :
    s = t := by
  cases s with
  | mk p q =>
    cases t with
    | mk p' q' =>
      have hp : p = p' := hs.eq_of_offset ht hfirst
      have hq : q = q' := hs'.eq_of_offset ht' hlast
      rw [hp, hq]

end Marginalia.Pattern
