import Mathlib.Algebra.GroupWithZero.Nat
import Marginalia.Note.Id

set_option autoImplicit false

/-!
# Identifiers read back

The canonical text of an identifier is read back as the identifier, so two
identifiers with one text are the same.
-/

namespace Marginalia.NoteId

open Marginalia.Text

/-! ## Digits -/

theorem digit?_hexDigit (d : Fin 16) : digit? (hexDigit d.val) = some d := by
  have all : ∀ d : Fin 16, digit? (hexDigit d.val) = some d := by decide
  exact all d

theorem mapM_digit?_hexDigit (digits : List (Fin 16)) :
    (digits.map fun d => hexDigit d.val).mapM digit? = some digits := by
  induction digits with
  | nil => rfl
  | cons d digits ih =>
    rw [List.map_cons, List.mapM_cons, digit?_hexDigit, ih]
    rfl

theorem ofDigits?_hexDigits (id : NoteId) :
    ofDigits? (id.digits.map fun d => hexDigit d.val) = some id := by
  rw [ofDigits?, mapM_digit?_hexDigit]
  exact dif_pos id.length_digits

/-! ## Hyphens -/

/-- Taking the hyphens out undoes putting them in. -/
theorem unhyphenate?_hyphenate {sizes : List Nat} {s : List Char} (h : s.length = sizes.sum) :
    unhyphenate? sizes (hyphenate sizes s) = some s := by
  induction sizes generalizing s with
  | nil =>
    rw [List.length_eq_zero_iff.1 h]
    rfl
  | cons size sizes ih =>
    cases sizes with
    | nil =>
      rw [List.sum_cons, List.sum_nil, Nat.add_zero] at h
      exact if_pos h
    | cons next more =>
      rw [List.sum_cons] at h
      have hlen : (s.take size).length = size := by
        rw [List.length_take]
        omega
      have hrest : (s.drop size).length = (next :: more).sum := by
        rw [List.length_drop]
        omega
      have hdrop : (s.take size ++ '-' :: hyphenate (next :: more) (s.drop size)).drop size =
          '-' :: hyphenate (next :: more) (s.drop size) := by
        rw [List.drop_append_of_le_length (by omega), List.drop_of_length_le (by omega),
          List.nil_append]
      have htake : (s.take size ++ '-' :: hyphenate (next :: more) (s.drop size)).take size =
          s.take size := by
        rw [List.take_append_of_le_length (by omega), List.take_of_length_le (by omega)]
      simp only [hyphenate, unhyphenate?, hdrop, htake, ih hrest, Option.map_some,
        List.take_append_drop]

theorem length_hyphenate {sizes : List Nat} {s : List Char} (hne : sizes ≠ [])
    (h : s.length = sizes.sum) : (hyphenate sizes s).length + 1 = s.length + sizes.length := by
  induction sizes generalizing s with
  | nil => exact absurd rfl hne
  | cons size sizes ih =>
    cases sizes with
    | nil => rfl
    | cons next more =>
      rw [List.sum_cons] at h
      have hrest := ih (s := s.drop size) (by simp) (by rw [List.length_drop]; omega)
      rw [List.length_drop] at hrest
      simp only [hyphenate, List.length_append, List.length_take, List.length_cons] at *
      omega

/-! ## Whole identifiers -/

/-- An identifier is read from its canonical text. -/
theorem read?_toText (id : NoteId) : read? id.toText = some id := by
  have hdigits : (id.digits.map fun d => hexDigit d.val).length = groupSizes.sum := by
    rw [List.length_map, id.length_digits]
    rfl
  have hlen : (hyphenate groupSizes (id.digits.map fun d => hexDigit d.val)).length = 36 := by
    have := length_hyphenate (by decide) hdigits
    rw [hdigits] at this
    simp only [groupSizes, List.sum_cons, List.sum_nil, List.length_cons, List.length_nil] at *
    omega
  simp only [read?, toText, String.toList_ofList, hlen]
  simp only [ofHyphenated?, unhyphenate?_hyphenate hdigits, Option.bind_some, ofDigits?_hexDigits]
  rfl

theorem toText_injective {a b : NoteId} (h : a.toText = b.toText) : a = b := by
  have hread := read?_toText a
  rw [h, read?_toText b] at hread
  exact (Option.some.inj hread).symm

@[simp] theorem toText_inj {a b : NoteId} : a.toText = b.toText ↔ a = b :=
  ⟨toText_injective, congrArg toText⟩

end Marginalia.NoteId
