import Mathlib.Data.String.Basic

set_option autoImplicit false

/-!
# Parts of a text by bytes

A text is kept in UTF-8, and a part of it is told by two numbers of bytes.  Not every
pair of numbers tells a part: each has to be that of a border between characters.  A
border that is told by the number of characters before it is told by one number of
bytes, and in the same order.
-/

namespace Marginalia.Text

open String (utf8Len)

/-- The part of a text between two numbers of bytes.  There is none when the second
comes before the first, when one is beyond the text, or when one is within a
character. -/
def slice? (text : String) (start stop : Nat) : Option String :=
  if start ≤ stop ∧ String.Pos.Raw.IsValid text ⟨start⟩ ∧ String.Pos.Raw.IsValid text ⟨stop⟩ then
    some (String.Pos.Raw.extract text ⟨start⟩ ⟨stop⟩)
  else none

/-- The number of bytes of so many characters at the start of a text. -/
def byteOffset (s : List Char) (count : Nat) : Nat := utf8Len (s.take count)

/-! ## Slices -/

theorem isValid_iff {text : String} {offset : Nat} :
    String.Pos.Raw.IsValid text ⟨offset⟩ ↔
      ∃ before after, text = before ++ after ∧ before.utf8ByteSize = offset := by
  rw [String.Pos.Raw.isValid_iff_exists_append]
  constructor
  · rintro ⟨before, after, hsplit, hoffset⟩
    exact ⟨before, after, hsplit, (congrArg String.Pos.Raw.byteIdx hoffset).symm⟩
  · rintro ⟨before, after, hsplit, rfl⟩
    exact ⟨before, after, hsplit, rfl⟩

/-- Of two starts of a text the one with fewer bytes is a start of the other. -/
theorem exists_eq_append_of_size_le {a a' b b' : String} (hsame : a ++ a' = b ++ b')
    (hle : a.utf8ByteSize ≤ b.utf8ByteSize) : ∃ part, b = a ++ part := by
  have hlists : a.toList ++ a'.toList = b.toList ++ b'.toList := by
    rw [← String.toList_append, ← String.toList_append, hsame]
  have ha : a.toList <+: b.toList ++ b'.toList := ⟨a'.toList, hlists⟩
  rcases List.prefix_or_prefix_of_prefix ha (List.prefix_append _ _) with hab | hba
  · obtain ⟨part, hpart⟩ := hab
    exact ⟨String.ofList part, by rw [← String.toList_inj, String.toList_append,
      String.toList_ofList, hpart]⟩
  · -- the start with more characters has no more bytes, so it has no more characters
    obtain ⟨part, hpart⟩ := hba
    have hsize := congrArg utf8Len hpart
    rw [String.utf8Len_append, String.utf8Len_toList, String.utf8Len_toList] at hsize
    have hnil : part = [] := String.utf8Len_eq_zero.1 (by omega)
    rw [hnil, List.append_nil] at hpart
    exact ⟨"", by rw [String.append_empty, String.toList_inj.1 hpart]⟩

theorem extract_append (before part after : String) :
    String.Pos.Raw.extract (before ++ part ++ after) ⟨before.utf8ByteSize⟩
      ⟨(before ++ part).utf8ByteSize⟩ = part := by
  have h := String.extract_of_valid before.toList part.toList after.toList
  rwa [String.ofList_append, String.ofList_append, String.ofList_toList, String.ofList_toList,
    String.ofList_toList, String.utf8Len_toList, String.utf8Len_toList,
    ← String.utf8ByteSize_append] at h

/-- A part is what stands between a start of the text and an end of it. -/
theorem slice?_eq_some_iff {text part : String} {start stop : Nat} :
    slice? text start stop = some part ↔
      ∃ before after, text = before ++ part ++ after ∧ before.utf8ByteSize = start ∧
        (before ++ part).utf8ByteSize = stop := by
  unfold slice?
  constructor
  · intro h
    split at h
    · rename_i hborders
      obtain ⟨hle, hstart, hstop⟩ := hborders
      obtain ⟨before, rest, hsplit, rfl⟩ := isValid_iff.1 hstart
      obtain ⟨both, after, rfl, rfl⟩ := isValid_iff.1 hstop
      obtain ⟨between, rfl⟩ := exists_eq_append_of_size_le hsplit.symm hle
      rw [extract_append, Option.some.injEq] at h
      exact ⟨before, after, by rw [h], rfl, by rw [h]⟩
    · cases h
  · rintro ⟨before, after, rfl, rfl, rfl⟩
    rw [if_pos, extract_append]
    refine ⟨?_, isValid_iff.2 ⟨before, part ++ after, String.append_assoc, rfl⟩,
      isValid_iff.2 ⟨before ++ part, after, rfl, rfl⟩⟩
    rw [String.utf8ByteSize_append]
    exact Nat.le_add_right _ _

/-- There is no part that starts or ends within a character. -/
example : slice? "aéb" 1 2 = none ∧ slice? "aéb" 1 3 = some "é" := by decide

/-! ## Borders between characters -/

variable {s : List Char} {a b : Nat}

theorem byteOffset_le (h : a ≤ b) : byteOffset s a ≤ byteOffset s b :=
  String.utf8Len_le_of_prefix (List.take_prefix_take_left h)

theorem byteOffset_lt (h : a < b) (hb : b ≤ s.length) : byteOffset s a < byteOffset s b := by
  have hsplit : s.take b = s.take a ++ (s.drop a).take (b - a) := by
    rw [← List.take_add, Nat.add_sub_cancel' (Nat.le_of_lt h)]
  have hmore : (s.drop a).take (b - a) ≠ [] := by
    intro hnil
    have := congrArg List.length hnil
    simp only [List.length_take, List.length_drop, List.length_nil] at this
    omega
  have := mt String.utf8Len_eq_zero.1 hmore
  unfold byteOffset
  rw [hsplit, String.utf8Len_append]
  omega

/-- The borders of a text come in the order of the characters before them. -/
theorem byteOffset_lt_iff (hb : b ≤ s.length) : byteOffset s a < byteOffset s b ↔ a < b := by
  constructor
  · intro h
    apply Nat.lt_of_not_le
    exact fun hle => absurd (byteOffset_le hle) (Nat.not_le_of_lt h)
  · exact fun h => byteOffset_lt h hb

theorem utf8ByteSize_ofList_take (s : List Char) (count : Nat) :
    (String.ofList (s.take count)).utf8ByteSize = byteOffset s count :=
  String.utf8ByteSize_ofList _

/-- Between two borders of a text there is a part. -/
theorem slice?_byteOffset (text : String) (h : a ≤ b) :
    slice? text (byteOffset text.toList a) (byteOffset text.toList b) =
      some (String.ofList ((text.toList.drop a).take (b - a))) := by
  have hjoin : text.toList.take a ++ (text.toList.drop a).take (b - a) = text.toList.take b := by
    rw [← List.take_add, Nat.add_sub_cancel' h]
  refine slice?_eq_some_iff.2
    ⟨String.ofList (text.toList.take a), String.ofList (text.toList.drop b), ?_, ?_, ?_⟩
  · rw [← String.ofList_append, hjoin, ← String.ofList_append, List.take_append_drop,
      String.ofList_toList]
  · exact utf8ByteSize_ofList_take _ _
  · rw [← String.ofList_append, hjoin]
    exact utf8ByteSize_ofList_take _ _

end Marginalia.Text
