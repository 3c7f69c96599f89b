import Mathlib.Algebra.GroupWithZero.Nat
import Marginalia.Text.Decimal

set_option autoImplicit false

/-!
# Decimal numbers read back

Writing a number in decimal loses nothing: its digits are digits, and their
value is the number.  The same holds of a number padded with zeros, whose text
has the asked width exactly when the number fits into it.
-/

namespace Marginalia.Text

/-! ## Digits -/

@[simp] theorem digitValue_digitChar {d : Nat} (h : d < 10) : digitValue (digitChar d) = d := by
  have all : ∀ d < 10, digitValue (digitChar d) = d := by decide
  exact all d h

@[simp] theorem isDigit_digitChar {d : Nat} (h : d < 10) : isDigit (digitChar d) = true := by
  have all : ∀ d < 10, isDigit (digitChar d) = true := by decide
  exact all d h

theorem isDigit_zero : isDigit '0' = true := by decide

/-! ## Writing -/

theorem decimal_of_lt {n : Nat} (h : n < 10) : decimal n = [digitChar n] := by
  rw [decimal, if_pos h]

theorem decimal_of_ge {n : Nat} (h : 10 ≤ n) :
    decimal n = decimal (n / 10) ++ [digitChar (n % 10)] := by
  rw [decimal, if_neg (by omega)]

theorem isDigit_of_mem_decimal {n : Nat} {c : Char} (h : c ∈ decimal n) : isDigit c = true := by
  induction n using decimal.induct with
  | case1 n hn =>
    rw [decimal_of_lt hn, List.mem_singleton] at h
    rw [h]
    exact isDigit_digitChar hn
  | case2 n hn ih =>
    rw [decimal_of_ge (by omega), List.mem_append, List.mem_singleton] at h
    rcases h with h | rfl
    · exact ih h
    · exact isDigit_digitChar (by omega)

theorem length_decimal_le {n width : Nat} (hw : 0 < width) (h : n < 10 ^ width) :
    (decimal n).length ≤ width := by
  induction n using decimal.induct generalizing width with
  | case1 n hn =>
    rw [decimal_of_lt hn]
    exact hw
  | case2 n hn ih =>
    obtain ⟨w, rfl⟩ : ∃ w, width = w + 1 := ⟨width - 1, by omega⟩
    rw [Nat.pow_succ] at h
    have hpos : 0 < w := by
      rcases Nat.eq_zero_or_pos w with rfl | hpos
      · omega
      · exact hpos
    have hlen := ih hpos (by omega)
    rw [decimal_of_ge (by omega), List.length_append, List.length_singleton]
    omega

/-! ## Reading -/

theorem digitsValue_append (s t : List Char) (n : Nat) :
    digitsValue (s ++ t) n = digitsValue t (digitsValue s n) := by
  simp [digitsValue, List.foldl_append]

theorem digitValue_le {c : Char} (h : isDigit c = true) : digitValue c ≤ 9 := by
  simp only [isDigit, Bool.and_eq_true, decide_eq_true_eq] at h
  have hlast : c.toNat ≤ '9'.toNat := UInt32.le_iff_toNat_le.1 h.2
  have hnine : '9'.toNat = '0'.toNat + 9 := rfl
  unfold digitValue
  omega

/-- Digits stand for no more than their number allows. -/
theorem digitsValue_lt {s : List Char} (h : ∀ c ∈ s, isDigit c = true) (n : Nat) :
    digitsValue s n < (n + 1) * 10 ^ s.length := by
  induction s generalizing n with
  | nil =>
    rw [List.length_nil, Nat.pow_zero, Nat.mul_one]
    exact Nat.lt_succ_self n
  | cons c s ih =>
    obtain ⟨hc, hs⟩ := List.forall_mem_cons.1 h
    have hle := digitValue_le hc
    calc digitsValue (c :: s) n
        = digitsValue s (10 * n + digitValue c) := rfl
      _ < (10 * n + digitValue c + 1) * 10 ^ s.length := ih hs _
      _ ≤ ((n + 1) * 10) * 10 ^ s.length := Nat.mul_le_mul_right _ (by omega)
      _ = (n + 1) * 10 ^ (c :: s).length := by
        rw [List.length_cons, Nat.pow_succ', Nat.mul_assoc]

/-- The digits of a number stand for the number. -/
theorem digitsValue_decimal (n : Nat) : digitsValue (decimal n) 0 = n := by
  induction n using decimal.induct with
  | case1 n hn =>
    rw [decimal_of_lt hn]
    simp [digitsValue, digitValue_digitChar hn]
  | case2 n hn ih =>
    rw [decimal_of_ge (by omega), digitsValue_append, ih]
    have hd := digitValue_digitChar (show n % 10 < 10 by omega)
    simp only [digitsValue, List.foldl_cons, List.foldl_nil, hd]
    omega

theorem decimal_ne_nil (n : Nat) : decimal n ≠ [] := by
  rw [decimal]
  split
  · exact List.cons_ne_nil _ _
  · exact List.append_ne_nil_of_right_ne_nil _ (List.cons_ne_nil _ _)

/-- Only digits are read, and at least one. -/
theorem readDecimal?_eq_some_iff {s : List Char} {n : Nat} :
    readDecimal? s = some n ↔ s ≠ [] ∧ (∀ d ∈ s, isDigit d = true) ∧ digitsValue s 0 = n := by
  unfold readDecimal?
  split
  · rename_i hrefused
    simp only [Bool.or_eq_true, List.isEmpty_iff, Bool.not_eq_true', List.all_eq_false] at hrefused
    refine iff_of_false nofun ?_
    rintro ⟨hne, hdigits, -⟩
    obtain hempty | ⟨d, hd, hnot⟩ := hrefused
    · exact hne hempty
    · exact hnot (hdigits d hd)
  · rename_i htaken
    simp only [Bool.or_eq_true, List.isEmpty_iff, Bool.not_eq_true', List.all_eq_false] at htaken
    obtain ⟨hne, hall⟩ := not_or.1 htaken
    have hdigits : ∀ d ∈ s, isDigit d = true := fun d hd =>
      Decidable.not_not.1 fun hnot => hall ⟨d, hd, hnot⟩
    rw [Option.some.injEq]
    exact ⟨fun h => ⟨hne, hdigits, h⟩, fun h => h.2.2⟩

theorem readDecimal?_decimal (n : Nat) : readDecimal? (decimal n) = some n :=
  readDecimal?_eq_some_iff.2
    ⟨decimal_ne_nil n, fun _ => isDigit_of_mem_decimal, digitsValue_decimal n⟩

theorem decimal_injective {m n : Nat} (h : decimal m = decimal n) : m = n := by
  rw [← digitsValue_decimal m, h, digitsValue_decimal n]

/-! ## Numbers of a fixed width -/

theorem digitsValue_zeros (count : Nat) : digitsValue (List.replicate count '0') 0 = 0 := by
  induction count with
  | zero => rfl
  | succ count ih =>
    rw [List.replicate_succ', digitsValue_append, ih]
    rfl

theorem digitsValue_padded (width n : Nat) : digitsValue (padded width n) 0 = n := by
  unfold padded
  rw [digitsValue_append, digitsValue_zeros, digitsValue_decimal]

theorem isDigit_of_mem_padded {width n : Nat} {c : Char} (h : c ∈ padded width n) :
    isDigit c = true := by
  simp only [padded, List.mem_append, List.mem_replicate] at h
  rcases h with ⟨-, rfl⟩ | h
  · exact isDigit_zero
  · exact isDigit_of_mem_decimal h

theorem length_padded {width n : Nat} (hw : 0 < width) (h : n < 10 ^ width) :
    (padded width n).length = width := by
  have hle := length_decimal_le hw h
  simp only [padded, List.length_append, List.length_replicate]
  omega

end Marginalia.Text
