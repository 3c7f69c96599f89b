import Marginalia.Proofs.Text.Lower
import Mathlib.Data.List.Forall2

set_option autoImplicit false

/-!
# The case of the letters A to Z

Lowering the capitals A to Z only makes two texts the same exactly when they agree character
by character but for the case of these letters.  Lowering all capitals makes more texts the
same; of those, none is made a proper part of another one by the lesser lowering.
-/

namespace Marginalia.Text

/-! ## Single characters -/

/-- The small form of a capital A to Z; any other character is left alone. -/
def lowerLetter (c : Char) : Char :=
  if 'A' ≤ c && c ≤ 'Z' then Char.ofNat (c.toNat + 32) else c

theorem lowerAscii_eq_map (s : List Char) : lowerAscii s = s.map lowerLetter := rfl

/-- Whether a character is a capital A to Z and another one its small form. -/
structure IsCapitalOf (c d : Char) : Prop where
  first : 65 ≤ c.toNat
  last : c.toNat ≤ 90
  small : d.toNat = c.toNat + 32

/-- Whether two characters are the same but for the case of a letter A to Z. -/
def IsRecased (c d : Char) : Prop := c = d ∨ IsCapitalOf c d ∨ IsCapitalOf d c

theorem lowerLetter_spec (c : Char) :
    (lowerLetter c = c ∧ ¬(65 ≤ c.toNat ∧ c.toNat ≤ 90)) ∨ IsCapitalOf c (lowerLetter c) := by
  have hrange : ('A' ≤ c && c ≤ 'Z') = true ↔ 65 ≤ c.toNat ∧ c.toNat ≤ 90 := by
    rw [Bool.and_eq_true, decide_eq_true_iff, decide_eq_true_iff]
    exact and_congr UInt32.le_iff_toNat_le UInt32.le_iff_toNat_le
  unfold lowerLetter
  split
  · rename_i hcapital
    obtain ⟨hfirst, hlast⟩ := hrange.1 hcapital
    have hvalid : (c.toNat + 32).isValidChar := .inl (by omega)
    refine .inr ⟨hfirst, hlast, ?_⟩
    rw [Char.ofNat, dif_pos hvalid]
    rfl
  · rename_i hother
    exact .inl ⟨rfl, fun hcapital => hother (hrange.2 hcapital)⟩

theorem IsCapitalOf.lowerLetter_eq {c d : Char} (h : IsCapitalOf c d) : lowerLetter c = d := by
  rcases lowerLetter_spec c with ⟨-, hnot⟩ | hsmall
  · exact absurd ⟨h.first, h.last⟩ hnot
  · exact Char.toNat_inj.1 (hsmall.small.trans h.small.symm)

theorem IsCapitalOf.lowerLetter_small {c d : Char} (h : IsCapitalOf c d) : lowerLetter d = d := by
  rcases lowerLetter_spec d with ⟨heq, -⟩ | hsmall
  · exact heq
  · have hfirst := h.first
    have hnat := h.small
    have hlast := hsmall.last
    omega

theorem lowerLetter_eq_iff {c d : Char} : lowerLetter c = lowerLetter d ↔ IsRecased c d := by
  constructor
  · intro h
    rcases lowerLetter_spec c with ⟨hc, -⟩ | hc
    · rcases lowerLetter_spec d with ⟨hd, -⟩ | hd
      · exact .inl (hc.symm.trans (h.trans hd))
      · exact .inr (.inr (hc ▸ h ▸ hd))
    · rcases lowerLetter_spec d with ⟨hd, -⟩ | hd
      · exact .inr (.inl (hd ▸ h ▸ hc))
      · have hnat := hc.small.symm.trans ((congrArg Char.toNat h).trans hd.small)
        exact .inl (Char.toNat_inj.1 (Nat.add_right_cancel hnat))
  · rintro (rfl | h | h)
    · rfl
    · rw [h.lowerLetter_eq, h.lowerLetter_small]
    · rw [h.lowerLetter_eq, h.lowerLetter_small]

/-- The dotted capital is no letter A to Z, and no letter is lowered to it. -/
theorem lowerLetter_eq_dotted_iff (c : Char) : lowerLetter c = 'İ' ↔ c = 'İ' := by
  have hdotted : lowerLetter 'İ' = 'İ' := by decide
  constructor
  · intro h
    rcases lowerLetter_spec c with ⟨hc, -⟩ | hc
    · exact hc.symm.trans h
    · have hnat := hc.small
      have hlast := hc.last
      rw [h, show 'İ'.toNat = 304 from rfl] at hnat
      omega
  · rintro rfl
    exact hdotted

/-! ## Texts -/

variable {s t : List Char}

/-- Whether two texts are the same but for the case of letters A to Z. -/
def AreRecased (s t : List Char) : Prop := List.Forall₂ IsRecased s t

theorem lowerAscii_eq_iff : lowerAscii s = lowerAscii t ↔ AreRecased s t := by
  rw [lowerAscii_eq_map, lowerAscii_eq_map, ← List.forall₂_eq_eq_eq, List.forall₂_map_left_iff,
    List.forall₂_map_right_iff]
  simp only [lowerLetter_eq_iff, AreRecased]

theorem length_lowerAscii (s : List Char) : (lowerAscii s).length = s.length :=
  List.length_map _

theorem count_lowerAscii_dotted (s : List Char) : (lowerAscii s).count 'İ' = s.count 'İ' := by
  rw [lowerAscii_eq_map, List.count_eq_countP, List.countP_map, List.count_eq_countP]
  refine List.countP_congr fun c _ => ?_
  simp only [Function.comp_apply, beq_iff_eq, lowerLetter_eq_dotted_iff]

/-- Of two texts that are lowered to the same one, neither is a proper part of the other one
up to the case of letters A to Z: both have as many characters. -/
theorem lowerAscii_eq_of_infix (h : lower s = lower t)
    (hpart : lowerAscii s <:+: lowerAscii t) : lowerAscii s = lowerAscii t := by
  have hlength := congrArg List.length h
  have hle := hpart.length_le
  have hdotted := hpart.sublist.count_le 'İ'
  rw [lower, lower, length_lowerAfter, length_lowerAfter] at hlength
  rw [length_lowerAscii, length_lowerAscii] at hle
  rw [count_lowerAscii_dotted, count_lowerAscii_dotted] at hdotted
  refine hpart.eq_of_length ?_
  rw [length_lowerAscii, length_lowerAscii]
  omega

end Marginalia.Text
