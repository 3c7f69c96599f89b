set_option autoImplicit false

/-!
# Sets of characters given as stretches of code points

A property of characters is written as a list of stretches, each with both ends
included and in rising order.  The modules beside this one hold the lists of
the Unicode properties the library needs.
-/

namespace Marginalia.Text

/-- Whether a code point lies in one of the stretches. -/
def inStretches (stretches : List (Nat × Nat)) (n : Nat) : Bool :=
  stretches.any fun s => decide (s.1 ≤ n) && decide (n ≤ s.2)

theorem inStretches_iff (stretches : List (Nat × Nat)) (n : Nat) :
    inStretches stretches n = true ↔ ∃ s ∈ stretches, s.1 ≤ n ∧ n ≤ s.2 := by
  simp [inStretches]

end Marginalia.Text
