import Marginalia.Proofs.Time.Timestamp

set_option autoImplicit false

/-!
# Room for changes

The time of the last change of a note moves forward with every change, by a
microsecond when the clock stands still.  A note stays readable as long as this
does not lead beyond the years of four digits, so what can still happen to a note
is counted in seconds before the year 10000.
-/

namespace Marginalia.Time.Instant

/-- Whether an instant can move forward some times, by a second at most each, and
still lie in a year of four digits. -/
def HasRoom (moves : Nat) (t : Instant) : Prop :=
  0 ≤ t.year ∧ t.seconds + moves < (daysBeforeYear 10000 - epochDays) * 86400

variable {moves : Nat} {t u : Instant}

theorem hasRoom_zero_iff : t.HasRoom 0 ↔ t.YearWithin 0 9999 := by
  have := le_year_iff 10000 t
  unfold HasRoom YearWithin
  omega

theorem HasRoom.mono {fewer : Nat} (h : t.HasRoom moves) (hle : fewer ≤ moves) :
    t.HasRoom fewer :=
  ⟨h.1, by have := h.2; omega⟩

theorem HasRoom.yearWithin (h : t.HasRoom moves) : t.YearWithin 0 9999 :=
  hasRoom_zero_iff.1 (h.mono (Nat.zero_le _))

theorem HasRoom.nextMicro (h : t.HasRoom (moves + 1)) : t.nextMicro.HasRoom moves := by
  obtain ⟨hlow, hhigh⟩ := seconds_nextMicro t
  have hyear := (le_year_iff 0 t).1 h.1
  exact ⟨(le_year_iff 0 _).2 (by omega), by have := h.2; omega⟩

theorem HasRoom.latest (ht : t.HasRoom moves) (hu : u.HasRoom moves) :
    (t.latest u).HasRoom moves := by
  rcases latest_eq t u with h | h <;> rw [h] <;> assumption

theorem HasRoom.cutToMicros (h : t.HasRoom moves) : t.cutToMicros.HasRoom moves := h

/-- There is a whole year after the year 9998. -/
theorem YearWithin.hasRoom (h : t.YearWithin 0 9998) (hle : moves ≤ 86400) : t.HasRoom moves := by
  have hlast := mt (le_year_iff 9999 t).2 (by have := h.2; omega)
  have hdays : daysBeforeYear 10000 = daysBeforeYear 9999 + 365 := rfl
  exact ⟨h.1, by omega⟩

end Marginalia.Time.Instant
