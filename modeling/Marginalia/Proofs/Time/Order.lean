import Marginalia.Proofs.Time.Timestamp

set_option autoImplicit false

/-!
# Instants in order

A change is stamped with the later of the clock and the microsecond after the stamp before
it.  What is written of a stamp is cut to microseconds, and what is read back is what a clock
shows of that.  Neither takes a stamp back to the one before it: whatever the clock shows,
the stamp that is read back is later, also when the one before it has something below a
microsecond or lies in a leap second.
-/

namespace Marginalia.Time.Instant

/-! ## The order -/

/-- Whether an instant comes before another. -/
def IsBefore (a b : Instant) : Prop :=
  a.seconds < b.seconds ∨ (a.seconds = b.seconds ∧ a.nanos < b.nanos)

instance (a b : Instant) : Decidable (a.IsBefore b) := inferInstanceAs (Decidable (_ ∨ _))

variable {a b c t : Instant}

theorem notAfter_iff :
    a.notAfter b = true ↔ a.seconds < b.seconds ∨ (a.seconds = b.seconds ∧ a.nanos ≤ b.nanos) := by
  simp only [notAfter, Bool.or_eq_true, Bool.and_eq_true, decide_eq_true_eq, beq_iff_eq]

/-- Of two instants one comes before the other unless the other is not after it. -/
theorem isBefore_iff : a.IsBefore b ↔ ¬b.notAfter a = true := by
  simp only [IsBefore, notAfter_iff]
  omega

theorem IsBefore.trans (hab : a.IsBefore b) (hbc : b.IsBefore c) : a.IsBefore c := by
  simp only [IsBefore] at *
  omega

theorem IsBefore.trans_notAfter (hab : a.IsBefore b) (hbc : b.notAfter c = true) :
    a.IsBefore c := by
  simp only [IsBefore, notAfter_iff] at *
  omega

/-- The later of two instants is not before the second of them. -/
theorem notAfter_latest (a b : Instant) : b.notAfter (a.latest b) = true := by
  unfold latest
  split
  · exact notAfter_iff.2 (.inr ⟨rfl, Nat.le_refl _⟩)
  · rename_i hafter
    have hbefore : b.IsBefore a := isBefore_iff.2 hafter
    exact notAfter_iff.2 (hbefore.imp_right fun h => ⟨h.1, Nat.le_of_lt h.2⟩)

/-! ## Microseconds -/

theorem notAfter_cutToMicros (h : a.notAfter b = true) :
    a.cutToMicros.notAfter b.cutToMicros = true := by
  have hcut : a.nanos ≤ b.nanos →
      a.nanos / nanosPerMicro * nanosPerMicro ≤ b.nanos / nanosPerMicro * nanosPerMicro :=
    fun hle => Nat.mul_le_mul_right _ (Nat.div_le_div_right hle)
  rcases notAfter_iff.1 h with hlt | ⟨heq, hle⟩
  · exact notAfter_iff.2 (.inl hlt)
  · exact notAfter_iff.2 (.inr ⟨heq, hcut hle⟩)

/-- A microsecond is enough to be later, whatever lies below a microsecond: the second that
it may lead into begins without nanoseconds. -/
theorem isBefore_cutToMicros_nextMicro (t : Instant) : t.IsBefore t.nextMicro.cutToMicros := by
  have hwithin : t.nanos < (t.nanos + nanosPerMicro) / nanosPerMicro * nanosPerMicro := by
    unfold nanosPerMicro
    omega
  have hnext : t.seconds < t.seconds + 1 := Int.lt_succ _
  simp only [nextMicro]
  split <;> split
  · exact .inr ⟨rfl, hwithin⟩
  · exact .inl hnext
  · exact .inr ⟨rfl, hwithin⟩
  · exact .inl hnext

/-! ## What a clock shows -/

/-- What a clock shows of an instant, in whole microseconds. -/
def shown (t : Instant) : Instant := ofClock t.cutToMicros.toClock

/-- A clock shows nothing earlier.  It shows more than the second sixty of no minute: an
instant that is said to be in a leap second elsewhere is shown in the second after it. -/
theorem notAfter_ofClock_toClock (h : t.IsRepresentable) :
    t.notAfter (ofClock t.toClock) = true := by
  by_cases hproper : t.IsProper
  · rw [ofClock_toClock hproper]
    exact notAfter_iff.2 (.inr ⟨rfl, Nat.le_refl _⟩)
  · simp only [IsProper, nanosPerSecond] at hproper
    simp only [IsRepresentable, nanosPerSecond] at h
    have hdate : t.toClock.date.toEpochDay = t.seconds / 86400 := Date.toEpochDay_ofEpochDay _
    have hsecond : t.toClock.second = (t.seconds % 86400).toNat % 60 + t.nanos / 1000000000 := rfl
    have hminutes : t.toClock.hour * 3600 + t.toClock.minute * 60 =
        (t.seconds % 86400).toNat / 60 * 60 := by
      simp only [toClock]
      omega
    have hleap : ¬t.toClock.second = 60 := by omega
    refine notAfter_iff.2 (.inl ?_)
    simp only [ofClock, if_neg hleap, hdate]
    omega

theorem IsRepresentable.cutToMicros (h : t.IsRepresentable) : t.cutToMicros.IsRepresentable := by
  simp only [IsRepresentable, Instant.cutToMicros, nanosPerMicro, nanosPerSecond] at *
  omega

/-- Whatever the clock shows, the stamp of a change is read back as a later one than the
stamp before it. -/
theorem isBefore_shown_latest {now : Instant} (h : t.IsRepresentable)
    (hnow : now.IsRepresentable) : t.IsBefore (now.latest t.nextMicro).shown := by
  have hstamp : t.nextMicro.cutToMicros.notAfter (now.latest t.nextMicro).cutToMicros = true :=
    notAfter_cutToMicros (notAfter_latest now t.nextMicro)
  have hshown : (now.latest t.nextMicro).cutToMicros.notAfter (now.latest t.nextMicro).shown =
      true :=
    notAfter_ofClock_toClock (hnow.latest h.nextMicro).cutToMicros
  exact ((isBefore_cutToMicros_nextMicro t).trans_notAfter hstamp).trans_notAfter hshown

/-- The last microsecond of a leap second is followed by the next day. -/
example : (Instant.mk 1483228799 1999999500).nextMicro.shown = ⟨1483228800, 0⟩ := by decide

end Marginalia.Time.Instant
