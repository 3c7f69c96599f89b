import Mathlib.Data.List.TakeWhile
import Marginalia.Proofs.Text.Decimal
import Marginalia.Proofs.Time.Calendar
import Marginalia.Time.Rfc3339

set_option autoImplicit false

/-!
# Timestamps read back

An instant of a year from 0 to 9999, written in whole microseconds, is read back
as the same instant without what lies below a microsecond.  An instant of any
other year is written with a sign and is not read back at all.
-/

namespace Marginalia.Time

open Marginalia.Text

namespace Instant

/-! ## Instants that a clock can show -/

/-- Whether an instant is one that a clock can show: its nanoseconds stay within
the second, or within the leap second after the last second of a minute. -/
def IsProper (t : Instant) : Prop :=
  t.nanos < nanosPerSecond ∨ (t.nanos < 2 * nanosPerSecond ∧ t.seconds % 60 = 59)

instance (t : Instant) : Decidable t.IsProper := inferInstanceAs (Decidable (_ ∨ _))

/-- Whether an instant can be represented: its nanoseconds stay within the second or
within a leap second after it. -/
def IsRepresentable (t : Instant) : Prop := t.nanos < 2 * nanosPerSecond

instance (t : Instant) : Decidable t.IsRepresentable := inferInstanceAs (Decidable (_ < _))

theorem IsProper.isRepresentable {t : Instant} (h : t.IsProper) : t.IsRepresentable := by
  simp only [IsProper, IsRepresentable, nanosPerSecond] at *
  omega

/-- Whether an instant lies in one of the years between two, both included. -/
def YearWithin (first last : Int) (t : Instant) : Prop := first ≤ t.year ∧ t.year ≤ last

instance (first last : Int) (t : Instant) : Decidable (t.YearWithin first last) :=
  inferInstanceAs (Decidable (_ ∧ _))

/-- The instant without what lies below a microsecond. -/
def cutToMicros (t : Instant) : Instant := ⟨t.seconds, t.nanos / nanosPerMicro * nanosPerMicro⟩

theorem year_eq (t : Instant) : t.year = (Date.ofEpochDay (t.seconds / 86400)).year := rfl

/-- An instant lies in a year or later when the days before the year are over. -/
theorem le_year_iff (y : Int) (t : Instant) :
    y ≤ t.year ↔ (daysBeforeYear y - epochDays) * 86400 ≤ t.seconds := by
  rw [year_eq, Date.year_ofEpochDay, le_yearOf_iff]
  omega

theorem cutToMicros_idem (t : Instant) : t.cutToMicros.cutToMicros = t.cutToMicros := by
  simp only [cutToMicros, nanosPerMicro, Instant.mk.injEq, true_and]
  omega

theorem IsProper.cutToMicros {t : Instant} (h : t.IsProper) : t.cutToMicros.IsProper := by
  simp only [IsProper, Instant.cutToMicros, nanosPerMicro, nanosPerSecond] at *
  omega

/-- What a clock shows of an instant that it can show tells the instant. -/
theorem ofClock_toClock {t : Instant} (h : t.IsProper) : ofClock t.toClock = t := by
  have hdate : t.toClock.date.toEpochDay = t.seconds / 86400 := Date.toEpochDay_ofEpochDay _
  have hhour : t.toClock.hour = (t.seconds % 86400).toNat / 3600 := rfl
  have hminute : t.toClock.minute = (t.seconds % 86400).toNat / 60 % 60 := rfl
  have hsecond : t.toClock.second = (t.seconds % 86400).toNat % 60 + t.nanos / 1000000000 := rfl
  have hnanos : t.toClock.nanos = t.nanos % 1000000000 := rfl
  simp only [IsProper, nanosPerSecond] at h
  by_cases hleap : t.toClock.second = 60
  · have hs : t.seconds / 86400 * 86400 +
        ((t.seconds % 86400).toNat / 3600 * 3600 + (t.seconds % 86400).toNat / 60 % 60 * 60
          + 59 : Nat) = t.seconds := by omega
    have hn : t.nanos % 1000000000 + 1000000000 = t.nanos := by omega
    simp only [ofClock, if_pos hleap]
    simp only [hdate, hhour, hminute, hnanos, nanosPerSecond, hs, hn]
  · have hs : t.seconds / 86400 * 86400 +
        ((t.seconds % 86400).toNat / 3600 * 3600 + (t.seconds % 86400).toNat / 60 % 60 * 60
          + ((t.seconds % 86400).toNat % 60 + t.nanos / 1000000000) : Nat) = t.seconds := by omega
    have hn : t.nanos % 1000000000 = t.nanos := by omega
    simp only [ofClock, if_neg hleap]
    simp only [hdate, hhour, hminute, hsecond, hnanos, hs, hn]

theorem toClock_cutToMicros (t : Instant) :
    t.cutToMicros.toClock =
      { t.toClock with nanos := t.toClock.nanos / nanosPerMicro * nanosPerMicro } := by
  simp only [toClock, cutToMicros, nanosPerSecond, nanosPerMicro, ClockTime.mk.injEq, true_and]
  omega

/-! ## The next instant -/

theorem isLeap_iff (t : Instant) : t.isLeap = true ↔ 1000000000 ≤ t.nanos := decide_eq_true_iff

theorem IsProper.nextMicro {t : Instant} (h : t.IsProper) : t.nextMicro.IsProper := by
  simp only [IsProper, nanosPerSecond] at h
  simp only [Instant.nextMicro]
  split
  · rename_i hleap
    have := (isLeap_iff t).1 hleap
    split <;> simp only [IsProper, nanosPerSecond, nanosPerMicro] at * <;> omega
  · rename_i hleap
    have := mt (isLeap_iff t).2 hleap
    split <;> simp only [IsProper, nanosPerSecond, nanosPerMicro] at * <;> omega

theorem IsRepresentable.nextMicro {t : Instant} (h : t.IsRepresentable) :
    t.nextMicro.IsRepresentable := by
  simp only [IsRepresentable, nanosPerSecond] at h
  simp only [Instant.nextMicro]
  split <;> split <;> simp only [IsRepresentable, nanosPerSecond, nanosPerMicro] at * <;> omega

theorem seconds_nextMicro (t : Instant) :
    t.seconds ≤ t.nextMicro.seconds ∧ t.nextMicro.seconds ≤ t.seconds + 1 := by
  simp only [Instant.nextMicro]
  split
  · split
    · exact ⟨Int.le_refl _, Int.le_add_one (Int.le_refl _)⟩
    · exact ⟨Int.le_add_one (Int.le_refl _), Int.le_refl _⟩
  · split
    · exact ⟨Int.le_refl _, Int.le_add_one (Int.le_refl _)⟩
    · exact ⟨Int.le_add_one (Int.le_refl _), Int.le_refl _⟩

/-- A microsecond leads into the next year at most. -/
theorem YearWithin.nextMicro {first last : Int} {t : Instant} (h : t.YearWithin first last) :
    t.nextMicro.YearWithin first (last + 1) := by
  obtain ⟨hlow, hhigh⟩ := seconds_nextMicro t
  refine ⟨?_, ?_⟩
  · have := (le_year_iff first t).1 h.1
    exact (le_year_iff first _).2 (by omega)
  · refine Int.not_lt.1 fun hlate => ?_
    have hlast := mt (le_year_iff (last + 1) t).2 (by have := h.2; omega)
    have hover := (le_year_iff (last + 1 + 1) t.nextMicro).1 (by omega)
    rw [daysBeforeYear_succ] at hover
    split at hover <;> omega

theorem latest_eq (a b : Instant) : a.latest b = a ∨ a.latest b = b := by
  unfold latest
  split
  · exact .inr rfl
  · exact .inl rfl

/-! ## Clocks -/

theorem hour_toClock_lt (t : Instant) : t.toClock.hour < 24 := by
  simp only [toClock]
  omega

theorem minute_toClock_lt (t : Instant) : t.toClock.minute < 60 := by
  simp only [toClock]
  omega

theorem second_toClock_le {t : Instant} (h : t.IsRepresentable) : t.toClock.second ≤ 60 := by
  simp only [IsRepresentable, nanosPerSecond] at h
  simp only [toClock, nanosPerSecond]
  omega

theorem nanos_toClock_lt (t : Instant) : t.toClock.nanos < 1000000000 := by
  simp only [toClock, nanosPerSecond]
  omega

end Instant

/-! ## Parts of a timestamp -/

theorem take_padded_append {width n : Nat} (hw : 0 < width) (h : n < 10 ^ width)
    (rest : List Char) : (padded width n ++ rest).take width = padded width n := by
  have := length_padded hw h
  rw [List.take_append_of_le_length (by omega), List.take_of_length_le (by omega)]

theorem drop_padded_append {width n : Nat} (hw : 0 < width) (h : n < 10 ^ width)
    (rest : List Char) : (padded width n ++ rest).drop width = rest := by
  have := length_padded hw h
  rw [List.drop_append_of_le_length (by omega), List.drop_of_length_le (by omega), List.nil_append]

/-- A reading whose first step succeeds goes on with what the step hands on. -/
theorem bind_eq_some {α β : Type} {x : Option α} {f : α → Option β} {a : α} {b : β}
    (hx : x = some a) (hf : f a = some b) : (x >>= f) = some b := by
  rw [hx]
  exact hf

/-- A padded number is read off the front of a text. -/
theorem readDigits_padded {width n : Nat} (hw : 0 < width) (h : n < 10 ^ width)
    (rest : List Char) : readDigits width (padded width n ++ rest) = some (n, rest) := by
  simp only [readDigits, take_padded_append hw h, drop_padded_append hw h, length_padded hw h,
    decide_true, Bool.true_and, digitsValue_padded]
  rw [if_pos (List.all_eq_true.2 fun c hc => isDigit_of_mem_padded hc)]

/-- A fraction of six digits counts microseconds. -/
theorem readFraction_padded {n : Nat} (h : n < 1000000) :
    readFraction ('.' :: (padded 6 n ++ ['Z'])) = some (n * 1000, ['Z']) := by
  have hlen : (padded 6 n).length = 6 := length_padded (by omega) h
  have htake : (padded 6 n ++ ['Z']).takeWhile isDigit = padded 6 n := by
    rw [List.takeWhile_append_of_pos fun c hc => isDigit_of_mem_padded hc]
    simp [isDigit]
  have hne : (padded 6 n).isEmpty = false := by
    rw [List.isEmpty_eq_false_iff]
    intro hnil
    rw [hnil] at hlen
    simp at hlen
  have hscale : n * Nat.pow 10 (9 - 6) = n * 1000 := rfl
  simp only [readFraction, htake, hne, Bool.false_eq_true, if_false]
  rw [List.take_of_length_le (by omega), hlen, digitsValue_padded,
    drop_padded_append (by omega) h, hscale]

theorem readChar_cons {accept : Char → Bool} {c : Char} (h : accept c = true) (rest : List Char) :
    readChar accept (c :: rest) = some rest :=
  if_pos h

theorem readOffset_zulu : readOffset ['Z'] = some (0, []) := rfl

/-! ## Whole timestamps -/

namespace Instant

/-- The stored form of an instant, part by part. -/
theorem toList_toStoredText {t : Instant} (h : t.YearWithin 0 9999) :
    t.toStoredText.toList =
      padded 4 t.year.natAbs ++ '-' :: (padded 2 t.toClock.date.month ++ '-' ::
        (padded 2 t.toClock.date.day ++ 'T' :: (padded 2 t.toClock.hour ++ ':' ::
          (padded 2 t.toClock.minute ++ ':' :: (padded 2 t.toClock.second ++ '.' ::
            (padded 6 (t.toClock.nanos / nanosPerMicro) ++ ['Z'])))))) := by
  have hy : yearText t.toClock.date.year = padded 4 t.year.natAbs := by
    have hin : (decide (0 ≤ t.year) && decide (t.year ≤ 9999)) = true := by
      rw [decide_eq_true h.1, decide_eq_true h.2]
      rfl
    exact if_pos hin
  simp only [toStoredText, localText, dateText, hourMinuteText, fractionText, hy,
    String.toList_ofList, List.append_assoc, List.cons_append]

/-- The parts of a time that a clock can show are read in the order in which they are
written. -/
theorem read?_padded {year month day hour minute second micros : Nat} (hyear : year < 10 ^ 4)
    (hmonth : month < 10 ^ 2) (hday : day < 10 ^ 2)
    (hdate : Date.isValid ⟨year, month, day⟩ = true) (hhour : hour ≤ 23) (hminute : minute ≤ 59)
    (hsecond : second ≤ 60) (hmicros : micros < 1000000) :
    read? (padded 4 year ++ '-' :: (padded 2 month ++ '-' :: (padded 2 day ++ 'T' ::
      (padded 2 hour ++ ':' :: (padded 2 minute ++ ':' :: (padded 2 second ++ '.' ::
        (padded 6 micros ++ ['Z']))))))) =
      some (ofClock ⟨⟨year, month, day⟩, hour, minute, second, micros * 1000⟩) := by
  have hshown : (decide (hour ≤ 23) && decide (minute ≤ 59) && decide (second ≤ 60)) = true := by
    rw [decide_eq_true hhour, decide_eq_true hminute, decide_eq_true hsecond]
    rfl
  unfold read?
  refine bind_eq_some (readDigits_padded (by omega) hyear _) ?_
  refine bind_eq_some (readChar_cons rfl _) ?_
  refine bind_eq_some (readDigits_padded (by omega) hmonth _) ?_
  refine bind_eq_some (readChar_cons rfl _) ?_
  refine bind_eq_some (readDigits_padded (by omega) hday _) ?_
  refine bind_eq_some (readChar_cons rfl _) ?_
  refine bind_eq_some (readDigits_padded (by omega) (by omega) _) ?_
  refine bind_eq_some (readChar_cons rfl _) ?_
  refine bind_eq_some (readDigits_padded (by omega) (by omega) _) ?_
  refine bind_eq_some (readChar_cons rfl _) ?_
  refine bind_eq_some (readDigits_padded (by omega) (by omega) _) ?_
  refine bind_eq_some (readFraction_padded hmicros) ?_
  refine bind_eq_some readOffset_zulu ?_
  simp only [hdate]
  rw [if_pos (by simpa using hshown)]
  simp

/-- An instant of a year of four digits is read back as what a clock shows of it, cut to
microseconds. -/
theorem read?_toStoredText_of_isRepresentable {t : Instant} (h : t.IsRepresentable)
    (hy : t.YearWithin 0 9999) :
    read? t.toStoredText.toList = some (ofClock t.cutToMicros.toClock) := by
  have hyear : t.year.natAbs < 10 ^ 4 := by
    have := hy.1
    have := hy.2
    omega
  have habs : (t.year.natAbs : Int) = t.toClock.date.year := Int.natAbs_of_nonneg hy.1
  have hdate :
      Date.isValid ⟨(t.year.natAbs : Int), t.toClock.date.month, t.toClock.date.day⟩ = true := by
    rw [habs]
    exact Date.isValid_ofEpochDay _
  have hmicros : t.toClock.nanos / nanosPerMicro < 1000000 :=
    Nat.div_lt_of_lt_mul (nanos_toClock_lt t)
  have hclock : ofClock ⟨⟨(t.year.natAbs : Int), t.toClock.date.month, t.toClock.date.day⟩,
      t.toClock.hour, t.toClock.minute, t.toClock.second,
      t.toClock.nanos / nanosPerMicro * 1000⟩ = ofClock t.cutToMicros.toClock := by
    rw [habs, toClock_cutToMicros]
    rfl
  rw [toList_toStoredText hy, ← hclock]
  exact read?_padded hyear (Date.month_ofEpochDay_lt _) (Date.day_ofEpochDay_lt _) hdate
    (Nat.le_of_lt_succ (hour_toClock_lt t)) (Nat.le_of_lt_succ (minute_toClock_lt t))
    (second_toClock_le h) hmicros

/-- An instant that a clock can show of a year of four digits is read back, cut to
microseconds. -/
theorem read?_toStoredText {t : Instant} (hp : t.IsProper) (hy : t.YearWithin 0 9999) :
    read? t.toStoredText.toList = some t.cutToMicros := by
  rw [read?_toStoredText_of_isRepresentable hp.isRepresentable hy,
    ofClock_toClock hp.cutToMicros]

/-- An instant of any other year is written with a sign, and nobody reads it. -/
theorem read?_toStoredText_eq_none {t : Instant} (hy : ¬t.YearWithin 0 9999) :
    read? t.toStoredText.toList = none := by
  have hyear :
      ¬(decide (0 ≤ t.toClock.date.year) && decide (t.toClock.date.year ≤ 9999)) = true := by
    intro h
    simp only [Bool.and_eq_true, decide_eq_true_eq] at h
    exact hy h
  obtain ⟨sign, rest, hsign, htext⟩ :
      ∃ sign rest, isDigit sign = false ∧ t.toStoredText.toList = sign :: rest := by
    simp only [toStoredText, localText, dateText, yearText, if_neg hyear, String.toList_ofList,
      List.cons_append, List.append_assoc]
    exact ⟨_, _, by split <;> decide, rfl⟩
  have hdigits : readDigits 4 (sign :: rest) = none := by
    refine if_neg ?_
    simp [hsign]
  rw [htext, read?, hdigits]
  rfl

/-- An instant that can be represented is read back if, and only if, its year has four
digits. -/
theorem isSome_read?_toStoredText_iff {t : Instant} (h : t.IsRepresentable) :
    (read? t.toStoredText.toList).isSome = true ↔ t.YearWithin 0 9999 := by
  by_cases hy : t.YearWithin 0 9999
  · rw [read?_toStoredText_of_isRepresentable h hy]
    exact iff_of_true rfl hy
  · rw [read?_toStoredText_eq_none hy]
    exact iff_of_false Bool.false_ne_true hy

/-- What lies below a microsecond is not written. -/
theorem toStoredText_cutToMicros (t : Instant) : t.cutToMicros.toStoredText = t.toStoredText := by
  have hnanos : t.toClock.nanos / nanosPerMicro * nanosPerMicro / nanosPerMicro =
      t.toClock.nanos / nanosPerMicro := by
    unfold nanosPerMicro
    omega
  simp only [toStoredText, localText, toClock_cutToMicros, fractionText, hnanos]
  rfl

/-! ## What is read -/

theorem lt_of_readFraction {s rest : List Char} {n : Nat}
    (h : readFraction s = some (n, rest)) : n < nanosPerSecond := by
  unfold readFraction at h
  split at h
  · rename_i s
    dsimp only at h
    split at h
    · cases h
    · cases h
      have hdigits : ∀ c ∈ (s.takeWhile isDigit).take 9, isDigit c = true := by
        intro c hc
        exact List.mem_takeWhile_imp (List.mem_of_mem_take hc)
      have hvalue := digitsValue_lt hdigits 0
      have hlength : ((s.takeWhile isDigit).take 9).length ≤ 9 := List.length_take_le 9 _
      have hpow : 10 ^ ((s.takeWhile isDigit).take 9).length *
          10 ^ (9 - ((s.takeWhile isDigit).take 9).length) = nanosPerSecond := by
        rw [← Nat.pow_add, Nat.add_sub_cancel' hlength]
        rfl
      rw [Nat.zero_add, Nat.one_mul] at hvalue
      rw [← hpow]
      exact Nat.mul_lt_mul_of_pos_right hvalue (Nat.pow_pos (by decide))
  · cases h
    decide

/-- Whatever is read can be represented. -/
theorem isRepresentable_of_read? {text : List Char} {t : Instant} (h : read? text = some t) :
    t.IsRepresentable := by
  unfold read? at h
  obtain ⟨⟨year, _⟩, -, h⟩ := Option.bind_eq_some_iff.1 h
  obtain ⟨_, -, h⟩ := Option.bind_eq_some_iff.1 h
  obtain ⟨⟨month, _⟩, -, h⟩ := Option.bind_eq_some_iff.1 h
  obtain ⟨_, -, h⟩ := Option.bind_eq_some_iff.1 h
  obtain ⟨⟨day, _⟩, -, h⟩ := Option.bind_eq_some_iff.1 h
  obtain ⟨_, -, h⟩ := Option.bind_eq_some_iff.1 h
  obtain ⟨⟨hour, _⟩, -, h⟩ := Option.bind_eq_some_iff.1 h
  obtain ⟨_, -, h⟩ := Option.bind_eq_some_iff.1 h
  obtain ⟨⟨minute, _⟩, -, h⟩ := Option.bind_eq_some_iff.1 h
  obtain ⟨_, -, h⟩ := Option.bind_eq_some_iff.1 h
  obtain ⟨⟨second, _⟩, -, h⟩ := Option.bind_eq_some_iff.1 h
  obtain ⟨⟨nanos, _⟩, hfraction, h⟩ := Option.bind_eq_some_iff.1 h
  obtain ⟨⟨offset, _⟩, -, h⟩ := Option.bind_eq_some_iff.1 h
  have hnanos := lt_of_readFraction hfraction
  simp only [nanosPerSecond] at hnanos
  -- the sixtieth second is the only one that adds to the nanoseconds
  simp only at h
  split at h
  · cases h
    simp only [IsRepresentable, ofClock, nanosPerSecond]
    split <;> omega
  · cases h

/-! ## Instants of the store -/

/-- Whether an instant is one that the store can keep: a clock can show it, and it
has nothing below a microsecond. -/
def IsKept (t : Instant) : Prop := t.IsProper ∧ t.cutToMicros = t

theorem IsProper.isKept_cutToMicros {t : Instant} (h : t.IsProper) : t.cutToMicros.IsKept :=
  ⟨h.cutToMicros, t.cutToMicros_idem⟩

/-- An instant that the store keeps is read back as it is, or not at all. -/
theorem read?_toStoredText_iff {t u : Instant} (h : t.IsKept) :
    read? t.toStoredText.toList = some u ↔ u = t ∧ t.YearWithin 0 9999 := by
  by_cases hy : t.YearWithin 0 9999
  · rw [read?_toStoredText h.1 hy, h.2, Option.some.injEq]
    exact ⟨fun heq => ⟨heq.symm, hy⟩, fun heq => heq.1.symm⟩
  · rw [read?_toStoredText_eq_none hy]
    exact ⟨fun hnone => (nomatch hnone), fun heq => absurd heq.2 hy⟩

theorem YearWithin.mono {first last first' last' : Int} {t : Instant}
    (h : t.YearWithin first last) (hfirst : first' ≤ first) (hlast : last ≤ last') :
    t.YearWithin first' last' :=
  ⟨Int.le_trans hfirst h.1, Int.le_trans h.2 hlast⟩

theorem YearWithin.cutToMicros {first last : Int} {t : Instant} (h : t.YearWithin first last) :
    t.cutToMicros.YearWithin first last := h

theorem YearWithin.latest {first last : Int} {a b : Instant} (ha : a.YearWithin first last)
    (hb : b.YearWithin first last) : (a.latest b).YearWithin first last := by
  rcases latest_eq a b with h | h <;> rw [h] <;> assumption

theorem IsRepresentable.latest {a b : Instant} (ha : a.IsRepresentable)
    (hb : b.IsRepresentable) : (a.latest b).IsRepresentable := by
  rcases latest_eq a b with h | h <;> rw [h] <;> assumption

theorem IsProper.latest {a b : Instant} (ha : a.IsProper) (hb : b.IsProper) :
    (a.latest b).IsProper := by
  rcases latest_eq a b with h | h <;> rw [h] <;> assumption

end Instant

end Marginalia.Time
