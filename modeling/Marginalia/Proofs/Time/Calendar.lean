import Marginalia.Time.Calendar

set_option autoImplicit false

/-!
# Days and dates

Every day has one date, and the date leads back to the day.  The year of a day
is found from a guess that the mean length of a year gives; the guess is one off
at most, which is what has to be seen of the count of days before a year.  Month
and day come from going through the lengths of the months.
-/

namespace Marginalia.Time

/-! ## Years -/

/-- A year has 365 days, and one more if it is a leap year. -/
theorem daysBeforeYear_succ (y : Int) :
    daysBeforeYear (y + 1) = daysBeforeYear y + (if isLeapYear y then 366 else 365) := by
  have hleap : isLeapYear y = true ↔ y % 4 = 0 ∧ (y % 100 ≠ 0 ∨ y % 400 = 0) := by
    simp [isLeapYear]
  unfold daysBeforeYear
  split
  · rename_i h
    have := hleap.1 h
    omega
  · rename_i h
    have := mt hleap.2 h
    omega

/-- A day of the count lies in the year that is found for it. -/
theorem daysBeforeYear_yearOf (n : Int) :
    daysBeforeYear (yearOf n) ≤ n ∧ n < daysBeforeYear (yearOf n + 1) := by
  have hlow : daysBeforeYear (400 * n / 146097 - 1) ≤ n := by
    unfold daysBeforeYear
    omega
  have hhigh : n < daysBeforeYear (400 * n / 146097 + 2) := by
    unfold daysBeforeYear
    omega
  simp only [yearOf]
  split
  · rename_i h
    refine ⟨h, ?_⟩
    rw [show (400 * n / 146097 + 1 + 1 : Int) = 400 * n / 146097 + 2 by omega]
    exact hhigh
  · rename_i h
    split
    · rename_i h'
      exact ⟨h', by omega⟩
    · rename_i h'
      refine ⟨hlow, ?_⟩
      rw [show (400 * n / 146097 - 1 + 1 : Int) = 400 * n / 146097 by omega]
      omega

theorem daysBeforeYear_mono {a b : Int} (h : a ≤ b) : daysBeforeYear a ≤ daysBeforeYear b := by
  unfold daysBeforeYear
  omega

/-- A day lies in a year or later when the days before the year are over. -/
theorem le_yearOf_iff (y n : Int) : y ≤ yearOf n ↔ daysBeforeYear y ≤ n := by
  obtain ⟨hlow, hhigh⟩ := daysBeforeYear_yearOf n
  constructor
  · intro h
    exact Int.le_trans (daysBeforeYear_mono h) hlow
  · intro h
    refine Int.not_lt.1 fun hlate => ?_
    have := daysBeforeYear_mono (show yearOf n + 1 ≤ y by omega)
    omega

/-! ## Months -/

theorem daysOf_monthLengths (leap : Bool) :
    daysOf (monthLengths leap) = if leap then 366 else 365 := by
  cases leap <;> rfl

theorem length_monthLengths (leap : Bool) : (monthLengths leap).length = 12 := by
  cases leap <;> rfl

theorem daysInMonth_le (leap : Bool) (month : Nat) : daysInMonth leap month ≤ 31 := by
  by_cases h : month ≤ 12
  · have all : ∀ leap, ∀ m < 13, daysInMonth leap m ≤ 31 := by decide
    exact all leap month (by omega)
  · have hlen : (monthLengths leap).length ≤ month - 1 := by rw [length_monthLengths]; omega
    rw [daysInMonth, if_neg (by omega), List.getD_eq_getElem?_getD, List.getElem?_eq_none hlen]
    exact Nat.zero_le 31

/-- The month and day found in a list of months: the month is one of the list,
the day is one of the month, and together they give the day back. -/
theorem splitMonth_spec (lengths : List Nat) (first n : Nat) (h : n < daysOf lengths) :
    ∃ i, (splitMonth lengths first n).1 = first + i ∧ i < lengths.length ∧
      1 ≤ (splitMonth lengths first n).2 ∧ (splitMonth lengths first n).2 ≤ lengths.getD i 0 ∧
      daysOf (lengths.take i) + (splitMonth lengths first n).2 = n + 1 := by
  induction lengths generalizing first n with
  | nil => exact absurd h (Nat.not_lt_zero n)
  | cons length rest ih =>
    unfold splitMonth
    split
    · rename_i hn
      exact ⟨0, by simp, by simp, by simp, hn, Nat.zero_add _⟩
    · rename_i hn
      unfold daysOf at h
      obtain ⟨i, hmonth, hi, hday, hlast, hsum⟩ := ih (first + 1) (n - length) (by omega)
      refine ⟨i + 1, by omega, by simpa using hi, hday, by simpa using hlast, ?_⟩
      rw [List.take_succ_cons, daysOf]
      omega

/-! ## Dates -/

namespace Date

/-- The year of a day, and the number of the day in the year. -/
theorem dayInYear_lt (n : Int) :
    (n - daysBeforeYear (yearOf n)).toNat < daysOf (monthLengths (isLeapYear (yearOf n))) := by
  obtain ⟨hlow, hhigh⟩ := daysBeforeYear_yearOf n
  rw [daysBeforeYear_succ] at hhigh
  rw [daysOf_monthLengths]
  split at hhigh
  · rename_i hleap
    rw [if_pos hleap]
    omega
  · rename_i hleap
    rw [if_neg hleap]
    omega

theorem year_ofEpochDay (days : Int) : (ofEpochDay days).year = yearOf (days + epochDays) := rfl

/-- The date of a day exists. -/
theorem isValid_ofEpochDay (days : Int) : (ofEpochDay days).isValid = true := by
  obtain ⟨i, hmonth, hi, hday, hlast, -⟩ :=
    splitMonth_spec _ 1 _ (dayInYear_lt (days + epochDays))
  rw [length_monthLengths] at hi
  simp only [ofEpochDay, isValid, hmonth, daysInMonth, Bool.and_eq_true, decide_eq_true_eq]
  refine ⟨⟨⟨by omega, by omega⟩, hday⟩, ?_⟩
  rw [if_neg (by omega), show 1 + i - 1 = i by omega]
  exact hlast

/-- The date of a day leads back to the day. -/
theorem toEpochDay_ofEpochDay (days : Int) : (ofEpochDay days).toEpochDay = days := by
  obtain ⟨i, hmonth, -, -, -, hsum⟩ :=
    splitMonth_spec _ 1 _ (dayInYear_lt (days + epochDays))
  obtain ⟨hlow, -⟩ := daysBeforeYear_yearOf (days + epochDays)
  simp only [ofEpochDay, toEpochDay, hmonth]
  rw [show 1 + i - 1 = i by omega]
  omega

theorem month_ofEpochDay_lt (days : Int) : (ofEpochDay days).month < 100 := by
  have h := isValid_ofEpochDay days
  simp only [isValid, Bool.and_eq_true, decide_eq_true_eq] at h
  omega

theorem day_ofEpochDay_lt (days : Int) : (ofEpochDay days).day < 100 := by
  have h := isValid_ofEpochDay days
  simp only [isValid, Bool.and_eq_true, decide_eq_true_eq] at h
  have := daysInMonth_le (isLeapYear (ofEpochDay days).year) (ofEpochDay days).month
  omega

end Date

end Marginalia.Time
