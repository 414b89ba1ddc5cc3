import Mathlib
import SignedPrefixes.Calendar

/-!
# Days and their numbers

The years follow each other without a gap, and so do the months of a year, so every number
is that of a day which exists. Its year begins at or before the number and the next year
after it.
-/

namespace SignedPrefixes.Calendar

/-- The months make up the year. -/
theorem sum_monthLengths (isLeap : Bool) :
    (monthLengths isLeap).sum = if isLeap then 366 else 365 := by
  cases isLeap <;> rfl

/-- Later years start later. -/
theorem monotone_yearStart : Monotone yearStart := by
  apply monotone_int_of_le_succ
  intro year
  rw [yearStart_succ]
  split_ifs <;> omega

namespace Date

variable {n number year : ℤ}

/-- The year of a day is the last one that has begun. -/
theorem le_yearOf_iff : year ≤ yearOf n ↔ yearStart year ≤ n := by
  obtain ⟨hbegun, hnext⟩ := yearStart_yearOf_le n
  constructor
  · intro hle
    exact (monotone_yearStart hle).trans hbegun
  · intro hle
    by_contra hlater
    have hstart : yearStart (yearOf n + 1) ≤ yearStart year := monotone_yearStart (by omega)
    omega

/-- A year has twelve months. -/
theorem length_monthLengths (isLeap : Bool) : (monthLengths isLeap).length = 12 := rfl

/-- No month has more than 31 days. -/
theorem le_of_mem_monthLengths {isLeap : Bool} {length : ℕ} (h : length ∈ monthLengths isLeap) :
    length ≤ 31 := by
  revert length
  cases isLeap <;> decide

/-- The month and the day of a date have two digits. -/
theorem Valid.month_le_and_day_le {d : Date} (h : d.Valid) : d.month ≤ 12 ∧ d.day ≤ 31 := by
  obtain ⟨hfirst, -, hday⟩ := h
  cases hlength : (monthLengths (isLeapYear d.year))[d.month - 1]? with
  | none =>
    rw [hlength] at hday
    cases hday
  | some length =>
    rw [hlength, Option.any_some, decide_eq_true_eq] at hday
    have hmonth := (List.getElem?_eq_some_iff.mp hlength).1
    rw [length_monthLengths] at hmonth
    exact ⟨by omega, hday.trans (le_of_mem_monthLengths (List.mem_of_getElem? hlength))⟩

/-- A day of the year lies in the month that is found, after the months before it. -/
theorem findMonth_spec {lengths : List ℕ} {n : ℕ} (h : n < lengths.sum) :
    ∃ length, lengths[(findMonth lengths n).1]? = some length ∧
      (findMonth lengths n).2 < length ∧
      daysBefore lengths (findMonth lengths n).1 + (findMonth lengths n).2 = n := by
  induction lengths generalizing n with
  | nil => cases h
  | cons length lengths ih =>
    rw [List.sum_cons] at h
    unfold findMonth
    split_ifs with hn
    · exact ⟨length, rfl, hn, Nat.zero_add n⟩
    · obtain ⟨length', hlength', hlt, hbefore⟩ := ih (n := n - length) (by omega)
      refine ⟨length', hlength', hlt, ?_⟩
      simp only [daysBefore]
      omega

/-- The day of the year that is left of a number is one of its year. -/
theorem toNat_lt_sum_monthLengths (n : ℤ) :
    (n - yearStart (yearOf n)).toNat < (monthLengths (isLeapYear (yearOf n))).sum := by
  obtain ⟨hbegun, hnext⟩ := yearStart_yearOf_le n
  rw [yearStart_succ] at hnext
  rw [sum_monthLengths]
  split_ifs at hnext ⊢ <;> omega

/-- The day with a number exists. -/
theorem valid_ofDayNumber (number : ℤ) : (ofDayNumber number).Valid := by
  obtain ⟨length, hlength, hlt, -⟩ :=
    findMonth_spec (toNat_lt_sum_monthLengths (number + epochStart))
  refine ⟨Nat.succ_pos _, Nat.succ_pos _, ?_⟩
  simp only [ofDayNumber, Nat.add_sub_cancel, hlength, Option.any_some]
  exact decide_eq_true hlt

/-- The day with a number has that number. -/
theorem dayNumber_ofDayNumber (number : ℤ) : (ofDayNumber number).dayNumber = number := by
  obtain ⟨-, -, -, hbefore⟩ := findMonth_spec (toNat_lt_sum_monthLengths (number + epochStart))
  obtain ⟨hbegun, -⟩ := yearStart_yearOf_le (number + epochStart)
  simp only [ofDayNumber, dayNumber, Nat.add_sub_cancel]
  omega

/-- A day is not before a year if its number is not before the start of the year. -/
theorem le_year_ofDayNumber_iff : year ≤ (ofDayNumber number).year ↔
    yearStart year ≤ number + epochStart := le_yearOf_iff

end Date

end SignedPrefixes.Calendar
