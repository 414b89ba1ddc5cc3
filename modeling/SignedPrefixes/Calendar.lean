/-!
# The Gregorian calendar

Days are numbered from 1970-01-01, and the calendar is extended without a gap to
years before its introduction. Year zero exists. A number of a day determines its
year by the day on which years begin, and then month and day by the lengths of
the months of that year.
-/

namespace SignedPrefixes.Calendar

/-- Whether a year has a 29th of February. -/
def isLeapYear (year : Int) : Bool := year % 4 = 0 ∧ (year % 100 ≠ 0 ∨ year % 400 = 0)

/-- The lengths of the months of a year. -/
def monthLengths (isLeap : Bool) : List Nat :=
  [31, if isLeap then 29 else 28, 31, 30, 31, 30, 31, 31, 30, 31, 30, 31]

/-- The number of days from the start of year zero to the start of a year. -/
def yearStart (year : Int) : Int :=
  365 * year + (year + 3) / 4 - (year + 99) / 100 + (year + 399) / 400

/-- The number of days from the start of year zero to 1970-01-01. -/
def epochStart : Int := 719528

/-- A day of the calendar. -/
structure Date where
  /-- The year, which may be zero or negative. -/
  year : Int
  /-- The month, from one. -/
  month : Nat
  /-- The day of the month, from one. -/
  day : Nat
  deriving DecidableEq, Repr

namespace Date

/-- Whether the month and the day exist in the year. -/
def Valid (d : Date) : Prop :=
  1 ≤ d.month ∧ 1 ≤ d.day ∧
    (monthLengths (isLeapYear d.year))[d.month - 1]?.any (d.day ≤ ·) = true

instance (d : Date) : Decidable d.Valid := inferInstanceAs (Decidable (_ ∧ _ ∧ _))

/-- The number of days before a month, given the lengths of all months and the
number of months before it. -/
def daysBefore : List Nat → (months : Nat) → Nat
  | length :: lengths, months + 1 => length + daysBefore lengths months
  | _, _ => 0

/-- The number of days from 1970-01-01 to a day. -/
def dayNumber (d : Date) : Int :=
  yearStart d.year + daysBefore (monthLengths (isLeapYear d.year)) (d.month - 1) + (d.day - 1) -
    epochStart

/-- Finds the month and the day of the month for a day of the year, all counted
from zero. -/
def findMonth : List Nat → Nat → Nat × Nat
  | length :: lengths, n =>
    if n < length then (0, n)
    else
      let (month, day) := findMonth lengths (n - length)
      (month + 1, day)
  | [], n => (0, n)

/-- The year in which a day lies, counted from the start of year zero. The mean
length of a year gives the year or one of its neighbours. -/
def yearOf (n : Int) : Int :=
  let guess := 400 * n / 146097
  if n < yearStart guess then guess - 1
  else if yearStart (guess + 1) ≤ n then guess + 1
  else guess

/-- The day with a number. -/
def ofDayNumber (number : Int) : Date :=
  let n := number + epochStart
  let year := yearOf n
  let (month, day) := findMonth (monthLengths (isLeapYear year)) (n - yearStart year).toNat
  ⟨year, month + 1, day + 1⟩

end Date

/-- A year is followed by the next one after its days. -/
theorem yearStart_succ (year : Int) :
    yearStart (year + 1) = yearStart year + if isLeapYear year then 366 else 365 := by
  unfold yearStart isLeapYear
  split <;> simp_all <;> omega

/-- A day lies between the start of its year and the start of the next one. -/
theorem yearStart_yearOf_le (n : Int) :
    yearStart (Date.yearOf n) ≤ n ∧ n < yearStart (Date.yearOf n + 1) := by
  simp only [Date.yearOf]
  split
  · rename_i h
    rw [Int.sub_add_cancel]
    refine ⟨?_, h⟩
    simp only [yearStart]
    omega
  · rename_i h
    split
    · rename_i h'
      refine ⟨h', ?_⟩
      simp only [yearStart]
      omega
    · rename_i h'
      omega

end SignedPrefixes.Calendar
