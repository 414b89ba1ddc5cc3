import SignedPrefixes.Calendar

/-!
# Points in time

Times are counted in seconds since the start of 1970, without leap seconds, and
have a part below one second that certificates leave at zero. A leap second is
kept as a part of more than one second in the last second of a minute. Times
cover the years from -262143 to 262142.
-/

namespace SignedPrefixes

/-- A point in time. -/
structure Time where
  /-- Whole seconds since the start of 1970. -/
  seconds : Int
  /-- The part below one second in nanoseconds. A part of one second or more lies
  in a leap second. -/
  nanos : Nat
  le_seconds : -8334601228800 ≤ seconds
  seconds_le : seconds ≤ 8210266876799
  nanos_lt : nanos < 2000000000
  second_eq : 1000000000 ≤ nanos → seconds % 60 = 59
  deriving DecidableEq, Repr

namespace Time

/-- By seconds, then by the part below one second. -/
instance : Ord Time := ⟨compareLex (compareOn seconds) (compareOn nanos)⟩

instance : Std.TransOrd Time :=
  inferInstanceAs (Std.TransCmp (compareLex (compareOn seconds) (compareOn nanos)))

instance : LT Time := ⟨fun s t => compare s t = .lt⟩

instance : LE Time := ⟨fun s t => compare s t ≠ .gt⟩

instance (s t : Time) : Decidable (s < t) := inferInstanceAs (Decidable (compare s t = .lt))

instance (s t : Time) : Decidable (s ≤ t) := inferInstanceAs (Decidable (compare s t ≠ .gt))

/-- The time with the given seconds and nanoseconds, if it can be represented. -/
def new? (seconds : Int) (nanos : Nat) : Option Time :=
  if h : -8334601228800 ≤ seconds ∧ seconds ≤ 8210266876799 ∧ nanos < 2000000000 ∧
      (1000000000 ≤ nanos → seconds % 60 = 59) then
    some ⟨seconds, nanos, h.1, h.2.1, h.2.2.1, h.2.2.2⟩
  else none

/-- The time at a number of seconds since the start of 1970, if it can be represented. -/
def ofSeconds? (seconds : Int) : Option Time := new? seconds 0

/-- A day and a time of day, as they appear on calendar and clock. -/
structure Civil where
  /-- The day. -/
  date : Calendar.Date
  /-- The hour, from zero. -/
  hour : Nat
  /-- The minute, from zero. -/
  minute : Nat
  /-- The second, from zero. -/
  second : Nat
  deriving DecidableEq, Repr

/-- The seconds from the start of 1970 to a day and time of day. -/
def Civil.seconds (c : Civil) : Int :=
  86400 * c.date.dayNumber + 3600 * c.hour + 60 * c.minute + c.second

/-- Whether the day exists and is in the years covered, and the time of day exists.
Leap seconds are not included. -/
def Civil.Valid (c : Civil) : Prop :=
  -262143 ≤ c.date.year ∧ c.date.year ≤ 262142 ∧ c.date.Valid ∧
    c.hour < 24 ∧ c.minute < 60 ∧ c.second < 60

instance (c : Civil) : Decidable c.Valid := inferInstanceAs (Decidable (_ ∧ _ ∧ _ ∧ _ ∧ _ ∧ _))

/-- The time at a day and time of day, if they exist. -/
def ofCivil? (c : Civil) : Option Time := if c.Valid then ofSeconds? c.seconds else none

/-- The day and time of day, without the part below one second. -/
def civil (t : Time) : Civil :=
  let second := (t.seconds % 86400).toNat
  ⟨Calendar.Date.ofDayNumber (t.seconds / 86400), second / 3600, second / 60 % 60, second % 60⟩

end Time

end SignedPrefixes
