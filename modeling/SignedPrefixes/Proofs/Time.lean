import SignedPrefixes.Proofs.Calendar
import SignedPrefixes.Proofs.Order

/-!
# Times on calendar and clock

Every time has a day and a time of day which exist and from which it is found again. The whole
second in which a time lies comes at or before it, and is what its number of seconds stands for.
-/

namespace SignedPrefixes.Time

open Calendar

variable {s t : Time}

/-- A time is made of its seconds and nanoseconds. -/
theorem new?_seconds_nanos (t : Time) : new? t.seconds t.nanos = some t :=
  dif_pos ⟨t.le_seconds, t.seconds_le, t.nanos_lt, t.second_eq⟩

section Civil

/-- The date and the time of day of a time are those of its seconds. -/
theorem seconds_civil (t : Time) : t.civil.seconds = t.seconds := by
  simp only [civil, Civil.seconds, Date.dayNumber_ofDayNumber]
  omega

/-- Day and time of day of a time exist. -/
theorem valid_civil (t : Time) : t.civil.Valid := by
  have hfirst := t.le_seconds
  have hlast := t.seconds_le
  have hyear : -262143 ≤ t.civil.date.year ∧ t.civil.date.year < 262143 := by
    rw [← not_le, civil, Date.le_year_ofDayNumber_iff, Date.le_year_ofDayNumber_iff]
    simp only [yearStart, epochStart]
    omega
  refine ⟨hyear.1, Int.le_of_lt_add_one hyear.2, Date.valid_ofDayNumber _, ?_, ?_, ?_⟩
  all_goals
    simp only [civil]
    omega

/-- A leap second is kept in the last second of a minute. -/
theorem second_civil_of_le_nanos (h : 1000000000 ≤ t.nanos) : t.civil.second = 59 := by
  have hsecond := t.second_eq h
  simp only [civil]
  omega

end Civil

/-- The whole second in which a time lies. -/
def wholeSecond (t : Time) : Time where
  seconds := t.seconds
  nanos := 0
  le_seconds := t.le_seconds
  seconds_le := t.seconds_le
  nanos_lt := (Nat.zero_le t.nanos).trans_lt t.nanos_lt
  second_eq := nofun

/-- A number of seconds stands for the whole second. -/
theorem ofSeconds?_seconds (t : Time) : ofSeconds? t.seconds = some t.wholeSecond :=
  t.wholeSecond.new?_seconds_nanos

/-- A time that is made of seconds has no part below them. -/
theorem ofSeconds?_eq_some_iff {n : ℤ} :
    ofSeconds? n = some t ↔ t.seconds = n ∧ t.nanos = 0 := by
  constructor
  · intro h
    unfold ofSeconds? new? at h
    split_ifs at h
    cases h
    exact ⟨rfl, rfl⟩
  · rintro ⟨rfl, hnanos⟩
    have hnew := t.new?_seconds_nanos
    rwa [hnanos] at hnew

/-- A time is its whole second if there is no part below it. -/
theorem wholeSecond_eq_iff : t.wholeSecond = t ↔ t.nanos = 0 := by
  rw [← Option.some_inj, ← ofSeconds?_seconds, ofSeconds?_eq_some_iff]
  exact and_iff_right rfl

/-- Days and times of day are those of whole seconds. -/
theorem nanos_eq_zero_of_ofCivil? {c : Civil} (h : ofCivil? c = some t) : t.nanos = 0 := by
  unfold ofCivil? at h
  split_ifs at h
  exact (ofSeconds?_eq_some_iff.mp h).2

/-- Times are compared by their seconds, and then by the part below. -/
theorem lt_iff : s < t ↔ s.seconds < t.seconds ∨ s.seconds = t.seconds ∧ s.nanos < t.nanos := by
  change (compareOn seconds s t).then (compareOn nanos s t) = .lt ↔ _
  rw [Ordering.then_eq_lt]
  simp only [compareOn, compare_lt_iff_lt, compare_eq_iff_eq]

end SignedPrefixes.Time
