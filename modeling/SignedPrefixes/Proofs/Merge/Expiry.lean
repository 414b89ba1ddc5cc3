import SignedPrefixes.Proofs.Merge.Transferred
import SignedPrefixes.Proofs.Text.Time

/-!
# What is left of an expiry

A record is handed over with the whole second in which it expires. Times made from a number of
seconds or from calendar and clock are whole seconds and arrive as they are. A text may say a
part of a second or a leap second, and that part is lost on the way. Two expiries never change
places, but they become the same if they are in the same second.
-/

namespace SignedPrefixes

namespace Time

variable {s t : Time}

/-- Whole seconds are in the order of the times in them, unless these are in the same second. -/
theorem wholeSecond_lt_wholeSecond_iff :
    s.wholeSecond < t.wholeSecond ↔ s < t ∧ s.seconds ≠ t.seconds := by
  simp only [lt_iff, wholeSecond, lt_irrefl, and_false, or_false]
  omega

end Time

namespace MergeTable

/-- A list and a record of its AS number that arrive with their whole seconds are merged with the
same report, unless the record expires later in the same second. -/
theorem reportFor_wholeSecond_eq_iff (v : Vsp) (r : Record) (t : Time) (repo : Option RepoId) :
    reportFor (some { v with expires := v.expires.wholeSecond })
        (r.withExpires t.wholeSecond).handedOver repo =
      reportFor (some v) (r.withExpires t) repo ↔
        ¬(v.expires < t ∧ v.expires.seconds = t.seconds) := by
  change (if v.expires.wholeSecond < t.wholeSecond then _ else _) =
    (if v.expires < t then _ else _) ↔ _
  simp only [Time.wholeSecond_lt_wholeSecond_iff]
  by_cases hlater : v.expires < t
  · by_cases hsame : v.expires.seconds = t.seconds
    · rw [if_neg fun h => h.2 hsame, if_pos hlater]
      refine iff_of_false (fun h => ?_) fun h => h ⟨hlater, hsame⟩
      -- The report on the right has two events more.
      have hlength := congrArg (fun report => report.events.length) h
      cases hlength
    · rw [if_pos ⟨hlater, hsame⟩, if_pos hlater]
      exact iff_of_true rfl fun h => hsame h.2
  · rw [if_neg fun h => hlater h.1, if_neg hlater]
    exact iff_of_true rfl fun h => hlater h.1

end MergeTable

namespace Record

variable {r : Record}

/-- A record arrives with the whole second of its expiry. -/
theorem decode_encode_withExpires (hr : r.Produced) (hcount : r.prefixes.length < 2 ^ 32)
    (haia : r.aia.utf8ByteSize < 2 ^ 32) (haki : r.aki.utf8ByteSize < 2 ^ 32)
    (hski : r.ski.utf8ByteSize < 2 ^ 32) (t : Time) (rest : Octets) :
    decode ((r.withExpires t).encode ++ rest) =
      .ok ((r.withExpires t.wholeSecond).handedOver, rest) := by
  have hportable := (hr.withExpires t.wholeSecond).portable rfl hcount haia haki hski
  exact hportable.carries.take_append rest

/-- A record arrives with the time that its number of seconds stands for, so an expiry survives
exactly if it has no part below one second. Times made from a number of seconds or from calendar
and clock have none, but the texts of times say any time there is. Merging what arrives reports
the same as before, unless the record expires later in the same second. -/
theorem expires_received (hr : r.Produced) (hcount : r.prefixes.length < 2 ^ 32)
    (haia : r.aia.utf8ByteSize < 2 ^ 32) (haki : r.aki.utf8ByteSize < 2 ^ 32)
    (hski : r.ski.utf8ByteSize < 2 ^ 32) :
    (∀ t rest, ∃ received, decode ((r.withExpires t).encode ++ rest) = .ok (received, rest) ∧
      Time.ofSeconds? t.seconds = some received.expires ∧
      (received.expires = t ↔ t.nanos = 0) ∧
      ∀ v repo, MergeTable.reportFor (some { v with expires := v.expires.wholeSecond }) received
          repo = MergeTable.reportFor (some v) (r.withExpires t) repo ↔
        ¬(v.expires < t ∧ v.expires.seconds = t.seconds)) ∧
    (∀ c t, Time.ofCivil? c = some t → t.nanos = 0) ∧
    (∀ n t, Time.ofSeconds? n = some t → t.nanos = 0) ∧
    ∀ t : Time, ∃ j, Time.ofJson j = .ok t := by
  refine ⟨fun t rest => ?_, fun c t => Time.nanos_eq_zero_of_ofCivil?,
    fun n t h => (Time.ofSeconds?_eq_some_iff.mp h).2, fun t => ⟨t.toJson, t.ofJson_toJson⟩⟩
  refine ⟨_, decode_encode_withExpires hr hcount haia haki hski t rest, t.ofSeconds?_seconds,
    Time.wholeSecond_eq_iff, fun v repo => ?_⟩
  exact MergeTable.reportFor_wholeSecond_eq_iff v r t repo

/-- Half a second after 2024-05-15T14:43:32Z. -/
def halfSecond : Time := (Time.new? 1715784212 500000000).get rfl

/-- A record that expires half a second after a whole one is received as expiring earlier. -/
theorem expires_received_halfSecond :
    sampleProcessed.Produced ∧ halfSecond.nanos ≠ 0 ∧
      ∃ received, decode ((sampleProcessed.withExpires halfSecond).encode ++ [7]) =
        .ok (received, [7]) ∧ received.expires ≠ halfSecond := by
  obtain ⟨harrives, -⟩ := expires_received produced_sampleProcessed (by decide) (by decide)
    (by decide) (by decide)
  obtain ⟨received, hdecode, -, hsame, -⟩ := harrives halfSecond [7]
  have hnanos : halfSecond.nanos ≠ 0 := by decide
  exact ⟨produced_sampleProcessed, hnanos, received, hdecode, fun h => hnanos (hsame.mp h)⟩

/-- The text of a time with half a second is read, but the record arrives without it. Merged
after a record that expires half a second earlier, the record takes over the list before both
are handed over and not after it. -/
theorem halfSecond_lost :
    Time.ofJson (.string "2024-05-15T14:43:32.5Z") = .ok halfSecond ∧
      Time.ofSeconds? halfSecond.seconds ≠ some halfSecond ∧
      decode (sampleProcessed.withExpires halfSecond).encode =
        .ok ((sampleProcessed.withExpires halfSecond.wholeSecond).handedOver, []) ∧
      (sampleProcessed.withExpires halfSecond.wholeSecond).handedOver.expires ≠ halfSecond ∧
      let os : List Observation :=
        [⟨sampleProcessed.withExpires halfSecond.wholeSecond, none⟩,
          ⟨sampleProcessed.withExpires halfSecond, some ⟨7⟩⟩]
      MergeTable.empty.reportAll (Observation.received os) ≠ MergeTable.empty.reportAll os := by
  refine ⟨by decide +kernel, by decide, by decide +kernel, by decide, ?_⟩
  decide +kernel

end Record

end SignedPrefixes
