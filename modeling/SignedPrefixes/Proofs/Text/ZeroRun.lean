import Mathlib
import SignedPrefixes.Ipv6

/-!
# Runs of zero groups

The groups of an address may contain several runs of zeros. The one that is left out of the text
is the first of the longest ones, which is unique as soon as there is a zero at all.
-/

namespace SignedPrefixes.Ipv6

variable {gs : List ℕ} {start start' length length' : ℕ}

/-- The given number of groups from a place on are zero. -/
def IsZeroRun (gs : List ℕ) (start length : ℕ) : Prop := ∀ i < length, gs[start + i]? = some 0

/-- A run of zeros such that no other one is longer, and none of its length starts before. -/
structure IsFirstLongestZeroRun (gs : List ℕ) (start length : ℕ) : Prop where
  /-- There are zeros from the start on. -/
  isZeroRun : IsZeroRun gs start length
  /-- No run is longer. -/
  le_length : ∀ {start' length'}, IsZeroRun gs start' length' → length' ≤ length
  /-- No run of this length starts before. -/
  le_start : ∀ {start'}, IsZeroRun gs start' length → start ≤ start'

/-- There is one first run of zeros that is longest. -/
theorem IsFirstLongestZeroRun.unique (h : IsFirstLongestZeroRun gs start length)
    (h' : IsFirstLongestZeroRun gs start' length') : start = start' ∧ length = length' := by
  obtain rfl : length = length' :=
    le_antisymm (h'.le_length h.isZeroRun) (h.le_length h'.isZeroRun)
  exact ⟨le_antisymm (h.le_start h'.isZeroRun) (h'.le_start h.isZeroRun), rfl⟩

/-- A run of zeros lies within the groups. -/
theorem IsZeroRun.add_le (h : IsZeroRun gs start length) (hpos : 0 < length) :
    start + length ≤ gs.length := by
  have hlast := h (length - 1) (by omega)
  obtain ⟨hlt, -⟩ := List.getElem?_eq_some_iff.mp hlast
  omega

/-- What stands before and after a run of zeros makes up the groups if zeros are put between. -/
theorem IsZeroRun.take_append_drop (h : IsZeroRun gs start length)
    (hle : start + length ≤ gs.length) :
    gs.take start ++ List.replicate length 0 ++ gs.drop (start + length) = gs := by
  have hzeros : (gs.drop start).take length = List.replicate length 0 := by
    refine List.eq_replicate_iff.mpr ⟨by rw [List.length_take, List.length_drop]; omega, ?_⟩
    intro g hg
    obtain ⟨i, hi⟩ := List.mem_iff_getElem?.mp hg
    rw [List.getElem?_take, List.getElem?_drop] at hi
    split_ifs at hi with hlt
    exact Option.some.inj (hi.symm.trans (h i hlt))
  rw [← hzeros, List.append_assoc, ← List.drop_drop, List.take_append_drop,
    List.take_append_drop]

/-- A run at the front is no longer than the zeros there. -/
private theorem isZeroRun_zero_iff : IsZeroRun gs 0 length ↔ length ≤ leadingZeros gs := by
  induction gs generalizing length with
  | nil =>
    cases length with
    | zero => exact iff_of_true nofun le_rfl
    | succ length =>
      exact iff_of_false (fun h => nomatch h 0 (Nat.succ_pos length)) (Nat.not_succ_le_zero length)
  | cons g gs ih =>
    cases length with
    | zero => exact iff_of_true nofun (Nat.zero_le _)
    | succ length =>
      have htail : (∀ i < length, (g :: gs)[0 + (i + 1)]? = some 0) ↔ IsZeroRun gs 0 length := by
        simp [IsZeroRun]
      by_cases hg : g = 0
      · have hcount : leadingZeros (g :: gs) = leadingZeros gs + 1 := by
          simp [leadingZeros, hg]
        rw [hcount, Nat.add_le_add_iff_right, ← ih, ← htail]
        refine ⟨fun h i hi => h (i + 1) (Nat.succ_lt_succ hi), fun h i hi => ?_⟩
        cases i with
        | zero => simp [hg]
        | succ i => exact h i (Nat.lt_of_succ_lt_succ hi)
      · have hcount : leadingZeros (g :: gs) = 0 := by simp [leadingZeros, hg]
        rw [hcount]
        refine iff_of_false (fun h => hg ?_) (Nat.not_succ_le_zero length)
        simpa using h 0 (Nat.succ_pos length)

/-- A run of zeros is not longer than the zeros that are counted from its start. -/
theorem isZeroRun_iff : IsZeroRun gs start length ↔ length ≤ leadingZeros (gs.drop start) := by
  rw [← isZeroRun_zero_iff]
  simp [IsZeroRun, List.getElem?_drop]

/-- The search keeps the first place with the most zeros of those it has seen. -/
private theorem foldl_longest (f : ℕ → ℕ) (n : ℕ) :
    ∃ start length, (List.range n).foldl
        (fun best i => if best.2 < f i then (i, f i) else best) (0, 0) = (start, length) ∧
      length ≤ f start ∧ (∀ i < n, f i ≤ length) ∧ ∀ i < start, f i < length := by
  induction n with
  | zero => exact ⟨0, 0, rfl, Nat.zero_le _, nofun, nofun⟩
  | succ n ih =>
    obtain ⟨start, length, hfold, hstart, hlongest, hfirst⟩ := ih
    rw [List.range_succ, List.foldl_append, hfold, List.foldl_cons, List.foldl_nil]
    by_cases hlt : length < f n
    · refine ⟨n, f n, if_pos hlt, le_rfl, fun i hi => ?_, fun i hi => ?_⟩
      · rcases Nat.lt_succ_iff_lt_or_eq.mp hi with hi | rfl
        · exact (hlongest i hi).trans hlt.le
        · exact le_rfl
      · exact (hlongest i hi).trans_lt hlt
    · refine ⟨start, length, if_neg hlt, hstart, fun i hi => ?_, hfirst⟩
      rcases Nat.lt_succ_iff_lt_or_eq.mp hi with hi | rfl
      · exact hlongest i hi
      · exact Nat.le_of_not_lt hlt

/-- The search finds the first longest run of zeros. -/
theorem isFirstLongestZeroRun_longestZeroRun (gs : List ℕ) :
    IsFirstLongestZeroRun gs (longestZeroRun gs).1 (longestZeroRun gs).2 := by
  obtain ⟨start, length, hsearch, hstart, hlongest, hfirst⟩ :=
    foldl_longest (fun i => leadingZeros (gs.drop i)) gs.length
  have hfound : longestZeroRun gs = (start, length) := hsearch
  rw [hfound]
  refine ⟨isZeroRun_iff.mpr hstart, fun {start' length'} h => ?_, fun {start'} h => ?_⟩
  · by_cases hlt : start' < gs.length
    · exact (isZeroRun_iff.mp h).trans (hlongest start' hlt)
    · have hempty := isZeroRun_iff.mp h
      rw [List.drop_of_length_le (Nat.le_of_not_lt hlt)] at hempty
      exact hempty.trans (Nat.zero_le length)
  · by_contra hlt
    exact absurd (hfirst start' (Nat.lt_of_not_le hlt)) (isZeroRun_iff.mp h).not_gt

end SignedPrefixes.Ipv6
