import Mathlib
import SignedPrefixes.Merge.Vsp
import SignedPrefixes.Proofs.Order

/-!
# Merging is a sorted union

Merging walks along two strictly ascending lists once. The stored prefixes before
an incoming one stay in front of it, and the walk goes on behind it. The outcome is
the strictly ascending list of what is in either list.
-/

namespace SignedPrefixes.Vsp

/-- The walk splits the stored prefixes where the first one is not before `p`. -/
theorem passBefore_eq (p : IpPrefix) (passed stored : List IpPrefix) :
    passBefore p passed stored =
      ((stored.takeWhile (· < p)).reverse ++ passed, stored.dropWhile (· < p)) := by
  induction stored generalizing passed with
  | nil => rfl
  | cons q stored ih =>
    by_cases hq : q < p
    · simp [passBefore, hq, ih]
    · simp [passBefore, hq]

/-- One step of the walk, with the prefix `p` itself taken off what is stored. -/
theorem mergeFrom_cons (passed stored : List IpPrefix) (p : IpPrefix) (incoming : List IpPrefix) :
    mergeFrom passed stored (p :: incoming) =
      mergeFrom (p :: ((stored.takeWhile (· < p)).reverse ++ passed))
        (if (stored.dropWhile (· < p)).head? = some p then (stored.dropWhile (· < p)).tail
          else stored.dropWhile (· < p)) incoming := by
  simp only [mergeFrom, passBefore_eq]
  cases stored.dropWhile (· < p) with
  | nil => simp
  | cons q rest => simp

/-- What has been passed stays in front. -/
theorem mergeFrom_eq_append (passed stored incoming : List IpPrefix) :
    mergeFrom passed stored incoming = passed.reverse ++ mergePrefixes stored incoming := by
  induction incoming generalizing passed stored with
  | nil => simp [mergePrefixes, mergeFrom]
  | cons p incoming ih =>
    rw [mergePrefixes, mergeFrom_cons, mergeFrom_cons, ih, ih (p :: (_ ++ []))]
    simp

/-- Nothing is merged into a list from an empty one. -/
@[simp] theorem mergePrefixes_nil (stored : List IpPrefix) : mergePrefixes stored [] = stored := rfl

/-- The prefixes below another one stand at the front. -/
private theorem takeWhile_lt {stored : List IpPrefix} (hstored : stored.Pairwise (· < ·))
    (p : IpPrefix) : stored.takeWhile (· < p) = stored.filter (· < p) := by
  induction stored with
  | nil => rfl
  | cons q stored ih =>
    rw [List.pairwise_cons] at hstored
    by_cases hq : q < p
    · simp [hq, ih hstored.2]
    · have hnone : stored.filter (· < p) = [] := by
        rw [List.filter_eq_nil_iff]
        intro r hr
        have hqr := hstored.1 r hr
        simp only [decide_eq_true_eq, not_lt] at hq ⊢
        exact hq.trans hqr.le
      simp [hq, hnone]

/-- Without the prefix itself, the prefixes above it stand behind. -/
private theorem tail_dropWhile_lt {stored : List IpPrefix} (hstored : stored.Pairwise (· < ·))
    (p : IpPrefix) :
    (if (stored.dropWhile (· < p)).head? = some p then (stored.dropWhile (· < p)).tail
      else stored.dropWhile (· < p)) = stored.filter (p < ·) := by
  induction stored with
  | nil => rfl
  | cons q stored ih =>
    rw [List.pairwise_cons] at hstored
    have hall (h : p ≤ q) : stored.filter (p < ·) = stored := by
      rw [List.filter_eq_self]
      exact fun r hr => decide_eq_true (h.trans_lt (hstored.1 r hr))
    rcases lt_trichotomy q p with hq | rfl | hq
    · simpa [hq, not_lt.mpr hq.le] using ih hstored.2
    · simp [hall le_rfl]
    · simp [hq, not_lt.mpr hq.le, hq.ne', hall hq.le]

/-- One step of the walk through ascending prefixes: those before `p`, then `p`, then
the walk through those after `p`. -/
theorem mergePrefixes_cons {stored : List IpPrefix} (hstored : stored.Pairwise (· < ·))
    (p : IpPrefix) (incoming : List IpPrefix) :
    mergePrefixes stored (p :: incoming) =
      stored.filter (· < p) ++ p :: mergePrefixes (stored.filter (p < ·)) incoming := by
  rw [mergePrefixes, mergeFrom_cons, tail_dropWhile_lt hstored, takeWhile_lt hstored,
    mergeFrom_eq_append]
  simp

variable {stored incoming : List IpPrefix}

/-- Nothing is lost and nothing is made up. -/
theorem mem_mergePrefixes (hstored : stored.Pairwise (· < ·)) {p : IpPrefix} :
    p ∈ mergePrefixes stored incoming ↔ p ∈ stored ∨ p ∈ incoming := by
  induction incoming generalizing stored with
  | nil => simp
  | cons q incoming ih =>
    rw [mergePrefixes_cons hstored, List.mem_append, List.mem_cons, ih (hstored.filter _)]
    simp only [List.mem_filter, decide_eq_true_eq, List.mem_cons]
    rcases lt_trichotomy p q with hp | rfl | hp
    · simp [hp, not_lt.mpr hp.le, hp.ne]
    · simp
    · simp [hp, not_lt.mpr hp.le, hp.ne']

/-- Merging ascending prefixes into ascending prefixes gives ascending prefixes. -/
theorem pairwise_mergePrefixes (hstored : stored.Pairwise (· < ·))
    (hincoming : incoming.Pairwise (· < ·)) :
    (mergePrefixes stored incoming).Pairwise (· < ·) := by
  induction incoming generalizing stored with
  | nil => simpa using hstored
  | cons q incoming ih =>
    rw [List.pairwise_cons] at hincoming
    rw [mergePrefixes_cons hstored, List.pairwise_append, List.pairwise_cons]
    have hafter : ∀ p ∈ mergePrefixes (stored.filter (q < ·)) incoming, q < p := by
      intro p hp
      rw [mem_mergePrefixes (hstored.filter _), List.mem_filter, decide_eq_true_eq] at hp
      rcases hp with ⟨_, hp⟩ | hp
      · exact hp
      · exact hincoming.1 p hp
    refine ⟨hstored.filter _, ⟨hafter, ih (hstored.filter _) hincoming.2⟩, ?_⟩
    intro p hp r hr
    rw [List.mem_filter, decide_eq_true_eq] at hp
    rw [List.mem_cons] at hr
    rcases hr with rfl | hr
    · exact hp.2
    · exact hp.2.trans (hafter r hr)

end SignedPrefixes.Vsp
