import SignedPrefixes.Merge.InPlace
import SignedPrefixes.Proofs.Merge.Union

/-!
# Merging in place is a sorted union

The place that is reached splits what is stored: in front of it are the prefixes that have
been dealt with, behind it those that were stored from the start. Inserting moves the
prefixes behind the place by one, and so does the place, so nothing is passed over and
nothing is looked at twice.
-/

namespace SignedPrefixes.Vsp

variable {stored incoming others : List IpPrefix}

section InPlace

/-- What has been passed and what has not are together what is stored. -/
theorem reverse_append_passBefore (p : IpPrefix) (passed stored : List IpPrefix) :
    (passBefore p passed stored).1.reverse ++ (passBefore p passed stored).2 =
      passed.reverse ++ stored := by
  rw [passBefore_eq, List.reverse_append, List.reverse_reverse, List.append_assoc,
    List.takeWhile_append_dropWhile]

/-- The place moves past the prefixes that the walk passes. -/
theorem seek?_eq (p : IpPrefix) (passed stored : List IpPrefix) :
    seek? p (passed.reverse ++ stored) passed.length =
      some (passBefore p passed stored).1.length := by
  induction stored generalizing passed with
  | nil =>
    unfold seek?
    rw [List.append_nil, dif_neg (by simp)]
    rfl
  | cons q stored ih =>
    have hread : (passed.reverse ++ q :: stored)[passed.length]? = some q := by
      rw [List.getElem?_append_right (List.length_reverse.le), List.length_reverse, Nat.sub_self]
      rfl
    unfold seek?
    rw [dif_pos (by simp), hread, Option.bind_eq_bind, Option.bind_some, passBefore]
    by_cases hq : q < p
    · have hnext := ih (q :: passed)
      rw [List.reverse_cons, List.append_assoc] at hnext
      rw [if_pos hq, if_pos hq]
      exact hnext
    · rw [if_neg hq, if_neg hq]
      rfl

/-- An element is inserted between the part before the place and the part behind it. -/
private theorem insertIdx_length_append (front back : List IpPrefix) (p : IpPrefix) :
    (front ++ back).insertIdx front.length p = front ++ p :: back := by
  induction front with
  | nil => rfl
  | cons q front ih => exact congrArg (q :: ·) ih

/-- What is inserted at a place has been dealt with. -/
theorem insertAt?_eq (p : IpPrefix) (passed stored : List IpPrefix) :
    insertAt? p (passed.reverse ++ stored) passed.length =
      some ((p :: passed).reverse ++ stored) := by
  unfold insertAt?
  rw [if_pos (by simp), ← List.length_reverse, insertIdx_length_append, List.reverse_cons,
    List.append_assoc, List.singleton_append]

/-- Merging from a place on is merging with the prefixes in front of the place passed. -/
theorem mergeAt?_eq (passed stored incoming : List IpPrefix) :
    mergeAt? passed.length (passed.reverse ++ stored) incoming =
      some (mergeFrom passed stored incoming) := by
  induction incoming generalizing passed stored with
  | nil => rfl
  | cons p incoming ih =>
    have hsplit := reverse_append_passBefore p passed stored
    -- The place counts the prefixes that were passed, which are kept in reverse order.
    unfold mergeAt? mergeFrom
    rw [seek?_eq, ← hsplit]
    obtain ⟨passed, stored⟩ := passBefore p passed stored
    have hread : (passed.reverse ++ stored)[passed.length]? = stored.head? := by
      rw [List.getElem?_append_right List.length_reverse.le, List.length_reverse, Nat.sub_self,
        List.head?_eq_getElem?]
    simp only [Option.bind_eq_bind, Option.bind_some, hread]
    cases stored with
    | nil =>
      rw [if_neg nofun, insertAt?_eq]
      exact ih (p :: passed) []
    | cons q rest =>
      dsimp only
      by_cases hq : q = p
      · subst hq
        have hmoved : passed.reverse ++ q :: rest = (q :: passed).reverse ++ rest := by simp
        rw [if_pos List.head?_cons, if_pos rfl, hmoved]
        exact ih (q :: passed) rest
      · rw [if_neg (by simpa using hq), if_neg hq, insertAt?_eq]
        exact ih (p :: passed) (q :: rest)

/-- The loop over places comes to the merged list and never leaves the range of places. -/
theorem mergeInPlace?_eq (stored incoming : List IpPrefix) :
    mergeInPlace? stored incoming = some (mergePrefixes stored incoming) :=
  mergeAt?_eq [] stored incoming

end InPlace

section Union

/-- Ascending prefixes are told apart by what is in them. -/
theorem mergePrefixes_eq_of_mem_iff {merged : List IpPrefix} (hstored : stored.Pairwise (· < ·))
    (hincoming : incoming.Pairwise (· < ·)) (hmerged : merged.Pairwise (· < ·))
    (hmem : ∀ p, p ∈ merged ↔ p ∈ stored ∨ p ∈ incoming) :
    mergePrefixes stored incoming = merged := by
  refine (pairwise_mergePrefixes hstored hincoming).eq_of_mem_iff hmerged fun p => ?_
  rw [mem_mergePrefixes hstored, hmem]

/-- Merging ascending prefixes with themselves changes nothing. -/
theorem mergePrefixes_self (hstored : stored.Pairwise (· < ·)) :
    mergePrefixes stored stored = stored :=
  mergePrefixes_eq_of_mem_iff hstored hstored hstored fun _ => (or_self_iff).symm

/-- It does not matter which of two ascending lists is merged into the other. -/
theorem mergePrefixes_comm (hstored : stored.Pairwise (· < ·))
    (hincoming : incoming.Pairwise (· < ·)) :
    mergePrefixes stored incoming = mergePrefixes incoming stored := by
  refine mergePrefixes_eq_of_mem_iff hstored hincoming (pairwise_mergePrefixes hincoming hstored)
    fun p => ?_
  rw [mem_mergePrefixes hincoming, or_comm]

/-- It does not matter which two of three ascending lists are merged first. -/
theorem mergePrefixes_assoc (hstored : stored.Pairwise (· < ·))
    (hincoming : incoming.Pairwise (· < ·)) (hothers : others.Pairwise (· < ·)) :
    mergePrefixes (mergePrefixes stored incoming) others =
      mergePrefixes stored (mergePrefixes incoming others) := by
  have hfirst := pairwise_mergePrefixes hstored hincoming
  have hlast := pairwise_mergePrefixes hincoming hothers
  refine mergePrefixes_eq_of_mem_iff hfirst hothers (pairwise_mergePrefixes hstored hlast)
    fun p => ?_
  rw [mem_mergePrefixes hstored, mem_mergePrefixes hincoming, mem_mergePrefixes hstored, or_assoc]

/-- What is stored stays there, in its order. -/
theorem sublist_mergePrefixes (hstored : stored.Pairwise (· < ·))
    (hincoming : incoming.Pairwise (· < ·)) :
    stored.Sublist (mergePrefixes stored incoming) := by
  have hsubset : stored ⊆ mergePrefixes stored incoming := fun p hp =>
    (mem_mergePrefixes hstored).mpr (Or.inl hp)
  have hnodup : stored.Nodup := hstored.imp fun h => h.ne
  exact List.sublist_of_subperm_of_pairwise (hnodup.subperm hsubset) hstored
    (pairwise_mergePrefixes hstored hincoming)

/-- Only prefixes that are not stored yet make the list longer. -/
theorem length_mergePrefixes (hstored : stored.Pairwise (· < ·))
    (hincoming : incoming.Pairwise (· < ·)) :
    (mergePrefixes stored incoming).length =
      stored.length + (incoming.filter (· ∉ stored)).length := by
  have hperm : (mergePrefixes stored incoming).Perm
      (stored ++ incoming.filter (· ∉ stored)) := by
    rw [List.perm_ext_iff_of_nodup ((pairwise_mergePrefixes hstored hincoming).imp fun h => h.ne)]
    · intro p
      rw [mem_mergePrefixes hstored, List.mem_append, List.mem_filter, decide_eq_true_eq]
      tauto
    · refine List.nodup_append.mpr ⟨hstored.imp fun h => h.ne,
        (hincoming.imp fun h => h.ne).filter _, ?_⟩
      rintro p hp q hq rfl
      rw [List.mem_filter, decide_eq_true_eq] at hq
      exact hq.2 hp
  rw [hperm.length_eq, List.length_append]

/-- A list is the sorted union of two lists, and the first of them with more in between. -/
structure IsSortedUnion (stored incoming merged : List IpPrefix) : Prop where
  /-- The list ascends strictly. -/
  pairwise : merged.Pairwise (· < ·)
  /-- It has the prefixes of both lists and no others. -/
  mem_iff : ∀ p, p ∈ merged ↔ p ∈ stored ∨ p ∈ incoming
  /-- The prefixes of the first list keep their order. -/
  sublist : stored.Sublist merged
  /-- It grows by the prefixes that are new. -/
  length_eq : merged.length = stored.length + (incoming.filter (· ∉ stored)).length

/-- Merging ascending lists makes their sorted union. -/
theorem isSortedUnion_mergePrefixes (hstored : stored.Pairwise (· < ·))
    (hincoming : incoming.Pairwise (· < ·)) :
    IsSortedUnion stored incoming (mergePrefixes stored incoming) where
  pairwise := pairwise_mergePrefixes hstored hincoming
  mem_iff _ := mem_mergePrefixes hstored
  sublist := sublist_mergePrefixes hstored hincoming
  length_eq := length_mergePrefixes hstored hincoming

/-- Merging ascending prefixes in place makes no mistake and leaves the sorted union, which is
what a merge without places comes to. Merging what is stored, or the same prefixes again,
changes nothing, and neither the order of two merges nor that of the two lists matters. -/
theorem mergeInPlace_sortedUnion (hstored : stored.Pairwise (· < ·))
    (hincoming : incoming.Pairwise (· < ·)) :
    ∃ merged, mergeInPlace? stored incoming = some merged ∧
      mergePrefixes stored incoming = merged ∧ IsSortedUnion stored incoming merged ∧
      mergeInPlace? stored stored = some stored ∧ mergeInPlace? merged incoming = some merged ∧
      mergeInPlace? incoming stored = some merged ∧
      ∀ others, others.Pairwise (· < ·) → ∃ rest all, mergeInPlace? incoming others = some rest ∧
        mergeInPlace? stored rest = some all ∧ mergeInPlace? merged others = some all := by
  refine ⟨mergePrefixes stored incoming, mergeInPlace?_eq _ _, rfl,
    isSortedUnion_mergePrefixes hstored hincoming, ?_, ?_, ?_, fun others hothers => ?_⟩
  · rw [mergeInPlace?_eq, mergePrefixes_self hstored]
  · rw [mergeInPlace?_eq, mergePrefixes_assoc hstored hincoming hincoming,
      mergePrefixes_self hincoming]
  · rw [mergeInPlace?_eq, mergePrefixes_comm hincoming hstored]
  · refine ⟨_, _, mergeInPlace?_eq _ _, mergeInPlace?_eq _ _, ?_⟩
    rw [mergeInPlace?_eq, mergePrefixes_assoc hstored hincoming hothers]

/-- The prefixes 192.0.2.0/25 and 2001:db8::/33, and 198.51.100.0/24 and the latter again. -/
def interleaved : List IpPrefix × List IpPrefix :=
  let last : IpPrefix :=
    ⟨.ipv6, ⟨⟨0x20010db8000000000000000000000000⟩, 33, by decide, by decide⟩, by decide⟩
  ([⟨.ipv4, ⟨⟨0xc0000200000000000000000000000000⟩, 25, by decide, by decide⟩, by decide⟩, last],
    [⟨.ipv4, ⟨⟨0xc6336400000000000000000000000000⟩, 24, by decide, by decide⟩, by decide⟩, last])

/-- Two lists that interleave and have one prefix in common are merged, either way round. -/
theorem mergeInPlace_sortedUnion_interleaved :
    interleaved.1.Pairwise (· < ·) ∧ interleaved.2.Pairwise (· < ·) ∧
      ∃ merged, mergeInPlace? interleaved.1 interleaved.2 = some merged ∧
        IsSortedUnion interleaved.1 interleaved.2 merged ∧ merged.length = 3 ∧
        mergeInPlace? interleaved.2 interleaved.1 = some merged := by
  have hstored : interleaved.1.Pairwise (· < ·) := by decide +kernel
  have hincoming : interleaved.2.Pairwise (· < ·) := by decide +kernel
  obtain ⟨merged, hmerged, -, hunion, -, -, hcomm, -⟩ := mergeInPlace_sortedUnion hstored hincoming
  refine ⟨hstored, hincoming, merged, hmerged, hunion, ?_, hcomm⟩
  rw [hunion.length_eq]
  decide +kernel

end Union

end SignedPrefixes.Vsp
