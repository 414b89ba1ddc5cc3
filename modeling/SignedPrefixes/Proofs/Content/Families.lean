import SignedPrefixes.Content.Families
import SignedPrefixes.Proofs.Content.RoundTrip

/-!
# Content is the set of its prefixes

Sorting brings repeated prefixes together, so what is left after dropping repetitions depends only
on which prefixes there are. In the order of prefixes those of one family come first. Bisection
finds where they end.
-/

namespace SignedPrefixes

namespace Bisection

variable {α : Type} {test : α → Bool} {xs ys : List α}

/-- If all of a front pass and none of the rest, a place passes if it is in the front. -/
theorem passesAt_append (hxs : ∀ x ∈ xs, test x = true) (hys : ∀ y ∈ ys, test y = false) (i : ℕ) :
    passesAt test (xs ++ ys) i = decide (i < xs.length) := by
  unfold passesAt
  by_cases hi : i < xs.length
  · rw [List.getElem?_append_left hi, List.getElem?_eq_getElem hi, Option.any_some,
      hxs _ (List.getElem_mem hi), decide_eq_true hi]
  · rw [List.getElem?_append_right (by omega), decide_eq_false hi]
    cases hy : ys[i - xs.length]? with
    | none => rfl
    | some y => exact hys y (List.mem_of_getElem? hy)

/-- The place where the test begins to fail stays within the stretch that is searched. -/
theorem search_eq {n : ℕ} (hpasses : ∀ i, passesAt test xs i = decide (i < n)) {base size : ℕ}
    (hbase : base ≤ n) (hsize : n ≤ base + size) : search test xs base size = n := by
  fun_induction search test xs base size with
  | case1 base size hlong middle hpass ih =>
    rw [hpasses, decide_eq_true_eq] at hpass
    apply ih <;> omega
  | case2 base size hlong middle hfail ih =>
    rw [hpasses, decide_eq_true_eq] at hfail
    apply ih <;> omega
  | case3 base size hshort hpass =>
    rw [hpasses, decide_eq_true_eq] at hpass
    omega
  | case4 base size hshort hfail =>
    rw [hpasses, decide_eq_true_eq] at hfail
    omega

/-- If the elements that pass the test come first, bisection comes to where they end. -/
theorem partitionPoint_append (hxs : ∀ x ∈ xs, test x = true) (hys : ∀ y ∈ ys, test y = false) :
    partitionPoint test (xs ++ ys) = xs.length := by
  apply search_eq (passesAt_append hxs hys)
  · exact Nat.zero_le _
  · rw [List.length_append]
    omega

end Bisection

namespace Content

variable {c : Content} {ps qs : List IpPrefix}

/-- Dropping repetitions drops no element altogether. -/
private theorem mem_destutter' {p q : IpPrefix} :
    p ∈ ps.destutter' (· ≠ ·) q ↔ p ∈ q :: ps := by
  induction ps generalizing q with
  | nil => rw [List.destutter'_nil]
  | cons r ps ih =>
    by_cases hqr : q = r
    · rw [List.destutter'_cons_neg _ (not_not.mpr hqr), ih, hqr]
      simp
    · rw [List.destutter'_cons_pos _ hqr, List.mem_cons, ih, ← List.mem_cons]

/-- Dropping repetitions drops no element altogether. -/
theorem mem_eraseReps {p : IpPrefix} : p ∈ ps.eraseReps ↔ p ∈ ps := by
  rw [eraseReps_eq_destutter]
  cases ps with
  | nil => rfl
  | cons q ps => exact mem_destutter'

/-- Content has the prefixes that it is made of. -/
theorem mem_ofPrefixes {asn : Asn} {p : IpPrefix} : p ∈ (ofPrefixes asn ps).prefixes ↔ p ∈ ps := by
  unfold ofPrefixes
  rw [mem_eraseReps, List.mem_mergeSort]

/-- Content with ascending prefixes is what its prefixes make, however they are given. -/
theorem IsAscending.ofPrefixes_eq (hc : c.IsAscending) (hmem : ∀ p, p ∈ ps ↔ p ∈ c.prefixes) :
    ofPrefixes c.asn ps = c := by
  have hprefixes : (ofPrefixes c.asn ps).prefixes = c.prefixes := by
    apply (isAscending_ofPrefixes c.asn ps).eq_of_mem_iff hc
    intro p
    rw [mem_ofPrefixes, hmem]
  exact congrArg (mk c.asn) hprefixes

/-- Content is the same exactly if it is made of the same prefixes, in any order and any number. -/
theorem ofPrefixes_eq_iff {asn : Asn} :
    ofPrefixes asn ps = ofPrefixes asn qs ↔ ∀ p, p ∈ ps ↔ p ∈ qs := by
  constructor
  · intro heq p
    have hp : p ∈ (ofPrefixes asn ps).prefixes ↔ p ∈ ps := mem_ofPrefixes
    rw [← hp, heq, mem_ofPrefixes]
  · intro hmem
    apply (isAscending_ofPrefixes asn qs).ofPrefixes_eq
    intro p
    rw [hmem, mem_ofPrefixes]

/-- The IPv6 prefixes start where the IPv4 prefixes end. -/
theorem IsAscending.ipv6Start_eq (hc : c.IsAscending) : c.ipv6Start = c.ipv4Prefixes.length := by
  have hipv4 : ∀ p ∈ c.ipv4Prefixes, decide (p.family = .ipv4) = true := by
    intro p hp
    rw [family_of_mem_ipv4Prefixes hp]
    rfl
  have hipv6 : ∀ p ∈ c.ipv6Prefixes, decide (p.family = .ipv4) = false := by
    intro p hp
    rw [hc.family_of_mem_ipv6Prefixes hp]
    rfl
  have hpoint := Bisection.partitionPoint_append hipv4 hipv6
  rw [ipv4Prefixes_append_ipv6Prefixes] at hpoint
  exact hpoint

/-- Bisection splits the prefixes where the families meet. -/
theorem IsAscending.split_eq (hc : c.IsAscending) :
    c.beforeIpv6Start = c.ipv4Prefixes ∧ c.fromIpv6Start = c.ipv6Prefixes := by
  unfold beforeIpv6Start fromIpv6Start
  rw [hc.ipv6Start_eq, ← c.ipv4Prefixes_append_ipv6Prefixes]
  exact ⟨List.take_left, List.drop_left⟩

/-- The families are told apart by where their prefixes stand. -/
theorem IsAscending.filter_family (hc : c.IsAscending) :
    c.prefixes.filter (·.family = .ipv4) = c.ipv4Prefixes ∧
      c.prefixes.filter (·.family = .ipv6) = c.ipv6Prefixes := by
  rw [← c.ipv4Prefixes_append_ipv6Prefixes, List.filter_append, List.filter_append]
  constructor
  · rw [List.filter_eq_self.mpr, List.filter_eq_nil_iff.mpr, List.append_nil]
    · intro p hp
      simp [hc.family_of_mem_ipv6Prefixes hp]
    · intro p hp
      simp [family_of_mem_ipv4Prefixes hp]
  · rw [List.filter_eq_nil_iff.mpr, List.filter_eq_self.mpr, List.nil_append]
    · intro p hp
      simp [hc.family_of_mem_ipv6Prefixes hp]
    · intro p hp
      simp [family_of_mem_ipv4Prefixes hp]

/-- Content made from prefixes has exactly those, in strictly ascending order, and depends on
nothing but which they are: neither on their order nor on repetitions. Equal sets of prefixes have
one encoding. However content came about, bisection splits its prefixes into those of the one
family and those of the other, which are what is encoded in the blocks. -/
theorem decided_by_members :
    (∀ asn ps, (ofPrefixes asn ps).IsAscending ∧
      ∀ p, p ∈ (ofPrefixes asn ps).prefixes ↔ p ∈ ps) ∧
    (∀ asn ps qs, ofPrefixes asn ps = ofPrefixes asn qs ↔ ∀ p, p ∈ ps ↔ p ∈ qs) ∧
    (∀ asn ps qs, (∀ p, p ∈ ps ↔ p ∈ qs) →
      (ofPrefixes asn ps).encode = (ofPrefixes asn qs).encode) ∧
    ∀ c : Content, c.Produced →
      c.ipv6Start ≤ c.prefixes.length ∧
      c.beforeIpv6Start ++ c.fromIpv6Start = c.prefixes ∧
      c.beforeIpv6Start = c.prefixes.filter (·.family = .ipv4) ∧
      c.fromIpv6Start = c.prefixes.filter (·.family = .ipv6) ∧
      c.encode = Der.sequence (c.asn.encode ++ Der.sequence
        (encodeBlock .ipv4 c.beforeIpv6Start ++ encodeBlock .ipv6 c.fromIpv6Start)) := by
  refine ⟨fun asn ps => ⟨isAscending_ofPrefixes asn ps, fun p => mem_ofPrefixes⟩,
    fun asn ps qs => ofPrefixes_eq_iff, ?_, ?_⟩
  · intro asn ps qs hmem
    have heq : ofPrefixes asn ps = ofPrefixes asn qs := ofPrefixes_eq_iff.mpr hmem
    rw [heq]
  · intro c hc
    have hstart : c.ipv6Start ≤ c.prefixes.length := by
      rw [hc.isAscending.ipv6Start_eq]
      exact (List.takeWhile_sublist _).length_le
    obtain ⟨hbefore, hfrom⟩ := hc.isAscending.split_eq
    obtain ⟨hipv4, hipv6⟩ := hc.isAscending.filter_family
    rw [hbefore, hfrom, hipv4, hipv6]
    exact ⟨hstart, c.ipv4Prefixes_append_ipv6Prefixes, rfl, rfl, rfl⟩

/-- The prefixes of the sample in the other order and with repetitions. -/
theorem decided_by_members_repeated :
    ofPrefixes sample.asn (sample.prefixes.reverse ++ sample.prefixes) =
        ofPrefixes sample.asn sample.prefixes ∧
      (ofPrefixes sample.asn (sample.prefixes.reverse ++ sample.prefixes)).encode =
        (ofPrefixes sample.asn sample.prefixes).encode ∧
      sample.Produced ∧ sample.beforeIpv6Start = sample.prefixes.take 1 ∧
      sample.fromIpv6Start = sample.prefixes.drop 1 := by
  obtain ⟨-, hequal, hencode, hfamilies⟩ := decided_by_members
  have hmem (p : IpPrefix) :
      p ∈ sample.prefixes.reverse ++ sample.prefixes ↔ p ∈ sample.prefixes := by simp
  have hc : sample.Produced :=
    .decode (by decide +kernel : decode Policy.default sampleOctets = .ok sample)
  obtain ⟨-, -, hbefore, hfrom, -⟩ := hfamilies sample hc
  refine ⟨(hequal _ _ _).mpr hmem, hencode _ _ _ hmem, hc, ?_, ?_⟩
  · rw [hbefore]
    decide
  · rw [hfrom]
    decide

end Content

end SignedPrefixes
