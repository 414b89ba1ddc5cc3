import SignedPrefixes.Content
import SignedPrefixes.Proofs.Order

/-!
# Content in ascending order

The prefixes of content ascend strictly if the content is made from any list of
prefixes. In such content the IPv4 prefixes are those before the first prefix of
the other family.
-/

namespace SignedPrefixes

namespace Content

/-- The prefixes ascend strictly. -/
def IsAscending (c : Content) : Prop := c.prefixes.Pairwise (· < ·)

instance (c : Content) : Decidable c.IsAscending :=
  inferInstanceAs (Decidable (c.prefixes.Pairwise (· < ·)))

/-- The loop that drops repetitions keeps each element that differs from the last one kept. -/
private theorem eraseRepsBy_loop (p : IpPrefix) (ps before : List IpPrefix) :
    List.eraseRepsBy.loop (· == ·) p ps before =
      before.reverse ++ ps.destutter' (· ≠ ·) p := by
  induction ps generalizing p before with
  | nil => simp [List.eraseRepsBy.loop]
  | cons q ps ih =>
    unfold List.eraseRepsBy.loop
    by_cases heq : p = q
    · subst heq
      simp [ih]
    · have hbeq : (p == q) = false := beq_eq_false_iff_ne.mpr heq
      simp [ih, hbeq, heq]

/-- Dropping repetitions keeps those elements that differ from the one before them. -/
theorem eraseReps_eq_destutter (ps : List IpPrefix) :
    ps.eraseReps = ps.destutter (· ≠ ·) := by
  cases ps with
  | nil => rfl
  | cons p ps => exact eraseRepsBy_loop p ps []

/-- Sorted prefixes of which no two neighbours are equal ascend strictly. -/
private theorem pairwise_lt_of_isChain_ne {ps : List IpPrefix} (hle : ps.Pairwise (· ≤ ·))
    (hne : ps.IsChain (· ≠ ·)) : ps.Pairwise (· < ·) := by
  induction ps with
  | nil => exact List.Pairwise.nil
  | cons p ps ih =>
    obtain ⟨hfirst, hrest⟩ := List.pairwise_cons.mp hle
    obtain ⟨hhead, htail⟩ := List.isChain_cons.mp hne
    have hlt := ih hrest htail
    refine List.pairwise_cons.mpr ⟨?_, hlt⟩
    cases ps with
    | nil => simp
    | cons q ps =>
      have hpq : p < q := lt_of_le_of_ne (hfirst q List.mem_cons_self) (hhead q rfl)
      intro r hr
      rcases List.mem_cons.mp hr with rfl | hr
      · exact hpq
      · exact hpq.trans (List.rel_of_pairwise_cons hlt hr)

/-- Sorting and dropping repetitions leaves prefixes in strictly ascending order. -/
theorem isAscending_ofPrefixes (asn : Asn) (prefixes : List IpPrefix) :
    (ofPrefixes asn prefixes).IsAscending := by
  have hsorted : (prefixes.mergeSort fun p q => p ≤ q).Pairwise (· ≤ ·) :=
    List.pairwise_mergeSort' (· ≤ ·) prefixes
  unfold IsAscending ofPrefixes
  rw [eraseReps_eq_destutter]
  exact pairwise_lt_of_isChain_ne (hsorted.sublist (List.destutter_sublist _ _))
    (List.isChain_destutter _ _)

variable {c : Content}

/-- The first part of the prefixes is IPv4. -/
theorem family_of_mem_ipv4Prefixes {p : IpPrefix} (hp : p ∈ c.ipv4Prefixes) : p.family = .ipv4 := by
  have hfamily := List.mem_takeWhile_imp hp
  simpa using hfamily

/-- The families of prefixes tell where the second family starts. -/
theorem families_of_append (asn : Asn) (ps qs : List IpPrefix)
    (hps : ∀ p ∈ ps, p.family = .ipv4) (hqs : ∀ q ∈ qs, q.family = .ipv6) :
    ipv4Prefixes ⟨asn, ps ++ qs⟩ = ps ∧ ipv6Prefixes ⟨asn, ps ++ qs⟩ = qs := by
  have hfirst : ∀ p ∈ ps, decide (p.family = .ipv4) = true := fun p hp => by simp [hps p hp]
  have hrest : qs.takeWhile (·.family = .ipv4) = [] := by
    cases qs with
    | nil => rfl
    | cons q qs => simp [hqs q List.mem_cons_self]
  have hipv4 : ipv4Prefixes ⟨asn, ps ++ qs⟩ = ps := by
    rw [ipv4Prefixes, List.takeWhile_append_of_pos hfirst, hrest, List.append_nil]
  have hall := ipv4Prefixes_append_ipv6Prefixes ⟨asn, ps ++ qs⟩
  rw [hipv4] at hall
  exact ⟨hipv4, List.append_cancel_left hall⟩

/-- The second part of ascending prefixes is IPv6, as nothing after an IPv6 prefix is IPv4. -/
theorem IsAscending.family_of_mem_ipv6Prefixes (hc : c.IsAscending) {p : IpPrefix}
    (hp : p ∈ c.ipv6Prefixes) : p.family = .ipv6 := by
  have hsub : c.ipv6Prefixes.Pairwise (· < ·) := hc.sublist (List.dropWhile_sublist _)
  unfold ipv6Prefixes at hp hsub
  cases hrest : c.prefixes.dropWhile (·.family = .ipv4) with
  | nil =>
    rw [hrest] at hp
    cases hp
  | cons q qs =>
    have hq : q.family = .ipv6 := by
      have hhead := List.head?_dropWhile_not (·.family = .ipv4) c.prefixes
      rw [hrest] at hhead
      cases hfamily : q.family <;> simp_all
    rw [hrest] at hp hsub
    rcases List.mem_cons.mp hp with rfl | hp
    · exact hq
    · exact IpPrefix.family_of_lt (List.rel_of_pairwise_cons hsub hp) hq

end Content

end SignedPrefixes
