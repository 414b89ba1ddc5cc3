import SignedPrefixes.Proofs.Merge.Merged
import SignedPrefixes.Proofs.Record.Transport

/-!
# The order of insertions

The same observations may be inserted in another order, for instance because several
clients take turns. On the way the attribution may move where it did not before, but
the prefixes and expiries at the end are the same. Only the provenance of a list may
differ, and only if observations that expire last were made at different places.
-/

namespace SignedPrefixes

/-- No observation of its AS number expires later. -/
def Observation.IsLatest (os : List Observation) (o : Observation) : Prop :=
  o ∈ os ∧ ∀ o' ∈ os, o'.asn = o.asn → o'.expires ≤ o.expires

/-- All observations of an AS number that expire last were made at one place. -/
def Observation.IsDecided (os : List Observation) (asn : Asn) : Prop :=
  ∀ o o', IsLatest os o → IsLatest os o' → o.asn = asn → o'.asn = asn →
    o.provenance = o'.provenance

variable {os os' : List Observation} {asn : Asn}

/-- The order does not matter for which observation expires last. -/
theorem Observation.IsLatest.perm {o : Observation} (h : IsLatest os o) (hperm : os.Perm os') :
    IsLatest os' o :=
  ⟨hperm.mem_iff.mp h.1, fun o' ho' => h.2 o' (hperm.mem_iff.mpr ho')⟩

namespace Vsp

variable {v v' : Vsp}

/-- A list follows an observation that expires last. -/
theorem IsMergeOf.exists_isLatest (h : v.IsMergeOf asn (os.filter (·.asn = asn))) :
    ∃ o, Observation.IsLatest os o ∧ o.asn = asn ∧ v.expires = o.expires ∧
      v.provenance = o.provenance := by
  obtain ⟨before, o, after, hsplit, hexpires, hprovenance, hbefore, hafter⟩ := h.exists_latest
  have hmem (o' : Observation) :
      o' ∈ os ∧ o'.asn = asn ↔ o' ∈ before ∨ o' = o ∨ o' ∈ after := by
    rw [← List.mem_cons, ← List.mem_append, ← hsplit, List.mem_filter, decide_eq_true_eq]
  obtain ⟨ho, rfl⟩ := (hmem o).mpr (.inr (.inl rfl))
  refine ⟨o, ⟨ho, fun o' ho' hasn => ?_⟩, rfl, hexpires, hprovenance⟩
  rcases (hmem o').mp ⟨ho', hasn⟩ with h | rfl | h
  · exact (hbefore o' h).le
  · exact le_rfl
  · exact hafter o' h

/-- Lists of the same observations differ in their provenance at most, and not even there if
the observations decide it. -/
theorem IsMergeOf.eq_of_perm (h : v.IsMergeOf asn (os.filter (·.asn = asn)))
    (h' : v'.IsMergeOf asn (os'.filter (·.asn = asn))) (hperm : os.Perm os') :
    v.prefixes = v'.prefixes ∧ v.expires = v'.expires ∧
      (Observation.IsDecided os asn → v = v') := by
  have hprefixes : v.prefixes = v'.prefixes := by
    apply h.pairwise_prefixes.eq_of_mem_iff h'.pairwise_prefixes
    intro p
    rw [h.mem_prefixes_iff, h'.mem_prefixes_iff]
    simp only [(hperm.filter _).mem_iff]
  obtain ⟨o, ho, hasn, hexpires, hprovenance⟩ := h.exists_isLatest
  obtain ⟨o', ho', hasn', hexpires', hprovenance'⟩ := h'.exists_isLatest
  have ho' := ho'.perm hperm.symm
  have hsame : v.expires = v'.expires := by
    rw [hexpires, hexpires']
    exact le_antisymm (ho'.2 o ho.1 (hasn.trans hasn'.symm))
      (ho.2 o' ho'.1 (hasn'.trans hasn.symm))
  refine ⟨hprefixes, hsame, fun hdecided => ?_⟩
  have hplace := hdecided o o' ho ho' hasn hasn'
  rw [← hprovenance, ← hprovenance'] at hplace
  have hown := h.asn_eq.trans h'.asn_eq.symm
  cases v
  cases v'
  congr

end Vsp

namespace MergeTable

/-- The lists of an AS number after two orders of the same observations. Either there is none,
or there are two that differ in their provenance at most. -/
theorem get?_insertAll_of_perm (hos : ∀ o ∈ os, o.record.prefixes.Pairwise (· < ·))
    (hperm : os.Perm os') (asn : Asn) :
    ((empty.insertAll os).get? asn = none ∧ (empty.insertAll os').get? asn = none) ∨
      ∃ v v', (empty.insertAll os).get? asn = some v ∧ (empty.insertAll os').get? asn = some v' ∧
        v.prefixes = v'.prefixes ∧ v.expires = v'.expires ∧
        (Observation.IsDecided os asn → v = v') := by
  have hos' : ∀ o ∈ os', o.record.prefixes.Pairwise (· < ·) := fun o ho =>
    hos o (hperm.mem_iff.mpr ho)
  have hsome : ((empty.insertAll os).get? asn).isSome = true ↔
      ((empty.insertAll os').get? asn).isSome = true := by
    rw [isSome_get?_insertAll, isSome_get?_insertAll]
    simp only [hperm.mem_iff]
  cases h : (empty.insertAll os).get? asn with
  | none =>
    rw [h] at hsome
    exact .inl ⟨rfl, by simpa using hsome⟩
  | some v =>
    rw [h] at hsome
    obtain ⟨v', h'⟩ := Option.isSome_iff_exists.mp (hsome.mp rfl)
    exact .inr ⟨v, v', rfl, h', (isMergeOf_of_get?_insertAll hos h).eq_of_perm
      (isMergeOf_of_get?_insertAll hos' h') hperm⟩

/-- What does not depend on the provenance of a list is the same in both orders. -/
theorem map_get?_insertAll_of_perm (hos : ∀ o ∈ os, o.record.prefixes.Pairwise (· < ·))
    (hperm : os.Perm os') (asn : Asn) {α : Type} {f : Vsp → α}
    (hf : ∀ v v' : Vsp, v.prefixes = v'.prefixes → v.expires = v'.expires → f v = f v') :
    ((empty.insertAll os).get? asn).map f = ((empty.insertAll os').get? asn).map f := by
  obtain ⟨h, h'⟩ | ⟨v, v', h, h', hprefixes, hexpires, -⟩ := get?_insertAll_of_perm hos hperm asn
  · rw [h, h']
  · rw [h, h', Option.map_some, Option.map_some, hf v v' hprefixes hexpires]

/-- The order does not matter for a list whose last expiry decides its provenance. -/
theorem get?_insertAll_eq_of_isDecided (hos : ∀ o ∈ os, o.record.prefixes.Pairwise (· < ·))
    (hperm : os.Perm os') (hdecided : Observation.IsDecided os asn) :
    (empty.insertAll os).get? asn = (empty.insertAll os').get? asn := by
  obtain ⟨h, h'⟩ | ⟨v, v', h, h', -, -, hsame⟩ := get?_insertAll_of_perm hos hperm asn
  · rw [h, h']
  · rw [h, h', hsame hdecided]

/-- Tables that have the same list for each AS number have the same lists. -/
theorem perm_toList_of_get?_eq {t t' : MergeTable} (ht : t.Keyed) (ht' : t'.Keyed)
    (h : ∀ asn, t.get? asn = t'.get? asn) : t.toList.Perm t'.toList := by
  have hnodup {t : MergeTable} (ht : t.Keyed) : t.toList.Nodup := by
    refine (List.pairwise_map.mp ht.pairwise_toList).imp ?_
    rintro v _ hlt rfl
    exact lt_irrefl _ hlt
  rw [List.perm_ext_iff_of_nodup (hnodup ht) (hnodup ht')]
  intro v
  rw [ht.mem_toList_iff, ht'.mem_toList_iff, h]

end MergeTable

/-- All counters and their sums are numbers of 64 bits. -/
def Ledger.Fits (l : Ledger) : Prop :=
  l.sum.total < 2 ^ 64 ∧ l.sum.unique < 2 ^ 64 ∧
    ∀ p, (l.get p).total < 2 ^ 64 ∧ (l.get p).unique < 2 ^ 64

namespace MergeState

/-- Two states that agree on all that the observations `os` decide. -/
structure SameOutcome (os : List Observation) (s s' : MergeState) : Prop where
  /-- There are lists for the same AS numbers. -/
  isSome_get?_eq : ∀ asn, (s.table.get? asn).isSome = (s'.table.get? asn).isSome
  /-- They have the same prefixes. -/
  prefixes_eq : ∀ asn,
    (s.table.get? asn).map Vsp.prefixes = (s'.table.get? asn).map Vsp.prefixes
  /-- They expire at the same time. -/
  expires_eq : ∀ asn, (s.table.get? asn).map Vsp.expires = (s'.table.get? asn).map Vsp.expires
  /-- The totals are the same. -/
  total_eq : ∀ p, (s.ledger.get p).total = (s'.ledger.get p).total
  /-- The unique counts have the same sum. -/
  sum_unique_eq : s.ledger.sum.unique = s'.ledger.sum.unique
  /-- A list is the same if all that expire last agree on its provenance. -/
  get?_eq_of_isDecided : ∀ asn, Observation.IsDecided os asn →
    s.table.get? asn = s'.table.get? asn
  /-- The unique counts are the same if this is so for every AS number. -/
  unique_eq_of_isDecided : (∀ asn, Observation.IsDecided os asn) →
    ∀ p, (s.ledger.get p).unique = (s'.ledger.get p).unique

/-- The table of a state is what inserting the records comes to. -/
theorem table_observeAll (s : MergeState) (os : List Observation) :
    (s.observeAll os).table = s.table.insertAll os := by
  induction os generalizing s with
  | nil => rfl
  | cons o os ih => exact ih (s.observe o)

/-- Counters of 64 bits are enough for fewer observations than they can count. -/
theorem fits_observeAll (hlength : os.length < 2 ^ 64) : (empty.observeAll os).ledger.Fits := by
  have hagrees := agrees_observeAll os
  have hsize := size_observeAll_le os
  have htotal (p : Provenance) : os.countP (·.provenance = p) ≤ os.length := List.countP_le_length
  have hunique (p : Provenance) : (empty.observeAll os).table.attributed p ≤ os.length :=
    (List.countP_le_length.trans_eq (MergeTable.size_eq_length_toList _).symm).trans hsize
  unfold Ledger.Fits
  rw [hagrees.sum_total_eq, hagrees.sum_unique_eq]
  refine ⟨hlength, hsize.trans_lt hlength, fun p => ?_⟩
  rw [hagrees.total_eq, hagrees.unique_eq]
  exact ⟨(htotal p).trans_lt hlength, (hunique p).trans_lt hlength⟩

/-- Observations of records that can come about lead to the same outcome in any order. -/
theorem sameOutcome_of_perm (hos : ∀ o ∈ os, o.record.Produced) (hlength : os.length < 2 ^ 64)
    (hperm : os.Perm os') :
    SameOutcome os (empty.observeAll os) (empty.observeAll os') ∧
      (empty.observeAll os).ledger.Fits ∧ (empty.observeAll os').ledger.Fits := by
  have hsorted : ∀ o ∈ os, o.record.prefixes.Pairwise (· < ·) := fun o ho =>
    (hos o ho).pairwise_prefixes
  have hsorted' : ∀ o ∈ os', o.record.prefixes.Pairwise (· < ·) := fun o ho =>
    hsorted o (hperm.mem_iff.mpr ho)
  have hagrees := agrees_observeAll os
  have hagrees' := agrees_observeAll os'
  have htable : (empty.observeAll os).table = MergeTable.empty.insertAll os := table_observeAll _ _
  have htable' : (empty.observeAll os').table = MergeTable.empty.insertAll os' :=
    table_observeAll _ _
  -- What is said of a list by its prefixes and its expiry is the same in both tables.
  have hmap {α : Type} {f : Vsp → α}
      (hf : ∀ v v' : Vsp, v.prefixes = v'.prefixes → v.expires = v'.expires → f v = f v')
      (asn : Asn) :
      ((empty.observeAll os).table.get? asn).map f =
        ((empty.observeAll os').table.get? asn).map f := by
    rw [htable, htable']
    exact MergeTable.map_get?_insertAll_of_perm hsorted hperm asn hf
  have hdecided (asn : Asn) (h : Observation.IsDecided os asn) :
      (empty.observeAll os).table.get? asn = (empty.observeAll os').table.get? asn := by
    rw [htable, htable', MergeTable.get?_insertAll_eq_of_isDecided hsorted hperm h]
  have hprefixes := hmap (f := Vsp.prefixes) fun _ _ hprefixes _ => hprefixes
  have hexpires := hmap (f := Vsp.expires) fun _ _ _ hexpires => hexpires
  refine ⟨⟨?_, hprefixes, hexpires, ?_, ?_, hdecided, ?_⟩, fits_observeAll hlength,
    fits_observeAll (hperm.length_eq ▸ hlength)⟩
  · intro asn
    simpa using congrArg Option.isSome (hprefixes asn)
  · intro p
    rw [hagrees.total_eq, hagrees'.total_eq, hperm.countP_eq]
  · rw [hagrees.sum_unique_eq, hagrees'.sum_unique_eq, htable, htable',
      MergeTable.size_insertAll hsorted, MergeTable.size_insertAll hsorted',
      (hperm.map Observation.asn).dedup.length_eq]
  · intro hall p
    have hkeyed : (empty.observeAll os).table.Keyed := htable ▸ MergeTable.keyed_insertAll hsorted
    have hkeyed' : (empty.observeAll os').table.Keyed :=
      htable' ▸ MergeTable.keyed_insertAll hsorted'
    have htables := MergeTable.perm_toList_of_get?_eq hkeyed hkeyed' fun asn =>
      hdecided asn (hall asn)
    rw [hagrees.unique_eq, hagrees'.unique_eq, MergeTable.attributed, MergeTable.attributed,
      htables.countP_eq]

/-- A processed record at an unknown place, and again with a later expiry at another one. -/
def reorderedSample : List Observation :=
  [⟨Record.sampleProcessed, none⟩,
    ⟨Record.sampleProcessed.withExpires ((Time.ofSeconds? 1704067200).get rfl), some ⟨7⟩⟩]

/-- In one order the attribution moves, in the other one it does not. Both end with the list of
the later expiry and of its place. -/
theorem sameOutcome_of_perm_reverse :
    (∀ o ∈ reorderedSample, o.record.Produced) ∧ reorderedSample.length < 2 ^ 64 ∧
      reorderedSample.Perm reorderedSample.reverse ∧
      SameOutcome reorderedSample (empty.observeAll reorderedSample)
        (empty.observeAll reorderedSample.reverse) ∧
      (empty.observeAll reorderedSample).table.get? ⟨64496⟩ =
        (empty.observeAll reorderedSample.reverse).table.get? ⟨64496⟩ ∧
      (empty.observeAll reorderedSample).table.get? ⟨64496⟩ = some
        { asn := ⟨64496⟩
          provenance := ⟨some ⟨7⟩, ⟨3⟩⟩
          expires := (Time.ofSeconds? 1704067200).get rfl
          prefixes := Content.sample.prefixes } := by
  have hos : ∀ o ∈ reorderedSample, o.record.Produced := by
    intro o ho
    rcases List.mem_cons.mp ho with rfl | ho
    · exact Record.produced_sampleProcessed
    · obtain rfl := List.mem_singleton.mp ho
      exact .withExpires Record.produced_sampleProcessed _
  have hperm : reorderedSample.Perm reorderedSample.reverse := (List.reverse_perm _).symm
  obtain ⟨hsame, -⟩ := sameOutcome_of_perm hos (by decide) hperm
  refine ⟨hos, by decide, hperm, hsame, hsame.get?_eq_of_isDecided ⟨64496⟩ ?_, by decide +kernel⟩
  -- Only the second observation expires last.
  have hlatest (o : Observation) (ho : Observation.IsLatest reorderedSample o) :
      o.provenance = ⟨some ⟨7⟩, ⟨3⟩⟩ := by
    rcases List.mem_cons.mp ho.1 with rfl | hmem
    · exact absurd (ho.2 _ (List.mem_cons_of_mem _ List.mem_cons_self) rfl) (by decide)
    · obtain rfl := List.mem_singleton.mp hmem
      rfl
  intro o o' ho ho' _ _
  rw [hlatest o ho, hlatest o' ho']

end MergeState

end SignedPrefixes
