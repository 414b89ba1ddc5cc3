import Mathlib
import SignedPrefixes.Merge.History
import SignedPrefixes.Proofs.Merge.Union
import SignedPrefixes.Proofs.SortedMap

/-!
# What a history of insertions comes to

The list of an AS number depends on the observations of that AS number alone. It
has all their prefixes, and expiry and provenance of the first observation among
those that expire last.
-/

namespace SignedPrefixes

/-- A merged list is what the observations `os` of its AS number come to. -/
structure Vsp.IsMergeOf (v : Vsp) (asn : Asn) (os : List Observation) : Prop where
  /-- The list is for the AS number. -/
  asn_eq : v.asn = asn
  /-- Its prefixes ascend strictly. -/
  pairwise_prefixes : v.prefixes.Pairwise (· < ·)
  /-- They are those of all the records. -/
  mem_prefixes_iff : ∀ p, p ∈ v.prefixes ↔ ∃ o ∈ os, p ∈ o.record.prefixes
  /-- The observation that expires last, and the first one of these. -/
  exists_latest : ∃ before o after, os = before ++ o :: after ∧
    v.expires = o.expires ∧ v.provenance = o.provenance ∧
    (∀ o' ∈ before, o'.expires < o.expires) ∧ (∀ o' ∈ after, o'.expires ≤ o.expires)

namespace Vsp

/-- The list of an AS number after one more observation of it. -/
def afterObservation (before : Option Vsp) (o : Observation) : Option Vsp :=
  some (before.elim (ofRecord o.record o.repo) fun v => MergeTable.mergedVsp v o.record o.repo)

/-- One observation of a record whose prefixes ascend is merged into the list of the record. -/
theorem IsMergeOf.ofRecord {o : Observation} (ho : o.record.prefixes.Pairwise (· < ·)) :
    (ofRecord o.record o.repo).IsMergeOf o.asn [o] where
  asn_eq := rfl
  pairwise_prefixes := ho
  mem_prefixes_iff p := by simp [Vsp.ofRecord]
  exists_latest := ⟨[], o, [], rfl, rfl, rfl, by simp, by simp⟩

/-- One more observation keeps a list what its observations come to. -/
theorem IsMergeOf.mergedVsp {v : Vsp} {asn : Asn} {os : List Observation} (h : v.IsMergeOf asn os)
    {o : Observation} (ho : o.record.prefixes.Pairwise (· < ·)) :
    (MergeTable.mergedVsp v o.record o.repo).IsMergeOf asn (os ++ [o]) := by
  have hprefixes : (MergeTable.mergedVsp v o.record o.repo).prefixes =
      mergePrefixes v.prefixes o.record.prefixes := rfl
  obtain ⟨before, latest, after, hos, hexpires, hprovenance, hbefore, hafter⟩ := h.exists_latest
  refine ⟨?_, ?_, ?_, ?_⟩
  · rw [MergeTable.mergedVsp]
    split <;> exact h.asn_eq
  · rw [hprefixes]
    exact pairwise_mergePrefixes h.pairwise_prefixes ho
  · intro p
    rw [hprefixes, mem_mergePrefixes h.pairwise_prefixes, h.mem_prefixes_iff]
    simp [or_and_right, exists_or]
  · by_cases hlater : v.expires < o.record.expires
    · -- The new observation is the only one with its expiry.
      refine ⟨os, o, [], rfl, ?_, ?_, ?_, by simp⟩
      · simp [MergeTable.mergedVsp, hlater, Observation.expires]
      · simp [MergeTable.mergedVsp, hlater, Observation.provenance]
      · have hlater : latest.expires < o.expires := by rwa [← hexpires]
        intro o' ho'
        rw [hos, List.mem_append, List.mem_cons] at ho'
        rcases ho' with ho' | rfl | ho'
        · exact (hbefore o' ho').trans hlater
        · exact hlater
        · exact (hafter o' ho').trans_lt hlater
    · -- No later expiry: the observation that decides stays the first of its expiry.
      refine ⟨before, latest, after ++ [o], by simp [hos], ?_, ?_, hbefore, ?_⟩
      · simpa [MergeTable.mergedVsp, hlater] using hexpires
      · simpa [MergeTable.mergedVsp, hlater] using hprovenance
      · intro o' ho'
        rw [List.mem_append, List.mem_singleton] at ho'
        rcases ho' with ho' | rfl
        · exact hafter o' ho'
        · rw [← hexpires]
          exact not_lt.mp hlater

/-- Observations of one AS number, merged in their order. -/
theorem exists_isMergeOf {asn : Asn} {os : List Observation} (hne : os ≠ [])
    (hos : ∀ o ∈ os, o.asn = asn ∧ o.record.prefixes.Pairwise (· < ·)) :
    ∃ v, os.foldl afterObservation none = some v ∧ v.IsMergeOf asn os := by
  induction os using List.reverseRecOn with
  | nil => exact absurd rfl hne
  | append_singleton os o ih =>
    obtain ⟨rfl, ho⟩ := hos o (by simp)
    rw [List.foldl_append, List.foldl_cons, List.foldl_nil]
    by_cases hempty : os = []
    · subst hempty
      exact ⟨_, rfl, IsMergeOf.ofRecord ho⟩
    · obtain ⟨v, hv, hmerge⟩ := ih hempty fun o' ho' => hos o' (by simp [ho'])
      rw [hv]
      exact ⟨_, rfl, hmerge.mergedVsp ho⟩

end Vsp

namespace MergeTable

/-- Inserting a record sets the list for its AS number, which is new or merged. -/
theorem lists_insert (t : MergeTable) (o : Observation) :
    (t.insert o.record o.repo).1.lists =
      t.lists.insert o.asn ((t.get? o.asn).elim (Vsp.ofRecord o.record o.repo)
        fun v => mergedVsp v o.record o.repo) := by
  unfold insert Observation.asn
  cases t.get? o.record.asn <;> rfl

/-- Inserting a record changes the list for its AS number and no other one. -/
theorem get?_insert (t : MergeTable) (o : Observation) (asn : Asn) :
    (t.insert o.record o.repo).1.get? asn =
      if o.asn = asn then Vsp.afterObservation (t.get? asn) o else t.get? asn := by
  rw [get?, lists_insert, Std.TreeMap.get?_eq_getElem?, Std.TreeMap.getElem?_insert]
  by_cases h : o.asn = asn
  · subst h
    simp [Vsp.afterObservation]
  · have hne : compare o.asn asn ≠ .eq := fun heq => h (Std.LawfulEqOrd.eq_of_compare heq)
    rw [if_neg hne, if_neg h]
    rfl

/-- Only the observations of an AS number matter for its list. -/
theorem get?_insertAll (t : MergeTable) (os : List Observation) (asn : Asn) :
    (t.insertAll os).get? asn =
      (os.filter (·.asn = asn)).foldl Vsp.afterObservation (t.get? asn) := by
  induction os generalizing t with
  | nil => rfl
  | cons o os ih =>
    rw [insertAll, List.foldl_cons, ← insertAll, ih, get?_insert]
    by_cases h : o.asn = asn
    · simp [h]
    · simp [h]

/-- There is nothing to be found in the empty table. -/
@[simp] theorem get?_empty (asn : Asn) : empty.get? asn = none := by
  simp [empty, get?]

/-- Every list is stored under its own AS number. -/
def Keyed (t : MergeTable) : Prop := ∀ asn v, t.get? asn = some v → v.asn = asn

/-- The AS numbers of the lists are the keys. -/
theorem Keyed.map_asn_toList {t : MergeTable} (h : t.Keyed) :
    t.toList.map Vsp.asn = t.lists.toList.map Prod.fst := by
  rw [toList, values_eq_map_toList, List.map_map]
  refine List.map_congr_left fun ⟨asn, v⟩ hentry => ?_
  exact h asn v (Std.TreeMap.mem_toList_iff_getElem?_eq_some.mp hentry)

/-- The lists come in the order of their AS numbers. -/
theorem Keyed.pairwise_toList {t : MergeTable} (h : t.Keyed) :
    (t.toList.map Vsp.asn).Pairwise (· < ·) := by
  rw [h.map_asn_toList, List.pairwise_map]
  exact Std.TreeMap.ordered_keys_toList.imp fun hlt => compare_lt_iff_lt.mp hlt

/-- The lists that are gone through are those that are found under their AS numbers. -/
theorem Keyed.mem_toList_iff {t : MergeTable} (h : t.Keyed) {v : Vsp} :
    v ∈ t.toList ↔ t.get? v.asn = some v := by
  rw [toList, values_eq_map_toList, List.mem_map]
  constructor
  · rintro ⟨⟨asn, v⟩, hentry, rfl⟩
    have hget : t.get? asn = some v := Std.TreeMap.mem_toList_iff_getElem?_eq_some.mp hentry
    rwa [h asn v hget]
  · intro hget
    exact ⟨(v.asn, v), Std.TreeMap.mem_toList_iff_getElem?_eq_some.mpr hget, rfl⟩

/-- The size of a table counts the lists that are gone through. -/
theorem size_eq_length_toList (t : MergeTable) : t.size = t.toList.length := by
  rw [toList, values_eq_map_toList, List.length_map, Std.TreeMap.length_toList, size]

variable {os : List Observation}

/-- There is a list for an AS number if a record for it has been inserted. -/
theorem isSome_get?_insertAll (os : List Observation) (asn : Asn) :
    ((empty.insertAll os).get? asn).isSome = true ↔ ∃ o ∈ os, o.asn = asn := by
  have hfold : ∀ (os : List Observation) (before : Option Vsp),
      (os.foldl Vsp.afterObservation before).isSome = true ↔ before.isSome = true ∨ os ≠ [] := by
    intro os
    induction os with
    | nil => simp
    | cons o os ih => simp [ih, Vsp.afterObservation]
  rw [get?_insertAll, hfold]
  simp

/-- The list for an AS number is the merge of all records for it. -/
theorem isMergeOf_of_get?_insertAll (hos : ∀ o ∈ os, o.record.prefixes.Pairwise (· < ·))
    {asn : Asn} {v : Vsp} (h : (empty.insertAll os).get? asn = some v) :
    v.IsMergeOf asn (os.filter (·.asn = asn)) := by
  have hne : os.filter (·.asn = asn) ≠ [] := by
    intro hempty
    rw [get?_insertAll, hempty] at h
    simp at h
  have hown : ∀ o ∈ os.filter (·.asn = asn),
      o.asn = asn ∧ o.record.prefixes.Pairwise (· < ·) := by
    intro o ho
    rw [List.mem_filter, decide_eq_true_eq] at ho
    exact ⟨ho.2, hos o ho.1⟩
  obtain ⟨v', hv', hmerge⟩ := Vsp.exists_isMergeOf hne hown
  rw [get?_insertAll, get?_empty, hv', Option.some.injEq] at h
  rwa [← h]

/-- Inserted lists are kept under their own AS numbers. -/
theorem keyed_insertAll (hos : ∀ o ∈ os, o.record.prefixes.Pairwise (· < ·)) :
    (empty.insertAll os).Keyed :=
  fun _ _ h => (isMergeOf_of_get?_insertAll hos h).asn_eq

end MergeTable

end SignedPrefixes
