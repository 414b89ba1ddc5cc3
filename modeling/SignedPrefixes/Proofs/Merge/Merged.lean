import SignedPrefixes.Proofs.Merge.Ledger
import SignedPrefixes.Proofs.Record.Produced

/-!
# Tables of records that can come about

Any number of records that can come about may be inserted, in any order and from
any repositories. The table then has one list for each of their AS numbers, and
each list is what the records of its AS number come to.
-/

namespace SignedPrefixes.MergeTable

/-- A table is what a history of observations comes to. -/
structure IsMergeOf (t : MergeTable) (os : List Observation) : Prop where
  /-- There is a list for each AS number that was observed. -/
  isSome_get?_iff : ∀ asn, (t.get? asn).isSome = true ↔ ∃ o ∈ os, o.asn = asn
  /-- It is what the observations of this AS number come to. -/
  isMergeOf_of_get? : ∀ asn v, t.get? asn = some v → v.IsMergeOf asn (os.filter (·.asn = asn))
  /-- The lists that are gone through are those that are found. -/
  mem_toList_iff : ∀ v, v ∈ t.toList ↔ t.get? v.asn = some v
  /-- They come in the order of their AS numbers. -/
  pairwise_toList : (t.toList.map Vsp.asn).Pairwise (· < ·)
  /-- Each AS number that was observed is gone through. -/
  mem_map_toList_iff : ∀ asn, asn ∈ t.toList.map Vsp.asn ↔ ∃ o ∈ os, o.asn = asn
  /-- The size is the number of different AS numbers. -/
  size_eq : t.size = (os.map Observation.asn).dedup.length

variable {os : List Observation}

/-- The AS numbers that are gone through are those that there is a list for. -/
theorem Keyed.mem_map_toList_iff {t : MergeTable} (h : t.Keyed) {asn : Asn} :
    asn ∈ t.toList.map Vsp.asn ↔ (t.get? asn).isSome = true := by
  rw [List.mem_map, Option.isSome_iff_exists]
  constructor
  · rintro ⟨v, hv, rfl⟩
    exact ⟨v, h.mem_toList_iff.mp hv⟩
  · rintro ⟨v, hv⟩
    obtain rfl := h asn v hv
    exact ⟨v, h.mem_toList_iff.mpr hv, rfl⟩

/-- There are as many lists as there are different AS numbers. -/
theorem size_insertAll (hos : ∀ o ∈ os, o.record.prefixes.Pairwise (· < ·)) :
    (empty.insertAll os).size = (os.map Observation.asn).dedup.length := by
  have hkeyed := keyed_insertAll hos
  have hnodup : ((empty.insertAll os).toList.map Vsp.asn).Nodup :=
    hkeyed.pairwise_toList.imp fun hlt => ne_of_lt hlt
  have hsame : ∀ asn, asn ∈ (empty.insertAll os).toList.map Vsp.asn ↔
      asn ∈ (os.map Observation.asn).dedup := by
    intro asn
    rw [hkeyed.mem_map_toList_iff, isSome_get?_insertAll, List.mem_dedup, List.mem_map]
  have hperm := (List.perm_ext_iff_of_nodup hnodup (List.nodup_dedup _)).mpr hsame
  rw [size_eq_length_toList, ← hperm.length_eq, List.length_map]

/-- Records that can come about are merged into one list for each AS number. -/
theorem isMergeOf_insertAll (os : List Observation) (hos : ∀ o ∈ os, o.record.Produced) :
    (empty.insertAll os).IsMergeOf os := by
  have hsorted : ∀ o ∈ os, o.record.prefixes.Pairwise (· < ·) := fun o ho =>
    (hos o ho).pairwise_prefixes
  have hkeyed := keyed_insertAll hsorted
  constructor
  · exact isSome_get?_insertAll os
  · exact fun asn v hv => isMergeOf_of_get?_insertAll hsorted hv
  · exact fun v => hkeyed.mem_toList_iff
  · exact hkeyed.pairwise_toList
  · intro asn
    rw [hkeyed.mem_map_toList_iff, isSome_get?_insertAll]
  · exact size_insertAll hsorted

/-- A record of AS64496 that is taken from octets. -/
def sampleRecord : Record where
  valid := true
  asn := ⟨64496⟩
  tal := ⟨1⟩
  prefixes := Content.sample.prefixes
  expires := MergeState.sampleTimes.1
  signingTime := none
  notBefore := none
  notAfter := none
  aia := "a"
  aki := "b"
  ski := "c"
  sia := none

/-- The record from an unknown repository, and again with a later expiry from another one. -/
def sampleHistory : List Observation :=
  [⟨sampleRecord, none⟩,
    ⟨sampleRecord.withExpires MergeState.sampleTimes.2, some ⟨7⟩⟩]

/-- Two records of one AS number are merged, the second of which expires later. -/
theorem isMergeOf_insertAll_sample :
    (∀ o ∈ sampleHistory, o.record.Produced) ∧
      (empty.insertAll sampleHistory).IsMergeOf sampleHistory := by
  have hrecord : sampleRecord.Produced :=
    .decode (by decide +kernel : Record.decode sampleRecord.encode = .ok (sampleRecord, []))
  have hos : ∀ o ∈ sampleHistory, o.record.Produced := by
    intro o ho
    rcases List.mem_cons.mp ho with rfl | ho
    · exact hrecord
    · obtain rfl := List.mem_singleton.mp ho
      exact .withExpires hrecord _
  exact ⟨hos, isMergeOf_insertAll sampleHistory hos⟩

end SignedPrefixes.MergeTable
