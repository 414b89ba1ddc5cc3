import SignedPrefixes.Proofs.Merge.Merged
import SignedPrefixes.Proofs.Record.Transport
import SignedPrefixes.Proofs.StateExcept
import SignedPrefixes.Proofs.Text.Prefix
import SignedPrefixes.Proofs.Text.Time

/-!
# Merged lists that are exchanged as JSON

The JSON form of a merged list is read as that list, and so is any object which has the same
members under the same names. The value that is read has been parsed before, which leaves the
last of several members of one name over. The other way round a list has whatever the members
say, also prefixes that no merging would have put together.
-/

namespace SignedPrefixes

open Json StateExcept

section Members

/-- Every number of 32 bits is read from its form. -/
theorem Json.uint32?_ofUInt32 (n : UInt32) : (ofUInt32 n).uint32? = some n := by
  have hle : n.toNat ≤ maxNat32 := Nat.le_sub_one_of_lt (UInt32.toNat_lt_size n)
  have hnat : (ofUInt32 n).nat? maxNat32 = some n.toNat := if_pos hle
  rw [uint32?, hnat, Option.map_some, UInt32.ofNat_toNat]

/-- What is expected is there. -/
theorem Json.expect_eq_ok_iff {α : Type} {a? : Option α} {a : α} :
    expect a? = .ok a ↔ a? = some a := by
  cases a? <;> simp [expect]

/-- Only arrays have items. -/
theorem Json.items?_eq_some_iff {j : Json} {items : List Json} :
    j.items? = some items ↔ j = .array items := by
  cases j <;> simp [items?]

/-- The form of an AS number is read as that number. -/
theorem Asn.ofJson_toJson (asn : Asn) : ofJson asn.toJson = .ok asn := by
  rw [ofJson, toJson, uint32?_ofUInt32]
  rfl

/-- The form of a trust anchor is read as that anchor. -/
theorem TalId.ofJson_toJson (tal : TalId) : ofJson tal.toJson = .ok tal := by
  rw [ofJson, toJson, uint32?_ofUInt32]
  rfl

/-- The form of a repository is read as that repository. -/
theorem RepoId.ofJson_toJson (repo : RepoId) : ofJson repo.toJson = .ok repo := by
  rw [ofJson, toJson, uint32?_ofUInt32]
  rfl

/-- The form of a prefix is read as that prefix. -/
theorem IpPrefix.ofJson_toJson (p : IpPrefix) : ofJson p.toJson = .ok p := by
  change (read (toString p)).mapError _ = _
  rw [p.read_toString]
  rfl

end Members

namespace Vsp

/-- A repository that may be missing is read from its form or from null. -/
theorem repoOfJson_toJson (repo : Option RepoId) :
    repoOfJson ((repo.map RepoId.toJson).getD .null) = .ok repo := by
  cases repo with
  | none => rfl
  | some repo =>
    change some <$> RepoId.ofJson repo.toJson = _
    rw [repo.ofJson_toJson]
    rfl

/-- The form of a merged list has all of its members, each under its name. -/
theorem members_toJson (v : Vsp) :
    members jsonNames v.toJson = .ok [some v.asn.toJson, some v.provenance.tal.toJson,
      some ((v.provenance.repo.map RepoId.toJson).getD .null), some v.expires.toJson,
      some (.array (v.prefixes.map IpPrefix.toJson))] := by
  simp only [members, jsonNames, toJson, List.map_cons, List.map_nil, member?]
  rfl

/-- A merged list is read exactly if each of its parts is read from the member for it. -/
theorem ofJson_eq_ok_iff {j : Json} {v : Vsp} :
    ofJson j = .ok v ↔ ∃ asn tal repo expires items,
      members jsonNames j = .ok [some asn, some tal, repo, some expires, some (.array items)] ∧
      Asn.ofJson asn = .ok v.asn ∧ TalId.ofJson tal = .ok v.provenance.tal ∧
      repoOfJson (repo.getD .null) = .ok v.provenance.repo ∧ Time.ofJson expires = .ok v.expires ∧
      items.mapM IpPrefix.ofJson = .ok v.prefixes := by
  constructor
  · intro h
    obtain ⟨values, hvalues, h⟩ := except_bind_eq_ok_iff.mp h
    split at h
    · next asn tal repo expires prefixes =>
      simp only [except_bind_eq_ok_iff, expect_eq_ok_iff, items?_eq_some_iff] at h
      obtain ⟨asn', hasn, tal', htal, repo', hrepo, expires', hexpires, items, rfl, ps, hps, h⟩ := h
      cases h
      exact ⟨asn, tal, repo, expires, items, hvalues, hasn, htal, hrepo, hexpires, hps⟩
    · cases h
  · rintro ⟨asn, tal, repo, expires, items, hvalues, hasn, htal, hrepo, hexpires, hps⟩
    refine except_bind_eq_ok_iff.mpr ⟨_, hvalues, ?_⟩
    simp only [except_bind_eq_ok_iff, expect_eq_ok_iff, items?_eq_some_iff]
    exact ⟨_, hasn, _, htal, _, hrepo, _, hexpires, items, rfl, _, hps, rfl⟩

/-- Only the members count from which a merged list is read. -/
theorem ofJson_of_members_eq {j : Json} {v : Vsp}
    (h : members jsonNames j = members jsonNames v.toJson) : ofJson j = .ok v := by
  refine ofJson_eq_ok_iff.mpr ⟨_, _, _, _, _, h.trans v.members_toJson, ?_⟩
  exact ⟨v.asn.ofJson_toJson, v.provenance.tal.ofJson_toJson, repoOfJson_toJson _,
    v.expires.ofJson_toJson, Text.mapM_map_eq_pure fun p _ => p.ofJson_toJson⟩

/-- The form of a merged list is read as that list. -/
theorem ofJson_toJson (v : Vsp) : ofJson v.toJson = .ok v := ofJson_of_members_eq rfl

/-- Merged lists survive being exchanged as JSON, whatever their provenance is and whenever they
expire. Neither the order of the members matters nor what other members there are. The object
stands for a parsed one, where the last of several members of one name counts. So all lists that
a history of insertions comes to are read again, in their order. -/
theorem json_roundTrip :
    (∀ v : Vsp, ofJson v.toJson = .ok v) ∧
    (∀ (v : Vsp) (ms : List (String × Json)),
      (∀ name ∈ jsonNames, (Json.object ms).member? name = v.toJson.member? name) →
        ofJson (.object ms) = .ok v) ∧
    ∀ os : List Observation,
      ((MergeTable.empty.insertAll os).toList.map toJson).mapM ofJson =
        .ok (MergeTable.empty.insertAll os).toList := by
  refine ⟨ofJson_toJson, fun v ms hsame => ?_, fun os => ?_⟩
  · apply ofJson_of_members_eq
    change Except.ok (jsonNames.map fun name => (Json.object ms).member? name) =
      Except.ok (jsonNames.map fun name => v.toJson.member? name)
    rw [List.map_congr_left hsame]
  · exact Text.mapM_map_eq_pure fun v _ => v.ofJson_toJson

/-- A list from an unknown repository that expires at the first time of all. -/
def earliest : Vsp where
  asn := Content.sample.asn
  provenance := ⟨none, ⟨1⟩⟩
  expires := (Time.ofSeconds? (-8334601228800)).get rfl
  prefixes := Content.sample.prefixes

/-- The list is also read if its members come in another order and behind another one. -/
theorem json_roundTrip_reordered :
    earliest.expires.exactText = "-262143-01-01T00:00:00Z" ∧
      ofJson (.object [("valid", .bool true),
        ("prefixes", .array (earliest.prefixes.map IpPrefix.toJson)),
        ("expires", earliest.expires.toJson), ("repoid", .null),
        ("talid", earliest.provenance.tal.toJson), ("as_id", earliest.asn.toJson)]) =
          .ok earliest := by
  refine ⟨by decide +kernel, json_roundTrip.2.1 earliest _ fun name hname => ?_⟩
  simp only [jsonNames, List.mem_cons, List.not_mem_nil, or_false] at hname
  rcases hname with rfl | rfl | rfl | rfl | rfl <;> rfl

/-- Lists that records are merged into have strictly ascending prefixes, also after they were
exchanged. A list that is read has the prefixes that its items say, in their order and as often.
They ascend strictly exactly if those of the items do, and any prefixes can be read. -/
theorem pairwise_prefixes_by_origin (os : List Observation) (j : Json)
    (hos : ∀ o ∈ os, o.record.Produced) :
    (∀ v ∈ (MergeTable.empty.insertAll os).toList, v.prefixes.Pairwise (· < ·) ∧
      ∀ v', ofJson v.toJson = .ok v' → v'.prefixes.Pairwise (· < ·)) ∧
    (∀ v, ofJson j = .ok v → ∃ asn tal repo expires items,
      members jsonNames j = .ok [asn, tal, repo, expires, some (.array items)] ∧
        items.mapM IpPrefix.ofJson = .ok v.prefixes ∧
        (v.prefixes.Pairwise (· < ·) ↔ items.Pairwise fun item item' => ∃ p p',
          IpPrefix.ofJson item = .ok p ∧ IpPrefix.ofJson item' = .ok p' ∧ p < p')) ∧
    ∀ ps : List IpPrefix, ∃ j' v, ofJson j' = .ok v ∧ v.prefixes = ps := by
  refine ⟨fun v hv => ?_, fun v h => ?_, fun ps => ?_⟩
  · have hsorted : ∀ o ∈ os, o.record.prefixes.Pairwise (· < ·) := fun o ho =>
      (hos o ho).pairwise_prefixes
    have hget := (MergeTable.keyed_insertAll hsorted).mem_toList_iff.mp hv
    have hpairwise := (MergeTable.isMergeOf_of_get?_insertAll hsorted hget).pairwise_prefixes
    refine ⟨hpairwise, fun v' hv' => ?_⟩
    rw [v.ofJson_toJson] at hv'
    rwa [← Except.ok.inj hv']
  · obtain ⟨asn, tal, repo, expires, items, hmembers, -, -, -, -, hitems⟩ := ofJson_eq_ok_iff.mp h
    exact ⟨_, _, _, _, items, hmembers, hitems, pairwise_iff_of_except_mapM hitems⟩
  · exact ⟨_, { earliest with prefixes := ps }, ofJson_toJson _, rfl⟩

/-- A record of AS64496 whose two prefixes lie between those of the sample content. -/
def nestedRecord : Record :=
  { MergeTable.sampleRecord with
    prefixes :=
      [⟨.ipv4, ⟨⟨0x0a000000000000000000000000000000⟩, 22, by decide, by decide⟩, by decide⟩,
        ⟨.ipv6, ⟨⟨0x20010000000000000000000000000000⟩, 20, by decide, by decide⟩, by decide⟩] }

/-- A processed record of the same AS number, and this one from another repository. -/
def nestedHistory : List Observation :=
  [⟨Record.sampleProcessed, none⟩, ⟨nestedRecord, some ⟨7⟩⟩]

/-- The items of an array that do not ascend and of which the last two say the same prefix. -/
def descendingItems : List Json := [.string "::/0", .string "10.0.0.0/8", .string "10.1.2.3/8"]

/-- An object that has these items as its prefixes. -/
def descending : Json :=
  .object [("as_id", .integer 64496), ("talid", .integer 1), ("repoid", .null),
    ("expires", .string "1970-01-01T00:00:00Z"), ("prefixes", .array descendingItems)]

/-- The records are merged into one list, where the prefixes of both ascend. The object is read
as well, with the prefixes of its items, which do not. -/
theorem pairwise_prefixes_by_origin_processed :
    (∀ o ∈ nestedHistory, o.record.Produced) ∧
      (∃ v, (MergeTable.empty.insertAll nestedHistory).toList = [v] ∧
        v.prefixes.map toString = ["10.0.0.0/8", "10.0.0.0/22", "2001::/20", "2001:db8::/32"] ∧
        v.prefixes.Pairwise (· < ·)) ∧
      ∃ v, ofJson descending = .ok v ∧ descendingItems.mapM IpPrefix.ofJson = .ok v.prefixes ∧
        ¬v.prefixes.Pairwise (· < ·) := by
  have hos : ∀ o ∈ nestedHistory, o.record.Produced := by
    intro o ho
    rcases List.mem_cons.mp ho with rfl | ho
    · exact Record.produced_sampleProcessed
    · obtain rfl := List.mem_singleton.mp ho
      exact .decode
        (by decide +kernel : Record.decode nestedRecord.encode = .ok (nestedRecord, []))
  obtain ⟨hmerged, hread, -⟩ := pairwise_prefixes_by_origin nestedHistory descending hos
  refine ⟨hos, ?_, ?_⟩
  · obtain ⟨v, hlist, hprefixes⟩ :
        ∃ v, (MergeTable.empty.insertAll nestedHistory).toList = [v] ∧
          v.prefixes.map toString =
            ["10.0.0.0/8", "10.0.0.0/22", "2001::/20", "2001:db8::/32"] := by
      refine ⟨_, rfl, ?_⟩
      decide +kernel
    have hv : v ∈ (MergeTable.empty.insertAll nestedHistory).toList := by
      rw [hlist]
      exact List.mem_singleton_self v
    exact ⟨v, hlist, hprefixes, (hmerged v hv).1⟩
  · obtain ⟨v, hv⟩ : ∃ v, ofJson descending = .ok v := ⟨_, rfl⟩
    obtain ⟨_, _, _, _, items, hmembers, hitems, hpairwise⟩ := hread v hv
    cases hmembers
    refine ⟨v, hv, hitems, fun hsorted => ?_⟩
    -- The first item says an IPv6 prefix and the second one an IPv4 prefix.
    obtain ⟨p, p', hp, hp', hlt⟩ :=
      List.rel_of_pairwise_cons (hpairwise.mp hsorted) List.mem_cons_self
    cases hp
    cases hp'
    exact absurd hlt (by decide +kernel)

/-- The object is read, and its prefixes are kept in their order and with the repetition. -/
theorem ofJson_descending :
    ∃ v, ofJson descending = .ok v ∧ ¬v.prefixes.Pairwise (· < ·) ∧ ¬v.prefixes.Nodup := by
  have hread : (ofJson descending).toOption.any (fun v =>
      ¬v.prefixes.Pairwise (· < ·) ∧ ¬v.prefixes.Nodup) = true := by
    decide +kernel
  cases hresult : ofJson descending with
  | error fault =>
    rw [hresult] at hread
    cases hread
  | ok v =>
    rw [hresult] at hread
    exact ⟨v, rfl, of_decide_eq_true hread⟩

end Vsp

end SignedPrefixes
