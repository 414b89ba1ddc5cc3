import SignedPrefixes.Proofs.Record.Fields
import SignedPrefixes.Proofs.Record.Produced

/-!
# Records survive being handed over

A record that can come about and fits the numbers of the form is taken from the
octets by which it is handed over, without what is not handed over. Octets that end
too early are short input and nothing else. The other way round, a record is only
ever taken from its own octets, so there is one form for each record.
-/

namespace SignedPrefixes

open StateExcept

/-- An identifier that has a form: it is not empty, and its octets can be counted. -/
def Wire.IsIdentifier (s : String) : Prop := s ≠ "" ∧ s.utf8ByteSize < 2 ^ 32

namespace Record

/-- What is handed over of a record. -/
def handedOver (r : Record) : Record :=
  { r with signingTime := none, notBefore := none, notAfter := none, sia := none }

/-- A record that has a form. -/
structure Portable (r : Record) : Prop where
  /-- The prefixes ascend strictly. -/
  pairwise_prefixes : r.prefixes.Pairwise (· < ·)
  /-- Their number fits 32 bits. -/
  length_prefixes_lt : r.prefixes.length < 2 ^ 32
  /-- The expiry is a whole second. -/
  nanos_expires_eq : r.expires.nanos = 0
  /-- The identifiers are not empty, and their lengths fit 32 bits. -/
  isIdentifier_aia : Wire.IsIdentifier r.aia
  isIdentifier_aki : Wire.IsIdentifier r.aki
  isIdentifier_ski : Wire.IsIdentifier r.ski

variable {r : Record} {os rest : Octets}

/-- Prefixes take the same number of octets each. -/
theorem length_flatMap_encodePrefix (ps : List IpPrefix) :
    (ps.flatMap Wire.encodePrefix).length = Wire.prefixSize * ps.length := by
  simp [List.length_flatMap, Wire.length_encodePrefix, Nat.mul_comm]

/-- The octets of a record carry what is handed over of it. -/
theorem Portable.carries (hr : r.Portable) : Wire.Carries Wire.record r.encode r.handedOver := by
  have hvalue (n : UInt32) : UInt32.ofNat n.toNat = n := UInt32.ofNat_toNat
  have hprefixes : Wire.Carries (Wire.ipPrefixes r.prefixes.length none) _ _ :=
    Wire.carries_ipPrefixes hr.pairwise_prefixes (by simp)
  have haia := Wire.carries_string hr.isIdentifier_aia.1 hr.isIdentifier_aia.2
  have haki := Wire.carries_string hr.isIdentifier_aki.1 hr.isIdentifier_aki.2
  have hski := Wire.carries_string hr.isIdentifier_ski.1 hr.isIdentifier_ski.2
  unfold encode
  simp only [List.append_assoc]
  refine (Wire.carries_flag r.valid).bind ?_
  refine (Wire.carries_nat32 r.asn.number.toNat_lt).bind ?_
  refine (Wire.carries_nat32 r.tal.number.toNat_lt).bind ?_
  refine (Wire.carries_nat32 hr.length_prefixes_lt).bind ?_
  refine (Wire.carries_time hr.nanos_expires_eq).bind ?_
  refine Wire.Carries.guard ?_ (by decide) ?_
  · refine hprefixes.bind (haia.bind (haki.bind ?_))
    have hlast := hski.bind_pure fun ski =>
      { r.handedOver with
        asn := ⟨UInt32.ofNat r.asn.number.toNat⟩
        tal := ⟨UInt32.ofNat r.tal.number.toNat⟩
        ski }
    simp only [hvalue] at hlast
    simp only [hvalue]
    exact hlast
  · rw [List.length_append, length_flatMap_encodePrefix]
    omega

/-- A record is only taken from its own octets, which are those of a record that has a
form. -/
theorem decode_eq_ok (h : decode os = .ok (r, rest)) :
    r.Portable ∧ r.handedOver = r ∧ os = r.encode ++ rest := by
  have hsorted := pairwise_of_decode h
  unfold decode Wire.record at h
  obtain ⟨valid, _, hvalid, h⟩ := bind_eq_ok_iff.mp h
  obtain ⟨asn, _, hasn, h⟩ := bind_eq_ok_iff.mp h
  obtain ⟨tal, _, htal, h⟩ := bind_eq_ok_iff.mp h
  obtain ⟨count, _, hcount, h⟩ := bind_eq_ok_iff.mp h
  obtain ⟨expires, _, hexpires, h⟩ := bind_eq_ok_iff.mp h
  simp only [bind_of_ok get_apply, branch_apply, bind_of_error (throw_apply _),
    ite_error_eq_ok_iff] at h
  obtain ⟨-, h⟩ := h
  obtain ⟨prefixes, _, hprefixes, h⟩ := bind_eq_ok_iff.mp h
  obtain ⟨aia, _, haia, h⟩ := bind_eq_ok_iff.mp h
  obtain ⟨aki, _, haki, h⟩ := bind_eq_ok_iff.mp h
  obtain ⟨ski, _, hski, h⟩ := bind_eq_ok_iff.mp h
  cases h
  obtain ⟨hasn, hasnLt⟩ := Wire.nat32_eq_ok hasn
  obtain ⟨htal, htalLt⟩ := Wire.nat32_eq_ok htal
  obtain ⟨hcount, hcountLt⟩ := Wire.nat32_eq_ok hcount
  obtain ⟨hexpires, hnanos⟩ := Wire.time_eq_ok hexpires
  obtain ⟨hprefixes, hlength⟩ := Wire.ipPrefixes_eq_ok_encode hprefixes
  obtain ⟨haia, haiaText⟩ := Wire.string_eq_ok haia
  obtain ⟨haki, hakiText⟩ := Wire.string_eq_ok haki
  obtain ⟨hski, hskiText⟩ := Wire.string_eq_ok hski
  have hasnNat : (UInt32.ofNat asn).toNat = asn := UInt32.toNat_ofNat_of_lt hasnLt
  have htalNat : (UInt32.ofNat tal).toNat = tal := UInt32.toNat_ofNat_of_lt htalLt
  refine ⟨⟨hsorted, hlength.trans_lt hcountLt, hnanos, haiaText, hakiText, hskiText⟩, rfl, ?_⟩
  rw [Wire.flag_eq_ok hvalid, hasn, htal, hcount, hexpires, hprefixes, haia, haki, hski]
  simp only [encode, hasnNat, htalNat, hlength, List.cons_append, List.append_assoc]

/-- A record that can come about has identifiers that are not empty. -/
theorem Produced.identifiers_ne_empty (hr : r.Produced) :
    r.aia ≠ "" ∧ r.aki ≠ "" ∧ r.ski ≠ "" := by
  induction hr with
  | process h =>
    obtain ⟨-, haia, haki, hski, -⟩ := process_eq_ok h
    exact ⟨haia, haki, hski⟩
  | decode h =>
    obtain ⟨hportable, -, -⟩ := decode_eq_ok h
    exact ⟨hportable.isIdentifier_aia.1, hportable.isIdentifier_aki.1,
      hportable.isIdentifier_ski.1⟩
  | withExpires hr expires ih => exact ih

/-- A record that can come about has a form if its parts fit the numbers of the form. -/
theorem Produced.portable (hr : r.Produced) (hexpires : r.expires.nanos = 0)
    (hcount : r.prefixes.length < 2 ^ 32) (haia : r.aia.utf8ByteSize < 2 ^ 32)
    (haki : r.aki.utf8ByteSize < 2 ^ 32) (hski : r.ski.utf8ByteSize < 2 ^ 32) : r.Portable := by
  obtain ⟨haiaNe, hakiNe, hskiNe⟩ := hr.identifiers_ne_empty
  exact ⟨hr.pairwise_prefixes, hcount, hexpires, ⟨haiaNe, haia⟩, ⟨hakiNe, haki⟩, ⟨hskiNe, hski⟩⟩

/-- A record that can come about is taken from its octets, whatever follows them, and any
fewer octets are short input. -/
theorem decode_encode_append_of_produced (hr : r.Produced) (hexpires : r.expires.nanos = 0)
    (hcount : r.prefixes.length < 2 ^ 32) (haia : r.aia.utf8ByteSize < 2 ^ 32)
    (haki : r.aki.utf8ByteSize < 2 ^ 32) (hski : r.ski.utf8ByteSize < 2 ^ 32) :
    (∀ rest, decode (r.encode ++ rest) = .ok (r.handedOver, rest)) ∧
      ∀ os, os <+: r.encode → os ≠ r.encode → decode os = .error .shortInput := by
  have hcarries := (hr.portable hexpires hcount haia haki hski).carries
  exact ⟨hcarries.take_append, hcarries.short⟩

/-- The record that processing the sample content gives. -/
def sampleProcessed : Record where
  valid := true
  asn := Content.sample.asn
  tal := ⟨3⟩
  prefixes := Content.sample.prefixes
  expires := sampleTime
  signingTime := some sampleTime
  notBefore := some sampleTime
  notAfter := some sampleTime
  aia := "rsync://a/b.cer"
  aki := "0a"
  ski := "0b"
  sia := some "rsync://a/c.spl"

/-- The sample record comes about by processing the sample content. -/
theorem produced_sampleProcessed : sampleProcessed.Produced := by
  have hrecord : ((process sampleVerifier .asCoverage .default "c.spl" ⟨3⟩
      Content.sampleOctets).result.toOption.map Prod.snd) = some sampleProcessed := by
    decide +kernel
  exact (Processed.of_map_snd_eq_some hrecord).produced

/-- A processed record loses its times and its place on the way, and cutting off the last
octet is noticed. -/
theorem decode_encode_append_of_produced_processed :
    sampleProcessed.Produced ∧ sampleProcessed.expires.nanos = 0 ∧
      decode (sampleProcessed.encode ++ [1, 2]) = .ok (sampleProcessed.handedOver, [1, 2]) ∧
      sampleProcessed.handedOver ≠ sampleProcessed ∧
      decode sampleProcessed.encode.dropLast = .error .shortInput := by
  have h := decode_encode_append_of_produced produced_sampleProcessed (by decide) (by decide)
    (by decide) (by decide) (by decide)
  refine ⟨produced_sampleProcessed, by decide, h.1 [1, 2], by decide, ?_⟩
  exact h.2 _ (List.dropLast_prefix _) (by decide +kernel)

/-- Decoding is canonical: a record is decoded exactly from the octets of a record that has a
form and nothing that is not handed over. So what was taken are its octets, they hold nothing
else, and no other octets give the same record. -/
theorem decode_eq_ok_iff_encode (os : Octets) (r : Record) (rest : Octets) :
    (decode os = .ok (r, rest) ↔ r.Portable ∧ r.handedOver = r ∧ os = r.encode ++ rest) ∧
      (decode os = .ok (r, rest) →
        r.encode = os.take (os.length - rest.length) ∧ decode r.encode = .ok (r, []) ∧
          ∀ os', decode os' = .ok (r, rest) → os' = os) := by
  have hback {os rest : Octets} (hr : r.Portable) (hsame : r.handedOver = r)
      (hos : os = r.encode ++ rest) : decode os = .ok (r, rest) := by
    have htake := hr.carries.take_append rest
    rwa [hsame, ← hos] at htake
  refine ⟨⟨decode_eq_ok, fun ⟨hr, hsame, hos⟩ => hback hr hsame hos⟩, fun h => ?_⟩
  obtain ⟨hr, hsame, hos⟩ := decode_eq_ok h
  refine ⟨?_, hback hr hsame (List.append_nil _).symm, fun os' h' => ?_⟩
  · rw [hos, List.length_append, Nat.add_sub_cancel, List.take_left']
    rfl
  · rw [hos]
    exact (decode_eq_ok h').2.2

/-- What is handed over of the processed record is taken from its octets only. -/
theorem decode_eq_ok_iff_encode_processed :
    decode (sampleProcessed.encode ++ [7]) = .ok (sampleProcessed.handedOver, [7]) ∧
      ∀ os', decode os' = .ok (sampleProcessed.handedOver, [7]) →
        os' = sampleProcessed.encode ++ [7] := by
  have hdecode : decode (sampleProcessed.encode ++ [7]) =
      .ok (sampleProcessed.handedOver, [7]) := by
    decide +kernel
  exact ⟨hdecode, ((decode_eq_ok_iff_encode _ _ _).2 hdecode).2.2⟩

end Record

end SignedPrefixes
