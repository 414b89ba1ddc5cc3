import SignedPrefixes.Proofs.Prefix
import SignedPrefixes.Proofs.StateExcept
import SignedPrefixes.Proofs.Time
import SignedPrefixes.Record.Wire

/-!
# The fields of a record in transit

Each field of a record has one form. It is taken back from the front of that form,
whatever follows it, and a form that is cut short is short input. The other way
round, a field is only ever taken from its form. Fields that follow each other keep
both properties, so a record is the sum of its fields.
-/

namespace SignedPrefixes

open StateExcept

/-- A prefix is found again from its family, address and length, and from nothing else. -/
theorem IpPrefix.new?_bind_eq_some_iff {family : Family} {a : Address} {n : ℕ} {p : IpPrefix} :
    (Prefix.new? a n).bind (new? family) = some p ∧ p.bits.address = a ↔
      p.family = family ∧ p.bits.address = a ∧ p.length = n := by
  constructor
  · rintro ⟨hnew, haddress⟩
    obtain ⟨bits, hbits, hp⟩ := Option.bind_eq_some_iff.mp hnew
    unfold Prefix.new? at hbits
    unfold new? at hp
    split_ifs at hbits hp
    cases hbits
    cases hp
    exact ⟨rfl, haddress, rfl⟩
  · rintro ⟨rfl, rfl, rfl⟩
    obtain ⟨family, ⟨address, n, hle, hclear⟩, hwidth⟩ := p
    refine ⟨Option.bind_eq_some_iff.mpr ⟨⟨address, n, hle, hclear⟩, ?_, ?_⟩, rfl⟩
    · simp only [Prefix.new?, IpPrefix.length, dif_pos hle, Prefix.ofAddress, hclear]
    · rw [new?, dif_pos hwidth]

namespace Wire

variable {α β : Type} {form form' : Octets} {a : α} {b : β} {os rest : Octets}

/-- Octets by which a value is handed over: the value is taken from their front, and fewer
octets are too short for it. -/
structure Carries (take : Take α) (form : Octets) (a : α) : Prop where
  /-- The value is taken from its form, whatever follows. -/
  take_append : ∀ rest, take (form ++ rest) = .ok (a, rest)
  /-- A form that is cut short is short input. -/
  short : ∀ os, os <+: form → os ≠ form → take os = .error .shortInput

/-- A routine that takes nothing has the empty form. -/
theorem Carries.pure (a : α) : Carries (Pure.pure a) [] a where
  take_append _ := rfl
  short _ hfront hne := absurd (List.prefix_nil.mp hfront) hne

/-- Values that are taken one after the other are handed over one after the other. -/
theorem Carries.bind {x : Take α} {f : α → Take β} (hx : Carries x form a)
    (hf : Carries (f a) form' b) : Carries (x >>= f) (form ++ form') b where
  take_append rest := by
    rw [List.append_assoc, bind_of_ok (hx.take_append _), hf.take_append]
  short os hfront hne := by
    -- The cut lies either in the first value or after it.
    by_cases hfirst : form <+: os
    · obtain ⟨back, rfl⟩ := hfirst
      rw [List.prefix_append_right_inj] at hfront
      rw [bind_of_ok (hx.take_append _)]
      exact hf.short back hfront fun heq => hne (by rw [heq])
    · have hcut : os <+: form :=
        (List.prefix_or_prefix_of_prefix hfront (List.prefix_append _ _)).resolve_right hfirst
      exact bind_of_error (hx.short os hcut fun heq => hfirst (heq ▸ List.prefix_rfl)) f

/-- What is made of a value has the form of the value. -/
theorem Carries.bind_pure {x : Take α} (hx : Carries x form a) (f : α → β) :
    Carries (x >>= fun a => Pure.pure (f a)) form (f a) := by
  have h := hx.bind (f := fun a => Pure.pure (f a)) (Carries.pure (f a))
  rwa [List.append_nil] at h

/-- A function of a value has the form of the value. -/
theorem Carries.map {x : Take α} (hx : Carries x form a) (f : α → β) :
    Carries (f <$> x) form (f a) := by
  rw [← bind_pure_comp]
  exact hx.bind_pure f

/-- Asking for octets beforehand changes nothing if the value has as many. -/
theorem Carries.guard {next : Unit → Take α} (hnext : Carries (next ()) form a) {size n : ℕ}
    (hsize : 0 < size) (hlength : size * n ≤ form.length) :
    Carries (get >>= fun os : Octets =>
      if os.length / size < n then throw .shortInput >>= next else next ()) form a where
  take_append rest := by
    have henough : ¬(form ++ rest).length / size < n := by
      rw [Nat.not_lt, Nat.le_div_iff_mul_le hsize, Nat.mul_comm, List.length_append]
      omega
    rw [bind_of_ok get_apply, branch_apply, if_neg henough]
    exact hnext.take_append rest
  short os hfront hne := by
    rw [bind_of_ok get_apply, branch_apply]
    split_ifs
    · exact bind_of_error (throw_apply _) _
    · exact hnext.short os hfront hne

/-- Octets are taken from the front, as many as are asked for. -/
theorem octets_eq_ok_iff {n : ℕ} {taken : Octets} :
    octets n os = .ok (taken, rest) ↔ os = taken ++ rest ∧ taken.length = n := by
  rw [← Octets.splitAt?_eq_some_iff]
  unfold octets
  cases Octets.splitAt? n os <;> simp

/-- Octets are their own form. -/
theorem carries_octets (form : Octets) : Carries (octets form.length) form form where
  take_append rest := octets_eq_ok_iff.mpr ⟨rfl, rfl⟩
  short os hfront hne := by
    have hlt : os.length < form.length :=
      lt_of_le_of_ne hfront.length_le fun heq => hne (hfront.eq_of_length heq)
    rw [octets, Octets.splitAt?_eq_none_iff.mpr hlt]

/-- One octet is taken from the front. -/
theorem octet_eq_ok_iff {o : UInt8} : octet os = .ok (o, rest) ↔ os = o :: rest := by
  cases os with
  | nil => simp [octet]
  | cons o' os => simp [octet]

/-- An octet is its own form. -/
theorem carries_octet (o : UInt8) : Carries octet [o] o where
  take_append rest := rfl
  short os hfront hne := by
    cases os with
    | nil => rfl
    | cons o' os =>
      obtain ⟨rfl, hnil⟩ := List.cons_prefix_cons.mp hfront
      exact absurd (by rw [List.prefix_nil.mp hnil]) hne

/-- A number is taken from its four octets. -/
theorem nat32_eq_ok {n : ℕ} (h : nat32 os = .ok (n, rest)) :
    os = Octets.ofNat 4 n ++ rest ∧ n < 2 ^ 32 := by
  obtain ⟨taken, htaken, rfl⟩ := map_eq_ok_iff.mp h
  obtain ⟨rfl, hlength⟩ := octets_eq_ok_iff.mp htaken
  have hlt := Octets.toNat_lt taken
  have hback := Octets.ofNat_toNat taken
  rw [hlength] at hlt hback
  exact ⟨by rw [hback], hlt⟩

/-- A number of 32 bits has four octets as its form. -/
theorem carries_nat32 {n : ℕ} (hn : n < 2 ^ 32) : Carries nat32 (Octets.ofNat 4 n) n := by
  have h := (carries_octets (Octets.ofNat 4 n)).map Octets.toNat
  have hmod : n % 256 ^ 4 = n := Nat.mod_eq_of_lt hn
  rw [Octets.toNat_ofNat, hmod, Octets.length_ofNat] at h
  exact h

/-- A signed number is taken from its eight octets. -/
theorem int64_eq_ok {n : ℤ} (h : int64 os = .ok (n, rest)) : os = encodeInt64 n ++ rest := by
  obtain ⟨taken, mid, htaken, hn⟩ := bind_eq_ok_iff.mp h
  cases hn
  obtain ⟨rfl, hlength⟩ := octets_eq_ok_iff.mp htaken
  have hlt := Octets.toNat_lt taken
  have hback := Octets.ofNat_toNat taken
  rw [hlength] at hlt hback
  rw [encodeInt64, BitVec.ofInt_toInt, BitVec.toNat_ofNat,
    (Nat.mod_eq_of_lt hlt : _ % 2 ^ 64 = _), hback]

/-- A signed number of 64 bits has eight octets as its form. -/
theorem carries_int64 {n : ℤ} (hle : -2 ^ 63 ≤ n) (hlt : n < 2 ^ 63) :
    Carries int64 (encodeInt64 n) n := by
  have h := (carries_octets (encodeInt64 n)).bind_pure fun taken =>
    (BitVec.ofNat 64 (Octets.toNat taken)).toInt
  have hvalue : (BitVec.ofNat 64 (Octets.toNat (encodeInt64 n))).toInt = n := by
    have hbits : (BitVec.ofInt 64 n).toNat < 256 ^ 8 := (BitVec.ofInt 64 n).isLt
    rw [encodeInt64, Octets.toNat_ofNat, Nat.mod_eq_of_lt hbits, BitVec.ofNat_toNat,
      BitVec.setWidth_eq, BitVec.toInt_ofInt, Int.bmod_eq_of_le (by omega) (by omega)]
  rw [hvalue, encodeInt64, Octets.length_ofNat] at h
  exact h

/-- A flag is taken from one or zero, and from no other octet. -/
theorem flag_eq_ok {valid : Bool} (h : flag os = .ok (valid, rest)) :
    os = (if valid then 1 else 0) :: rest := by
  obtain ⟨o, mid, ho, h⟩ := bind_eq_ok_iff.mp h
  rw [octet_eq_ok_iff.mp ho]
  rw [branch_apply, branch_apply] at h
  split_ifs at h with hzero hone
  · cases h
    rw [hzero]
    rfl
  · cases h
    rw [hone]
    rfl
  · cases h

/-- A flag has one octet as its form. -/
theorem carries_flag (valid : Bool) : Carries flag [if valid then 1 else 0] valid := by
  rw [← List.append_nil [if valid then 1 else 0]]
  refine (carries_octet _).bind ?_
  cases valid <;> exact Carries.pure _

/-- A time is taken from its seconds, so it is a whole second. -/
theorem time_eq_ok {t : Time} (h : time os = .ok (t, rest)) :
    os = encodeInt64 t.seconds ++ rest ∧ t.nanos = 0 := by
  obtain ⟨seconds, mid, hseconds, h⟩ := bind_eq_ok_iff.mp h
  rw [int64_eq_ok hseconds]
  cases htime : Time.ofSeconds? seconds with
  | none =>
    rw [htime] at h
    cases h
  | some t' =>
    rw [htime] at h
    cases h
    obtain ⟨rfl, hnanos⟩ := Time.ofSeconds?_eq_some_iff.mp htime
    exact ⟨rfl, hnanos⟩

/-- A whole second has the octets of its seconds as its form. -/
theorem carries_time {t : Time} (hnanos : t.nanos = 0) :
    Carries time (encodeInt64 t.seconds) t := by
  have hle := t.le_seconds
  have hlt := t.seconds_le
  have htime : Time.ofSeconds? t.seconds = some t := Time.ofSeconds?_eq_some_iff.mpr ⟨rfl, hnanos⟩
  rw [← List.append_nil (encodeInt64 t.seconds)]
  refine (carries_int64 (by omega) (by omega)).bind ?_
  rw [htime]
  exact Carries.pure t

/-- Every prefix takes the same number of octets. -/
theorem length_encodePrefix (p : IpPrefix) : (encodePrefix p).length = prefixSize := by
  simp [encodePrefix, Address.octets, prefixSize]

/-- A prefix is taken from its own octets only. -/
theorem ipPrefix_eq_ok {p : IpPrefix} (h : ipPrefix os = .ok (p, rest)) :
    os = encodePrefix p ++ rest := by
  obtain ⟨afi, afterFamily, hafi, h⟩ := bind_eq_ok_iff.mp h
  rw [octet_eq_ok_iff.mp hafi]
  cases hfamily : Family.ofAfi? afi with
  | none =>
    rw [hfamily] at h
    cases h
  | some family =>
    rw [hfamily] at h
    dsimp only at h
    -- The address and the length give the prefix back, as no bit after the length is set.
    obtain ⟨address, afterAddress, haddress, h⟩ := bind_eq_ok_iff.mp h
    obtain ⟨hafter, hsixteen⟩ := octets_eq_ok_iff.mp haddress
    obtain ⟨length, afterLength, hlength, h⟩ := bind_eq_ok_iff.mp h
    rw [hafter, octet_eq_ok_iff.mp hlength]
    cases hnew : (Prefix.new? (Address.ofOctets address) length.toNat).bind
        (IpPrefix.new? family) with
    | none =>
      rw [hnew] at h
      cases h
    | some p' =>
      rw [hnew] at h
      dsimp only at h
      rw [branch_apply] at h
      split_ifs at h with hclear
      · cases h
        obtain ⟨rfl, -, hn⟩ := IpPrefix.new?_bind_eq_some_iff.mp ⟨hnew, hclear⟩
        rw [Family.ofAfi?_eq_some_iff.mp hfamily, encodePrefix, hclear,
          Address.octets_ofOctets hsixteen, hn, UInt8.ofNat_toNat]
        simp
      · cases h

/-- A prefix has its octets as its form. -/
theorem carries_ipPrefix (p : IpPrefix) : Carries ipPrefix (encodePrefix p) p := by
  have hfamily : Family.ofAfi? p.family.afi = some p.family := Family.ofAfi?_eq_some_iff.mpr rfl
  have hlength : (UInt8.ofNat p.length).toNat = p.length :=
    UInt8.toNat_ofNat_of_lt (lt_of_le_of_lt p.bits.length_le (by decide))
  have hnew := (IpPrefix.new?_bind_eq_some_iff (p := p)).mpr ⟨rfl, rfl, rfl⟩
  have hsixteen : p.bits.address.octets.length = 16 := Octets.length_ofNat 16 _
  refine (carries_octet p.family.afi).bind ?_
  rw [hfamily]
  refine Carries.bind (hsixteen ▸ carries_octets p.bits.address.octets) ?_
  rw [← List.append_nil [UInt8.ofNat p.length]]
  refine (carries_octet (UInt8.ofNat p.length)).bind ?_
  rw [hlength, Address.ofOctets_octets, hnew.1]
  dsimp only
  rw [if_pos rfl]
  exact Carries.pure p

/-- Prefixes are taken from their octets, one after the other and as many as were announced. -/
theorem ipPrefixes_eq_ok_encode {n : ℕ} {before : Option IpPrefix} {ps : List IpPrefix}
    (h : ipPrefixes n before os = .ok (ps, rest)) :
    os = ps.flatMap encodePrefix ++ rest ∧ ps.length = n := by
  induction n generalizing before ps os with
  | zero =>
    cases h
    exact ⟨rfl, rfl⟩
  | succ n ih =>
    unfold ipPrefixes at h
    obtain ⟨p, afterPrefix, hp, h⟩ := bind_eq_ok_iff.mp h
    simp only [branch_apply, bind_of_error (throw_apply _), ite_error_eq_ok_iff] at h
    obtain ⟨-, h⟩ := h
    obtain ⟨ps', after, hrest, h⟩ := bind_eq_ok_iff.mp h
    cases h
    obtain ⟨rfl, rfl⟩ := ih hrest
    rw [ipPrefix_eq_ok hp, List.flatMap_cons, List.append_assoc]
    exact ⟨rfl, rfl⟩

/-- Prefixes that ascend strictly have their octets, one after the other, as their form. -/
theorem carries_ipPrefixes {ps : List IpPrefix} (hsorted : ps.Pairwise (· < ·))
    {before : Option IpPrefix} (hbefore : ∀ q ∈ before, ∀ p ∈ ps, q < p) :
    Carries (ipPrefixes ps.length before) (ps.flatMap encodePrefix) ps := by
  induction ps generalizing before with
  | nil => exact Carries.pure []
  | cons p ps ih =>
    obtain ⟨hfirst, hrest⟩ := List.pairwise_cons.mp hsorted
    have hafter : ¬before.any (p ≤ ·) = true := by
      cases before with
      | none => simp
      | some q => simpa using hbefore q rfl p List.mem_cons_self
    have hps : Carries (ipPrefixes ps.length (some p)) (ps.flatMap encodePrefix) ps := by
      apply ih hrest
      intro q hq r hr
      obtain rfl := Option.some.inj (Option.mem_def.mp hq)
      exact hfirst r hr
    rw [List.flatMap_cons]
    refine (carries_ipPrefix p).bind ?_
    rw [if_neg hafter]
    exact hps.bind_pure (p :: ·)

/-- The octets of a text are the bytes that it is made of. -/
theorem toByteArray_toUTF8 (s : String) : s.toUTF8.data.toList.toByteArray = s.toByteArray := by
  apply ByteArray.ext
  rw [List.data_toByteArray, Array.toArray_toList, String.toUTF8_eq_toByteArray]

/-- A text is taken from its length and its octets, and is never empty. -/
theorem string_eq_ok {s : String} (h : string os = .ok (s, rest)) :
    os = encodeString s ++ rest ∧ s ≠ "" ∧ s.utf8ByteSize < 2 ^ 32 := by
  obtain ⟨n, afterLength, hn, h⟩ := bind_eq_ok_iff.mp h
  obtain ⟨hos, hlt⟩ := nat32_eq_ok hn
  rw [hos]
  simp only [branch_apply, bind_of_error (throw_apply _), ite_error_eq_ok_iff] at h
  obtain ⟨hne, h⟩ := h
  obtain ⟨taken, after, htaken, h⟩ := bind_eq_ok_iff.mp h
  obtain ⟨hafter, hlength⟩ := octets_eq_ok_iff.mp htaken
  rw [hafter]
  cases hs : String.fromUTF8? taken.toByteArray with
  | none =>
    rw [hs] at h
    cases h
  | some s' =>
    rw [hs] at h
    cases h
    unfold String.fromUTF8? at hs
    split_ifs at hs with hvalid
    obtain rfl := Option.some.inj hs
    have hbytes : (String.fromUTF8 taken.toByteArray hvalid).toByteArray = taken.toByteArray := rfl
    have hsize := String.size_toByteArray (s := String.fromUTF8 taken.toByteArray hvalid)
    rw [hbytes, List.size_toByteArray, hlength] at hsize
    refine ⟨?_, ?_, by omega⟩
    · rw [encodeString, String.toUTF8_eq_toByteArray, hbytes, List.data_toByteArray, hlength,
        List.append_assoc]
    · intro hempty
      rw [hempty] at hsize
      exact hne hsize

/-- A text that is not empty and not too long has its length and its octets as its form. -/
theorem carries_string {s : String} (hne : s ≠ "") (hlt : s.utf8ByteSize < 2 ^ 32) :
    Carries string (encodeString s) s := by
  have hlength : s.toUTF8.data.toList.length = s.utf8ByteSize := by
    rw [← String.size_toByteArray, ← toByteArray_toUTF8, List.size_toByteArray]
  have hpos : s.utf8ByteSize ≠ 0 := fun hzero => hne (String.utf8ByteSize_eq_zero_iff.mp hzero)
  have htext : String.fromUTF8? s.toUTF8.data.toList.toByteArray = some s := by
    rw [toByteArray_toUTF8, String.fromUTF8?, dif_pos s.isValidUTF8]
    rfl
  unfold encodeString
  rw [← List.append_nil s.toUTF8.data.toList]
  refine (carries_nat32 (by rw [List.append_nil, hlength]; exact hlt)).bind ?_
  rw [List.append_nil, hlength, if_neg hpos]
  rw [← List.append_nil s.toUTF8.data.toList]
  refine Carries.bind (hlength ▸ carries_octets s.toUTF8.data.toList) ?_
  rw [htext]
  exact Carries.pure s

end Wire

end SignedPrefixes
