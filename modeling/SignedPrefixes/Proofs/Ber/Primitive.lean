import SignedPrefixes.Proofs.Ber.Value

/-!
# Integers, octet strings and bit strings

Each kind of primitive value is read from its header and its content. In DER only
what is written for a value is read as that value. What is written is read back
under either set of rules, unless the value itself is refused.
-/

namespace SignedPrefixes.Ber

open Reader StateExcept

variable {ε : Type} {inp out : Input} {rules : Rules} {os : Octets}

section Integer

variable {refusal : ε}

/-- A number is a mandatory value whose constructed form is refused. -/
theorem unsigned32_eq_value? :
    (unsigned32 rules refusal : Reader ε UInt32) =
      mandatory (value? rules Tag.integer
        (fun isConstructed start n =>
          if isConstructed then fail .expectedPrimitive start
          else do
            match (← octets? n).bind unsigned32? with
            | some number => return number
            | none => refuse refusal start)
        (fun start => fail .expectedPrimitive start)) := rfl

/-- DER has one way to write a number of 32 bits. -/
theorem unsigned32_eq_ok_der {number : UInt32}
    (h : unsigned32 .der refusal inp = .ok (number, out)) :
    inp.Takes (Der.integer number.toNat) out := by
  rw [unsigned32_eq_value?] at h
  rcases value?_eq_ok_some (mandatory_eq_ok h) with
    ⟨isConstructed, start, n, inner, inner', hread, htakes⟩ | ⟨hber, -⟩
  · cases isConstructed with
    | true => cases hread
    | false =>
      obtain ⟨os?, after, hoctets, hread⟩ := bind_eq_ok_iff.mp hread
      cases hnumber : os?.bind unsigned32? with
      | none =>
        rw [hnumber] at hread
        cases hread
      | some number' =>
        rw [hnumber] at hread
        cases hread
        obtain ⟨os, rfl, hnumber⟩ := Option.bind_eq_some_iff.mp hnumber
        have htake := (octets?_eq_ok_some_iff.mp hoctets).1
        rw [Der.integerOctets_of_unsigned32? hnumber] at htake
        exact (htakes rfl _ htake).2
  · exact absurd rfl hber

/-- An integer that is written is read back if it is a number of 32 bits. -/
theorem outcome_unsigned32 {n : ℤ} (hlength : (Der.integerOctets n).length < 2 ^ 32)
    (htake : inp.Takes (Der.integer n) out) :
    outcome (unsigned32 rules refusal inp) =
      Except.map (fun number => (number, out))
        (if 0 ≤ n ∧ n < UInt32.size then .ok (UInt32.ofNat n.toNat)
          else .error (.content refusal)) := by
  rw [unsigned32_eq_value?]
  apply outcome_mandatory
  apply outcome_value? false (by decide) hlength htake
  intro start inner inner' hcontent _
  have hoctets : (octets? (Der.integerOctets n).length : Reader ε (Option Octets)) inner = _ :=
    octets?_eq_ok_some_iff.mpr ⟨hcontent, rfl⟩
  change outcome ((octets? _ >>= _) inner) = _
  rw [bind_of_ok hoctets, Option.bind_some, Der.unsigned32?_integerOctets]
  by_cases hrange : 0 ≤ n ∧ n < UInt32.size
  · rw [if_pos hrange, if_pos hrange]
    rfl
  · rw [if_neg hrange, if_neg hrange]
    rfl

end Integer

section OctetString

/-- An octet string is a value with octets or parts as its content. -/
theorem octetString?_eq_value? :
    (octetString? rules : Reader ε (Option Octets)) =
      value? rules Tag.octetString
        (fun isConstructed start n =>
          if isConstructed then stringParts rules false start
          else do
            match ← octets? n with
            | some os => return os
            | none => failHere .unexpectedEnd)
        (fun start => stringParts rules true start) := rfl

/-- In DER an octet string is read from its own encoding. -/
theorem octetString?_eq_ok_some_der
    (h : (octetString? .der : Reader ε (Option Octets)) inp = .ok (some os, out)) :
    inp.Takes (Der.octetString os) out := by
  rw [octetString?_eq_value?] at h
  rcases value?_eq_ok_some h with
    ⟨isConstructed, start, n, inner, inner', hread, htakes⟩ | ⟨hber, -⟩
  · cases isConstructed with
    | true => cases hread
    | false =>
      obtain ⟨os?, after, hoctets, hread⟩ := bind_eq_ok_iff.mp hread
      cases os? with
      | none => cases hread
      | some os' =>
        cases hread
        exact (htakes rfl _ (octets?_eq_ok_some_iff.mp hoctets).1).2
  · exact absurd rfl hber

/-- DER has one way to write an octet string. -/
theorem octetString_eq_ok_der {enclosing : ℕ}
    (h : (octetString .der enclosing : Reader ε Octets) inp = .ok (os, out)) :
    inp.Takes (Der.octetString os) out := by
  unfold octetString at h
  obtain ⟨os?, mid, hread, h⟩ := bind_eq_ok_iff.mp h
  cases os? with
  | none => cases h
  | some os' =>
    cases h
    exact octetString?_eq_ok_some_der hread

/-- An octet string that is written is read, whatever the rules are. -/
theorem octetString_of_takes {enclosing : ℕ} (hlength : os.length < 2 ^ 32)
    (htake : inp.Takes (Der.octetString os) out) :
    (octetString rules enclosing : Reader ε Octets) inp = .ok (os, out) := by
  have hread : outcome ((octetString? rules : Reader ε (Option Octets)) inp) =
      Except.map (fun os => (some os, out)) (.ok os) := by
    rw [octetString?_eq_value?]
    apply outcome_value? false (by decide) hlength htake
    intro start inner inner' hcontent _
    have hoctets : (octets? os.length : Reader ε (Option Octets)) inner = _ :=
      octets?_eq_ok_some_iff.mpr ⟨hcontent, rfl⟩
    change outcome ((octets? _ >>= _) inner) = _
    rw [bind_of_ok hoctets]
    rfl
  unfold octetString
  rw [bind_of_ok (outcome_eq_ok_iff.mp hread)]
  rfl

end OctetString

section BitString

variable {s : BitString}

/-- A bit string is a value whose constructed form is refused in the words of the rules. -/
theorem bitString?_eq_value? :
    (bitString? rules : Reader ε (Option BitString)) =
      value? rules Tag.bitString
        (fun isConstructed start n =>
          if isConstructed then bitStringParts rules start else bitStringContent rules start n)
        (fun start => bitStringParts rules start) := rfl

/-- A bit string that is not there takes nothing. -/
theorem bitString?_eq_ok_none (h : (bitString? rules : Reader ε (Option BitString)) inp =
    .ok (none, out)) : out = inp := by
  rw [bitString?_eq_value?] at h
  exact value?_eq_ok_none h

/-- There is no bit string at the end of the value around it. -/
theorem bitString?_of_limit (hlimit : inp.limit = some 0) :
    (bitString? rules : Reader ε (Option BitString)) inp = .ok (none, inp) := by
  rw [bitString?_eq_value?]
  exact value?_of_limit hlimit

/-- DER has one way to write a bit string, and none of its unused bits is set. -/
theorem bitString?_eq_ok_some_der
    (h : (bitString? .der : Reader ε (Option BitString)) inp = .ok (some s, out)) :
    inp.Takes (Der.bitString s) out ∧ s.hasUnusedBits = false := by
  rw [bitString?_eq_value?] at h
  rcases value?_eq_ok_some h with
    ⟨isConstructed, start, n, inner, inner', hread, htakes⟩ | ⟨hber, -⟩
  · cases isConstructed with
    | true => cases hread
    | false =>
      change bitStringContent .der start n inner = _ at hread
      unfold bitStringContent at hread
      -- In DER there is only the primitive form: the count of unused bits, then the octets.
      obtain ⟨unused?, mid, hunused, hread⟩ := bind_eq_ok_iff.mp hread
      cases unused? with
      | none => cases hread
      | some unused =>
        simp only [branch_apply, bind_of_error (fail_apply _ _), ite_error_eq_ok_iff] at hread
        obtain ⟨-, hread⟩ := hread
        obtain ⟨os?, after, hoctets, hread⟩ := bind_eq_ok_iff.mp hread
        cases os? with
        | none => cases hread
        | some os =>
          dsimp only at hread
          cases hnew : BitString.new? os unused.toNat with
          | none =>
            rw [hnew] at hread
            cases hread
          | some s' =>
            simp only [hnew, branch_apply, fail_apply, ite_error_eq_ok_iff, true_and,
              pure_apply] at hread
            obtain ⟨hset, hread⟩ := hread
            cases hread
            obtain ⟨rfl, hcount⟩ := BitString.new?_eq_some_iff.mp hnew
            have htake := (octet?_eq_ok_some_iff.mp hunused).cons
              (octets?_eq_ok_some_iff.mp hoctets).1
            have hvalue := (htakes rfl _ htake).2
            rw [← @UInt8.ofNat_toNat unused, ← hcount] at hvalue
            exact ⟨hvalue, by simpa using hset⟩
  · exact absurd rfl hber

/-- A bit string that is written is read back, unless DER is asked for and an unused bit
is set. -/
theorem outcome_bitString? (hlength : s.octets.length + 1 < 2 ^ 32)
    (htake : inp.Takes (Der.bitString s) out) :
    outcome ((bitString? rules : Reader ε (Option BitString)) inp) =
      Except.map (fun s => (some s, out))
        (if rules = .der ∧ s.hasUnusedBits then .error (.encoding .unusedBitsSet)
          else .ok s) := by
  rw [bitString?_eq_value?]
  apply outcome_value? false (by decide) (by simpa using hlength) htake
  intro start inner inner' hcontent _
  obtain ⟨mid, hunused, hoctets⟩ := hcontent.split_cons
  have hle := s.unused_le
  have hvalue : (UInt8.ofNat s.unused).toNat = s.unused :=
    UInt8.toNat_ofNat_of_lt (by change _ < 256; omega)
  have hfew : ¬7 < UInt8.ofNat s.unused := by
    rw [UInt8.lt_iff_toNat_lt, hvalue]
    exact Nat.not_lt.mpr hle
  have hnew : BitString.new? s.octets (UInt8.ofNat s.unused).toNat = some s :=
    BitString.new?_eq_some_iff.mpr ⟨rfl, hvalue.symm⟩
  have hread : (octets? s.octets.length : Reader ε (Option Octets)) mid = _ :=
    octets?_eq_ok_some_iff.mpr ⟨hoctets, rfl⟩
  change outcome (bitStringContent rules start (s.octets.length + 1) inner) = _
  unfold bitStringContent
  rw [bind_of_ok (octet?_eq_ok_some_iff.mpr hunused)]
  dsimp only
  rw [if_neg hfew, Nat.add_sub_cancel, bind_of_ok hread]
  simp only [hnew]
  by_cases hset : rules = .der ∧ s.hasUnusedBits = true
  · rw [if_pos hset, if_pos hset]
    rfl
  · rw [if_neg hset, if_neg hset]
    rfl

end BitString

end SignedPrefixes.Ber
