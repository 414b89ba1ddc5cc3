import SignedPrefixes.Proofs.Ber.Minimal
import SignedPrefixes.Proofs.Ber.Reader

/-!
# Headers

Under DER a header that is read is the one that is written for the tag and the
length of the content. Under either set of rules a header that is written is read
back if its tag is the one asked for, and is left alone otherwise.
-/

namespace SignedPrefixes.Ber

open Reader StateExcept

variable {ε α : Type} {inp mid out : Input} {rules : Rules} {tag tag' : Tag} {n : ℕ}

namespace Tag

/-- A tag that fits one octet. -/
def IsShort (tag : Tag) : Prop := tag &&& numberBits ≠ numberBits ∧ tag &&& constructedBit = 0

instance (tag : Tag) : Decidable tag.IsShort :=
  inferInstanceAs (Decidable (tag &&& numberBits ≠ numberBits ∧ tag &&& constructedBit = 0))

/-- The first octet of a value. -/
def identifier (tag : Tag) (isConstructed : Bool) : UInt8 :=
  if isConstructed then tag ||| constructedBit else tag

/-- An octet is the identifier of its tag and its form. -/
theorem identifier_of_octet (o : UInt8) :
    identifier (o &&& ~~~constructedBit) (o &&& constructedBit ≠ 0) = o := by
  revert o
  decide +kernel

/-- The identifier of a short tag says the tag and the form, and does not announce further
octets. -/
theorem IsShort.identifier (hshort : tag.IsShort) (isConstructed : Bool) :
    tag.identifier isConstructed &&& numberBits ≠ numberBits ∧
      tag.identifier isConstructed &&& ~~~constructedBit = tag ∧
      decide (tag.identifier isConstructed &&& constructedBit ≠ 0) = isConstructed := by
  revert tag isConstructed
  decide +kernel

end Tag

/-- No tag is found where there is no octet. -/
theorem tag?_of_next?_eq_none (h : inp.next? = none) :
    (tag? tag : Reader ε (Option Bool)) inp = .ok (none, inp) := by
  unfold tag?
  rw [bind_of_ok get_apply, h]
  rfl

/-- What looking for a tag comes to where there is an octet. -/
theorem tag?_of_next? {after : Input} {o : UInt8} (h : inp.next? = some (o, after)) :
    (tag? tag : Reader ε (Option Bool)) inp =
      if o &&& Tag.numberBits = Tag.numberBits then
        match skipTag 3 after with
        | .error (fault, _) => .error ⟨.encoding fault, inp.position⟩
        | .ok _ => .ok (none, inp)
      else if o &&& ~~~Tag.constructedBit = tag then
        .ok (some (o &&& Tag.constructedBit ≠ 0), after)
      else .ok (none, inp) := by
  unfold tag?
  rw [bind_of_ok get_apply]
  simp only [h, branch_apply]
  cases skipTag 3 after <;> rfl

/-- A tag that is found has been taken as its identifier. -/
theorem tag?_eq_ok_some {isConstructed : Bool}
    (h : (tag? tag : Reader ε (Option Bool)) inp = .ok (some isConstructed, out)) :
    inp.Takes [tag.identifier isConstructed] out := by
  cases hnext : inp.next? with
  | none =>
    rw [tag?_of_next?_eq_none hnext] at h
    cases h
  | some p =>
    obtain ⟨o, after⟩ := p
    have htake := Input.next?_eq_some_iff.mp hnext
    rw [tag?_of_next? hnext] at h
    split_ifs at h with hlong htag
    · cases hskip : skipTag 3 after <;> rw [hskip] at h <;> cases h
    · cases h
      rwa [← htag, Tag.identifier_of_octet]
    · cases h

/-- A tag that is not found stays where it is. -/
theorem tag?_eq_ok_none (h : (tag? tag : Reader ε (Option Bool)) inp = .ok (none, out)) :
    out = inp := by
  cases hnext : inp.next? with
  | none =>
    rw [tag?_of_next?_eq_none hnext] at h
    cases h
    rfl
  | some p =>
    obtain ⟨o, after⟩ := p
    rw [tag?_of_next? hnext] at h
    split_ifs at h
    · cases hskip : skipTag 3 after <;> rw [hskip] at h <;> cases h
      rfl
    · cases h
    · cases h
      rfl

/-- There is no tag at the end of the value around it. -/
theorem tag?_of_limit (hlimit : inp.limit = some 0) :
    (tag? tag : Reader ε (Option Bool)) inp = .ok (none, inp) :=
  tag?_of_next?_eq_none (Input.next?_eq_none hlimit)

/-- A complete tag is taken if it is the one asked for, and stays otherwise. -/
theorem tag?_of_takes (hshort : tag'.IsShort) {isConstructed : Bool}
    (htake : inp.Takes [tag'.identifier isConstructed] mid) :
    (tag? tag : Reader ε (Option Bool)) inp =
      .ok (if tag' = tag then (some isConstructed, mid) else (none, inp)) := by
  obtain ⟨hnumber, htag, hbit⟩ := hshort.identifier isConstructed
  rw [tag?_of_next? (Input.next?_eq_some_iff.mpr htake), if_neg hnumber, htag, hbit]
  split_ifs <;> rfl

/-- In DER several octets are only taken for a length that needs as many. -/
private theorem longLength_eq_ok_der {count : ℕ} (hcount : count ≠ 0)
    (h : (longLength .der count : Reader ε Length) inp = .ok (.definite n, out)) :
    128 ≤ n ∧ n.log2 / 8 + 1 = count ∧ inp.Takes (Octets.ofNat count n) out := by
  unfold longLength at h
  rw [bind_of_ok get_apply] at h
  cases htake : inp.take? count with
  | none =>
    rw [htake] at h
    cases h
  | some p =>
    obtain ⟨os, after⟩ := p
    obtain ⟨htakes, hlength⟩ := Input.take?_eq_some_iff.mp htake
    simp only [htake, bind_of_ok set_apply, branch_apply, bind_of_error (failHere_apply _),
      ite_error_eq_ok_iff, true_and, pure_apply] at h
    obtain ⟨hpadded, h⟩ := h
    cases h
    have hne : os ≠ [] := by
      rintro rfl
      exact hcount hlength.symm
    obtain ⟨hlarge, hfewest⟩ := fewest_of_isPadded_eq_false hne (by simpa using hpadded)
    rw [← hlength, Octets.ofNat_toNat]
    exact ⟨hlarge, hfewest, htakes⟩

/-- DER has one way to write a length. -/
theorem length_eq_ok_der (h : (length .der : Reader ε Length) inp = .ok (.definite n, out)) :
    inp.Takes (Der.lengthOctets n) out := by
  unfold length at h
  obtain ⟨first, after, hfirst, h⟩ := bind_eq_ok_iff.mp h
  cases first with
  | none => cases h
  | some o =>
    have htake := octet?_eq_ok_some_iff.mp hfirst
    simp only [branch_apply] at h
    split_ifs at h with hsmall hindefinite hlong
    · cases h
      have hlt : o.toNat < 128 := UInt8.lt_iff_toNat_lt.mp hsmall
      rwa [Der.lengthOctets, if_pos hlt, UInt8.ofNat_toNat]
    · cases h
    · have hge : 128 ≤ o.toNat :=
        Nat.le_of_not_lt fun hlt => hsmall (UInt8.lt_iff_toNat_lt.mpr hlt)
      have hne : o.toNat ≠ 128 := fun heq => hindefinite (UInt8.toNat_inj.mp heq)
      change longLength .der (o.toNat - 128) after = _ at h
      obtain ⟨hlarge, hcount, htake'⟩ := longLength_eq_ok_der (by omega) h
      have ho : UInt8.ofNat (128 + (o.toNat - 128)) = o := by
        rw [Nat.add_sub_cancel' hge, UInt8.ofNat_toNat]
      rw [Der.lengthOctets, if_neg (by omega)]
      simp only [hcount, ho]
      exact htake.cons htake'
    · cases h

/-- A length that is written is read back, as long as four octets hold it. -/
theorem length_of_takes (hn : n < 2 ^ 32) (htake : inp.Takes (Der.lengthOctets n) mid) :
    (length rules : Reader ε Length) inp = .ok (.definite n, mid) := by
  unfold Der.lengthOctets at htake
  unfold length
  split_ifs at htake with hsmall
  · have hvalue : (UInt8.ofNat n).toNat = n := UInt8.toNat_ofNat_of_lt (by change _ < 256; omega)
    have hlt : UInt8.ofNat n < 0x80 := UInt8.lt_iff_toNat_lt.mpr (by rw [hvalue]; exact hsmall)
    rw [bind_of_ok (octet?_eq_ok_some_iff.mpr htake)]
    simp only [branch_apply, if_pos hlt, hvalue, pure_apply]
  · -- The count of octets is at most four, so the first octet lies between 0x81 and 0x84.
    have hwidth : n.log2 < 32 := (Nat.log2_lt (by omega)).mpr hn
    obtain ⟨after, hfirst, hrest⟩ := htake.split_cons
    generalize hcount : n.log2 / 8 + 1 = count at hfirst hrest
    have hvalue : (UInt8.ofNat (128 + count)).toNat = 128 + count :=
      UInt8.toNat_ofNat_of_lt (by change _ < 256; omega)
    generalize UInt8.ofNat (128 + count) = o at hfirst hvalue
    have hlarge : ¬o < 0x80 := by
      rw [UInt8.lt_iff_toNat_lt, hvalue]
      change ¬128 + count < 128
      omega
    have hdefinite : o ≠ 0x80 := by
      rintro rfl
      change 128 = 128 + count at hvalue
      omega
    have hshort : o ≤ 0x84 := by
      rw [UInt8.le_iff_toNat_le, hvalue]
      change 128 + count ≤ 132
      omega
    have hpadded := isPadded_ofNat (n := n) (by omega)
    rw [hcount] at hpadded
    have hnumber : Octets.toNat (Octets.ofNat count n) = n := by
      rw [← hcount]
      exact Octets.toNat_ofNat_of_lt ((log2_div_eight_eq_iff (by omega)).mp rfl).2
    have htake' := Input.take?_eq_some_iff.mpr ⟨hrest, Octets.length_ofNat count n⟩
    rw [bind_of_ok (octet?_eq_ok_some_iff.mpr hfirst)]
    simp only [branch_apply, if_neg hlarge, if_neg hdefinite, if_pos hshort, hvalue,
      Nat.add_sub_cancel_left]
    unfold longLength
    rw [bind_of_ok get_apply]
    simp [htake', bind_of_ok set_apply, hpadded, hnumber]

/-- A header that is not there takes nothing. -/
theorem header?_eq_ok_none
    (h : (header? rules tag : Reader ε (Option Header)) inp = .ok (none, out)) : out = inp := by
  unfold header? at h
  obtain ⟨form, mid, htag, h⟩ := bind_eq_ok_iff.mp h
  cases form with
  | none =>
    cases h
    exact tag?_eq_ok_none htag
  | some isConstructed =>
    obtain ⟨length, after, -, h⟩ := bind_eq_ok_iff.mp h
    cases length with
    | definite n => cases h
    | indefinite =>
      simp only [branch_apply, failHere_apply] at h
      split_ifs at h
      cases h

/-- The header of a value with a definite length. -/
def Header.ofForm (isConstructed : Bool) (n : ℕ) : Header :=
  if isConstructed then .constructed n else .primitive n

/-- A header in DER is the one that is written. -/
theorem header?_eq_ok_der {header : Header}
    (h : (header? .der tag : Reader ε (Option Header)) inp = .ok (some header, out)) :
    ∃ isConstructed n, header = .ofForm isConstructed n ∧
      inp.Takes (tag.identifier isConstructed :: Der.lengthOctets n) out := by
  unfold header? at h
  obtain ⟨form, mid, htag, h⟩ := bind_eq_ok_iff.mp h
  cases form with
  | none => cases h
  | some isConstructed =>
    obtain ⟨length, after, hlength, h⟩ := bind_eq_ok_iff.mp h
    cases length with
    | definite n =>
      cases h
      exact ⟨isConstructed, n, rfl, (tag?_eq_ok_some htag).cons (length_eq_ok_der hlength)⟩
    | indefinite =>
      simp only [reduceCtorEq, and_false, if_false] at h
      cases h

/-- There is no header at the end of the value around it. -/
theorem header?_of_limit (hlimit : inp.limit = some 0) :
    (header? rules tag : Reader ε (Option Header)) inp = .ok (none, inp) := by
  unfold header?
  rw [bind_of_ok (tag?_of_limit hlimit)]
  rfl

/-- A header that is written is read back if its tag is the one asked for, and stays
otherwise. -/
theorem header?_of_takes (hshort : tag'.IsShort) {isConstructed : Bool} (hn : n < 2 ^ 32)
    (htake : inp.Takes (tag'.identifier isConstructed :: Der.lengthOctets n) mid) :
    (header? rules tag : Reader ε (Option Header)) inp =
      .ok (if tag' = tag then (some (.ofForm isConstructed n), mid) else (none, inp)) := by
  obtain ⟨after, hfirst, hrest⟩ := htake.split_cons
  have hform : (tag? tag : Reader ε (Option Bool)) inp = _ := tag?_of_takes hshort hfirst
  unfold header?
  by_cases htag : tag' = tag
  · rw [if_pos htag] at hform ⊢
    rw [bind_of_ok hform]
    dsimp only
    rw [bind_of_ok (length_of_takes hn hrest)]
    rfl
  · rw [if_neg htag] at hform ⊢
    rw [bind_of_ok hform]
    rfl

end SignedPrefixes.Ber
