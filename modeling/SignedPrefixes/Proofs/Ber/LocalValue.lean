import SignedPrefixes.Proofs.Ber.Local

/-!
# Local values

A header is local, apart from a tag that is looked for where there are no octets. So is
every kind of value, however its length is given: a content of definite length must be used
up, one of indefinite length must be followed by the end of contents, and a string in parts
ends where the strings that it opens are closed.
-/

namespace SignedPrefixes.Ber

open Reader StateExcept

variable {ε α : Type}

section Headers

variable {rules : Rules} {tag : Tag}

/-- The further octets of a tag are passed over whatever follows them. -/
private theorem skipTag_append {n : ℕ} {inp out : Input} (h : skipTag n inp = .ok out) :
    inp.Advances out ∧ ∀ more, skipTag n (inp.append more) = .ok (out.append more) := by
  induction n generalizing inp with
  | zero => cases h
  | succ n ih =>
    unfold skipTag at h
    cases hnext : inp.next? with
    | none =>
      rw [hnext] at h
      cases h
    | some p =>
      obtain ⟨o, after⟩ := p
      have hfirst := (Input.next?_eq_some_iff.mp hnext).advances
      rw [hnext] at h
      dsimp only at h
      split_ifs at h with hlast
      · cases h
        refine ⟨hfirst, fun more => ?_⟩
        unfold skipTag
        rw [Input.next?_append hnext more]
        exact if_pos hlast
      · obtain ⟨hadvances, hmore⟩ := ih h
        refine ⟨hfirst.trans hadvances, fun more => ?_⟩
        unfold skipTag
        rw [Input.next?_append hnext more]
        exact (if_neg hlast).trans (hmore more)

/-- Where there is an octet, nothing behind the octets of a tag matters. -/
private theorem tag?_append {inp out after : Input} {o : UInt8} {found : Option Bool}
    (hnext : inp.next? = some (o, after))
    (h : (tag? tag : Reader ε (Option Bool)) inp = .ok (found, out)) (more : Octets) :
    (tag? tag : Reader ε (Option Bool)) (inp.append more) = .ok (found, out.append more) := by
  rw [tag?_of_next? hnext] at h
  rw [tag?_of_next? (Input.next?_append hnext more)]
  split_ifs at h ⊢
  · cases hskip : skipTag 3 after with
    | error p =>
      rw [hskip] at h
      cases h
    | ok last =>
      rw [hskip] at h
      cases h
      rw [(skipTag_append hskip).2 more]
  · cases h
    rfl
  · cases h
    rfl

/-- Whether a tag is next depends on nothing but the octets of a tag. -/
theorem localOptional_tag? (tag : Tag) : LocalOptional (tag? tag : Reader ε (Option Bool)) where
  inside := by
    intro inp found out h
    have hadvances : inp.Advances out := by
      cases found with
      | none =>
        obtain rfl := tag?_eq_ok_none h
        exact .refl _
      | some isConstructed => exact (tag?_eq_ok_some h).advances
    refine ⟨hadvances, fun hleft more => ?_⟩
    cases hnext : inp.next? with
    | none =>
      rw [tag?_of_next?_eq_none hnext] at h
      cases h
      exact tag?_of_next?_eq_none (Input.next?_append_of_none hnext hleft more)
    | some p => exact tag?_append hnext h more
  found := by
    intro inp isConstructed out h
    have htakes := tag?_eq_ok_some h
    refine ⟨?_, tag?_append (Input.next?_eq_some_iff.mpr htakes) h⟩
    rw [htakes.position_eq]
    exact Nat.lt_succ_self _

/-- A tag of any kind takes an octet and comes to the same whatever follows it. -/
theorem local_anyTag :
    Local (anyTag : Reader ε AnyTag) ∧ Progresses (anyTag : Reader ε AnyTag) := by
  refine Local.octet?_bind (fails_failHere _) fun o => .ite ?_ (.pure _)
  intro inp tag out h
  rw [bind_of_ok get_apply] at h
  cases hskip : skipTag 3 inp with
  | error p =>
    obtain ⟨fault, place⟩ := p
    rw [hskip] at h
    cases fault <;> cases h
  | ok after =>
    rw [hskip] at h
    cases h
    obtain ⟨hadvances, hmore⟩ := skipTag_append hskip
    refine ⟨hadvances, fun more => ?_⟩
    rw [bind_of_ok get_apply, hmore more]
    rfl

/-- A length of several octets comes to the same whatever follows it. -/
private theorem local_longLength (rules : Rules) (count : ℕ) :
    Local (longLength rules count : Reader ε Length) := by
  intro inp length out h
  unfold longLength at h
  rw [bind_of_ok get_apply] at h
  cases htake : inp.take? count with
  | none =>
    rw [htake] at h
    cases h
  | some p =>
    obtain ⟨os, after⟩ := p
    obtain ⟨htakes, hlength⟩ := Input.take?_eq_some_iff.mp htake
    simp only [htake, bind_of_ok set_apply, branch_apply, bind_of_error (failHere_apply _),
      ite_error_eq_ok_iff, pure_apply] at h
    obtain ⟨hpadded, h⟩ := h
    cases h
    refine ⟨htakes.advances, fun more => ?_⟩
    have htake' := Input.take?_eq_some_iff.mpr ⟨htakes.append_more more, hlength⟩
    unfold longLength
    rw [bind_of_ok get_apply]
    simp only [htake', bind_of_ok set_apply, if_neg hpadded, pure_apply]

/-- A length comes to the same whatever follows it. -/
theorem local_length (rules : Rules) : Local (length rules : Reader ε Length) := by
  refine (Local.octet?_bind (fails_failHere _) fun o => ?_).1
  refine .ite (.pure _) (.ite (.pure _) (.ite (local_longLength rules _) ?_))
  exact (fails_failHere _).local

/-- A header that is found has taken an octet, and comes to the same whatever follows it. -/
theorem localOptional_header? (rules : Rules) (tag : Tag) :
    LocalOptional (header? rules tag : Reader ε (Option Header)) := by
  refine (localOptional_tag? tag).bind_optional rfl fun isConstructed => ?_
  refine (local_length rules).bind fun length => ?_
  cases length with
  | definite n => exact .pure _
  | indefinite => exact .ite (.pure _) (fails_failHere _).local

/-- No header is found where no octets are left. -/
theorem header?_of_exhausted {inp : Input} (h : inp.Exhausted) :
    (header? rules tag : Reader ε (Option Header)) inp = .ok (none, inp) := by
  unfold header?
  rw [bind_of_ok (tag?_of_next?_eq_none (Input.next?_of_exhausted h))]
  rfl

end Headers

section Values

variable {rules : Rules} {tag : Tag} {content : Bool → ℕ → ℕ → Reader ε α}
  {unlimited body : ℕ → Reader ε α}

/-- The content of a value may stop for want of octets only if its length says that there
are more. -/
theorem Reader.LocalOptional.value? (hcontent : ∀ isConstructed start n,
    LocalInside (content isConstructed start n)) (hunlimited : ∀ start, Local (unlimited start)) :
    LocalOptional (value? rules tag content unlimited) := by
  refine (localOptional_header? rules tag).bind_optional rfl fun header => ?_
  refine Local.position.bind fun start => ?_
  cases header with
  | primitive n => exact ((hcontent false start n).within n).map some
  | constructed n => exact ((hcontent true start n).within n).map some
  | indefinite => exact (hunlimited start).map some

/-- No value is found where no octets are left. -/
theorem value?_of_exhausted {inp : Input} (h : inp.Exhausted) :
    value? rules tag content unlimited inp = .ok (none, inp) := by
  unfold value?
  rw [bind_of_ok (header?_of_exhausted h)]
  rfl

/-- A value that must be there needs octets. -/
theorem needsOctets_mandatory_value? :
    NeedsOctets (mandatory (value? rules tag content unlimited)) := by
  intro inp p hexhausted h
  rw [mandatory, bind_of_ok (value?_of_exhausted hexhausted)] at h
  cases h

/-- A content that stops for want of octets is not followed by the end of contents. -/
theorem Reader.LocalInside.untilEnd {r : Reader ε α} (hr : LocalInside r) (rules : Rules) :
    Local (untilEnd rules r) := by
  refine Local.position.bind fun start => hr.bind (fun a => ?_) fun a => ?_
  · refine local_anyTag.1.bind fun last => ?_
    cases last with
    | long isConstructed => exact (fails_fail _ _).local
    | short tag isConstructed =>
      cases isConstructed with
      | true => exact (fails_fail _ _).local
      | false =>
        refine .check ((fails_fail _ _).bind _) ((local_length rules).bind fun length => ?_)
        exact .check ((fails_fail _ _).bind _) (.pure a)
  · refine NeedsOctets.bind ?_ _
    intro inp p hexhausted h
    have hnone : (octet? : Reader ε (Option UInt8)) inp = .ok (none, inp) := by
      unfold octet?
      rw [bind_of_ok get_apply, Input.next?_of_exhausted hexhausted]
      rfl
    rw [anyTag, bind_of_ok hnone] at h
    cases h

/-- A constructed value comes to the same whatever follows it, if its content does inside of it. -/
theorem Reader.LocalOptional.constructed? (tag : Tag) (hbody : ∀ start, LocalInside (body start)) :
    LocalOptional (constructed? rules tag body) := by
  rw [constructed?_eq_value?]
  refine .value? (fun isConstructed start _ => ?_) fun start => (hbody start).untilEnd rules
  cases isConstructed with
  | false => exact (fails_fail _ _).local.inside
  | true => exact hbody start

/-- A sequence that must be there comes to the same whatever follows it. -/
theorem Reader.Local.sequence (hbody : ∀ start, LocalInside (body start)) :
    Local (sequence rules body) :=
  (LocalOptional.constructed? Tag.sequence hbody).mandatory

end Values

section Primitives

variable {rules : Rules}

/-- A number comes to the same whatever follows it. -/
theorem local_unsigned32 (rules : Rules) (refusal : ε) : Local (unsigned32 rules refusal) := by
  rw [unsigned32_eq_value?]
  refine LocalOptional.mandatory (.value? (fun isConstructed _ n => Local.inside ?_) fun _ => ?_)
  · cases isConstructed with
    | true => exact (fails_fail _ _).local
    | false =>
      refine .octets?_bind n (fails_refuse _ _) fun os => ?_
      rw [Option.bind_some]
      cases unsigned32? os with
      | none => exact (fails_refuse _ _).local
      | some number => exact .pure number
  · exact (fails_fail _ _).local

/-- A number is missed where no octets are left. -/
theorem needsOctets_unsigned32 (rules : Rules) (refusal : ε) :
    NeedsOctets (unsigned32 rules refusal) := by
  rw [unsigned32_eq_value?]
  exact needsOctets_mandatory_value?

/-- A bit string comes to the same whatever follows it. -/
theorem localOptional_bitString? (rules : Rules) :
    LocalOptional (bitString? rules : Reader ε (Option BitString)) := by
  have hparts (start : ℕ) : Local (bitStringParts rules start : Reader ε BitString) := by
    cases rules <;> exact (fails_fail _ _).local
  rw [bitString?_eq_value?]
  refine .value? (fun isConstructed start n => Local.inside ?_) hparts
  cases isConstructed with
  | true => exact hparts start
  | false =>
    refine (Local.octet?_bind (fails_failHere _) fun unused => ?_).1
    refine .check ((fails_fail _ _).bind _) ?_
    refine .octets?_bind _ (fails_failHere _) fun os => ?_
    dsimp only
    cases BitString.new? os unused.toNat with
    | none => exact (fails_fail _ _).local
    | some s => exact .check (fails_fail _ _) (.pure s)

end Primitives

section OctetStrings

/-- Nested strings end the same way whatever follows them. -/
private theorem local_closeStrings (start : ℕ) (strings : List OpenString) :
    Local (closeStrings start strings : Reader ε (List OpenString)) := by
  induction strings with
  | nil => exact .pure []
  | cons s strings ih =>
    refine .get_bind (fun _ _ => rfl) fun inp => .ite (.pure _) ?_
    cases s with
    | definite outer => exact (Local.setLimit outer).bind fun _ => ih
    | indefinite => exact (fails_fail _ _).local

/-- Each part of a string has a tag and comes to the same whatever follows it. -/
private theorem local_stringPart (isIndefinite : Bool) (start : ℕ) (strings : List OpenString) :
    Local (stringPart isIndefinite start strings : Reader ε Part) ∧
      Progresses (stringPart isIndefinite start strings : Reader ε Part) := by
  have hclose (strings : List OpenString) (os : Octets) : Local (do
      return .octets os (← closeStrings start strings) : Reader ε Part) :=
    (local_closeStrings start strings).bind fun _ => .pure _
  refine Local.bind_progresses local_anyTag fun tag => (local_length .ber).bind fun length => ?_
  rcases tag with ⟨tag, isConstructed⟩ | isConstructed <;> cases isConstructed
  · refine .ite (.check ((fails_fail _ _).bind _) ?_) ?_
    · rcases strings with _ | ⟨outer | _, strings⟩
      · exact .ite (.pure _) (fails_fail _ _).local
      · exact (fails_fail _ _).local
      · exact hclose strings []
    · cases length with
      | indefinite => exact (fails_fail _ _).local
      | definite n =>
        refine .check ((fails_fail _ _).bind _) ?_
        exact .octets?_bind n (fails_fail _ _) fun os => hclose strings os
  · cases length with
    | indefinite => exact .check ((fails_fail _ _).bind _) (.pure _)
    | definite n =>
      refine .check ((fails_fail _ _).bind _) ?_
      refine .get_bind (fun _ _ => rfl) fun inp => ?_
      refine .check ((fails_fail _ _).bind _) ?_
      exact (Local.setLimit _).bind fun _ => hclose _ []
  · cases length <;> exact (fails_fail _ _).local
  · exact (fails_fail _ _).local

/-- The step that gathers the parts of a string comes to the same whatever follows. -/
private theorem local_gatherPart? (isIndefinite : Bool) (start : ℕ) (g : Gathered) :
    Local (gatherPart? isIndefinite start g : Reader ε (Option Gathered)) := by
  refine .ite (.pure _) (.get_bind (fun _ _ => rfl) fun inp => .ite (.pure _) ?_)
  refine (local_stringPart isIndefinite start g.strings).1.bind fun part => ?_
  cases part <;> exact .pure _

/-- Each part of a string has a tag, so the loop over the parts ends with the string. -/
theorem shrinks_gatherPart? (isIndefinite : Bool) (start : ℕ) :
    Shrinks (gatherPart? isIndefinite start : Gathered → Reader ε (Option Gathered)) := by
  intro g inp g' out h
  obtain ⟨hadvances, -⟩ := local_gatherPart? isIndefinite start g h
  have hahead := hadvances.position_add_length
  have hposition : inp.position < out.position := by
    unfold gatherPart? at h
    simp only [branch_apply, pure_apply, bind_of_ok get_apply] at h
    split_ifs at h
    · cases h
    · cases h
    · obtain ⟨part, mid, hpart, h⟩ := bind_eq_ok_iff.mp h
      have hprogress := (local_stringPart isIndefinite start g.strings).2 hpart
      cases part <;> cases h <;> exact hprogress
  omega

/-- The parts of a string come to the same whatever follows them. -/
theorem local_stringParts (rules : Rules) (isIndefinite : Bool) (start : ℕ) :
    Local (stringParts rules isIndefinite start : Reader ε Octets) := by
  refine .check ((fails_fail _ _).bind _) ?_
  refine Local.bind ?_ fun g => .pure _
  exact .iterate (local_gatherPart? isIndefinite start) (shrinks_gatherPart? isIndefinite start) _

/-- An octet string comes to the same whatever follows it, in one part or in several. -/
theorem local_octetString (rules : Rules) (enclosing : ℕ) :
    Local (octetString rules enclosing : Reader ε Octets) := by
  have hread : LocalOptional (octetString? rules : Reader ε (Option Octets)) := by
    rw [octetString?_eq_value?]
    refine .value? (fun isConstructed start n => Local.inside ?_) (local_stringParts rules true)
    cases isConstructed with
    | true => exact local_stringParts rules false start
    | false => exact .octets?_bind n (fails_failHere _) fun os => .pure os
  exact hread.bind (fails_fail _ _) fun os => .pure os

end OctetStrings

end SignedPrefixes.Ber
