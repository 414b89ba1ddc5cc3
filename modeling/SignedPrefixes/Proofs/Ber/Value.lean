import SignedPrefixes.Ber.OctetString
import SignedPrefixes.Proofs.Ber.Header

/-!
# Values

All values are read alike: a header comes first, and the routine for the content
depends on how the content is made up. What is known of that routine therefore
says what is known of the value. Under DER a value takes exactly what is written
for the octets of its content.
-/

namespace SignedPrefixes.Ber

open Reader StateExcept

variable {ε α : Type} {inp out : Input} {rules : Rules} {tag : Tag} {os : Octets}

/-- Reads a value with the given tag, if that comes next. There is a routine for each
way in which the content may be made up. -/
def value? (rules : Rules) (tag : Tag)
    (content : (isConstructed : Bool) → (start n : ℕ) → Reader ε α)
    (unlimited : (start : ℕ) → Reader ε α) : Reader ε (Option α) := do
  match ← header? rules tag with
  | none => return none
  | some header =>
    let start ← position
    match header with
    | .primitive n => some <$> within n (content false start n)
    | .constructed n => some <$> within n (content true start n)
    | .indefinite => some <$> unlimited start

/-- A value is taken by taking its header and then its content. -/
theorem Input.Takes.split_primitive {identifier : UInt8}
    (htake : inp.Takes (Der.primitive identifier os) out) :
    ∃ mid, inp.Takes (identifier :: Der.lengthOctets os.length) mid ∧ mid.Takes os out := by
  rw [Der.primitive, ← List.cons_append] at htake
  exact htake.split

section Value

variable {content : Bool → ℕ → ℕ → Reader ε α} {unlimited : ℕ → Reader ε α}

/-- A value that is not there takes nothing. -/
theorem value?_eq_ok_none (h : value? rules tag content unlimited inp = .ok (none, out)) :
    out = inp := by
  unfold value? at h
  obtain ⟨header?, mid, hheader, h⟩ := bind_eq_ok_iff.mp h
  cases header? with
  | none =>
    cases h
    exact header?_eq_ok_none hheader
  | some header =>
    dsimp only at h
    rw [bind_of_ok position_apply] at h
    cases header <;>
    · obtain ⟨a, -, ha⟩ := map_eq_ok_iff.mp h
      cases ha

/-- A value of definite length has been read from its content, and in DER from its encoding. -/
private theorem definite_eq_ok {isConstructed : Bool} {header : Header} {start n : ℕ} {mid : Input}
    {a : α}
    (hheader : (header? rules tag : Reader ε (Option Header)) inp = .ok (some header, mid))
    (hform : header = .ofForm isConstructed n)
    (h : (some <$> within n (content isConstructed start n)) mid = .ok (some a, out)) :
    ∃ start n inner inner', content isConstructed start n inner = .ok (a, inner') ∧
      (rules = .der → ∀ os, inner.Takes os inner' →
        os.length = n ∧ inp.Takes (Der.primitive (tag.identifier isConstructed) os) out) := by
  obtain ⟨a', hwithin, ha⟩ := map_eq_ok_iff.mp h
  cases ha
  obtain ⟨inner, hread, hend, hfits, rfl⟩ := within_eq_ok hwithin
  refine ⟨start, n, _, inner, hread, ?_⟩
  rintro rfl os htakes
  obtain ⟨isConstructed', n', hform', htake⟩ := header?_eq_ok_der hheader
  obtain ⟨rfl, htake'⟩ := htakes.of_within hend hfits
  obtain ⟨rfl, rfl⟩ : isConstructed' = isConstructed ∧ n' = os.length := by
    rw [hform] at hform'
    cases isConstructed <;> cases isConstructed' <;> cases hform' <;> exact ⟨rfl, rfl⟩
  exact ⟨rfl, htake.append htake'⟩

/-- The content of a value that is read has been read by its routine. In DER the value
takes what is written for the octets that the routine took. -/
theorem value?_eq_ok_some {a : α}
    (h : value? rules tag content unlimited inp = .ok (some a, out)) :
    (∃ isConstructed start n inner inner',
      content isConstructed start n inner = .ok (a, inner') ∧
      (rules = .der → ∀ os, inner.Takes os inner' →
        os.length = n ∧ inp.Takes (Der.primitive (tag.identifier isConstructed) os) out)) ∨
    (rules ≠ .der ∧ ∃ start inner inner', unlimited start inner = .ok (a, inner')) := by
  unfold value? at h
  obtain ⟨header?, mid, hheader, h⟩ := bind_eq_ok_iff.mp h
  cases header? with
  | none => cases h
  | some header =>
    dsimp only at h
    rw [bind_of_ok position_apply] at h
    cases header with
    | primitive n => exact Or.inl ⟨false, definite_eq_ok hheader rfl h⟩
    | constructed n => exact Or.inl ⟨true, definite_eq_ok hheader rfl h⟩
    | indefinite =>
      obtain ⟨a', hread, ha⟩ := map_eq_ok_iff.mp h
      cases ha
      refine Or.inr ⟨?_, _, _, _, hread⟩
      rintro rfl
      obtain ⟨isConstructed, n, hform, -⟩ := header?_eq_ok_der hheader
      cases isConstructed <;> cases hform

/-- There is no value at the end of the value around it. -/
theorem value?_of_limit (hlimit : inp.limit = some 0) :
    value? rules tag content unlimited inp = .ok (none, inp) := by
  unfold value?
  rw [bind_of_ok (header?_of_limit hlimit)]
  rfl

/-- A value with another tag stays where it is. -/
theorem value?_of_other (tag' : Tag) (isConstructed : Bool) (hshort : tag'.IsShort)
    (hne : tag' ≠ tag) (hlength : os.length < 2 ^ 32)
    (htake : inp.Takes (Der.primitive (tag'.identifier isConstructed) os) out) :
    value? rules tag content unlimited inp = .ok (none, inp) := by
  obtain ⟨mid, hfirst, -⟩ := htake.split_primitive
  have hheader : (header? rules tag : Reader ε (Option Header)) inp = _ :=
    header?_of_takes hshort hlength hfirst
  rw [if_neg hne] at hheader
  unfold value?
  rw [bind_of_ok hheader]
  rfl

/-- What a routine for content comes to on octets that it reads to their end. -/
def ReadsAll (reader : Reader ε α) (os : Octets) (result : Except (Cause ε) α) : Prop :=
  ∀ inp out, inp.Takes os out → out.limit = some 0 →
    outcome (reader inp) = result.map fun a => (a, out)

/-- A value that is written comes to what its content comes to. -/
theorem outcome_value? (isConstructed : Bool) {result : Except (Cause ε) α}
    (hshort : tag.IsShort) (hlength : os.length < 2 ^ 32)
    (htake : inp.Takes (Der.primitive (tag.identifier isConstructed) os) out)
    (hcontent : ∀ start, ReadsAll (content isConstructed start os.length) os result) :
    outcome (value? rules tag content unlimited inp) = result.map fun a => (some a, out) := by
  obtain ⟨mid, hfirst, hrest⟩ := htake.split_primitive
  have hheader : (header? rules tag : Reader ε (Option Header)) inp = _ :=
    header?_of_takes hshort hlength hfirst
  rw [if_pos rfl] at hheader
  have hwithin := outcome_within hrest (hcontent mid.position _ _ hrest.within rfl)
  have hform : value? rules tag content unlimited inp =
      (some <$> within os.length (content isConstructed mid.position os.length)) mid := by
    unfold value?
    rw [bind_of_ok hheader]
    dsimp only
    rw [bind_of_ok position_apply]
    cases isConstructed <;> rfl
  rw [hform, outcome_map, hwithin]
  cases result <;> rfl

end Value

/-- A value that must be there has been there. -/
theorem mandatory_eq_ok {reader : Reader ε (Option α)} {a : α}
    (h : mandatory reader inp = .ok (a, out)) : reader inp = .ok (some a, out) := by
  unfold mandatory at h
  obtain ⟨a?, mid, hread, h⟩ := bind_eq_ok_iff.mp h
  cases a? with
  | none => cases h
  | some a' =>
    cases h
    exact hread

/-- A value that must be there comes to what it comes to when it is there. -/
theorem outcome_mandatory {reader : Reader ε (Option α)} {result : Except (Cause ε) α}
    (hread : outcome (reader inp) = result.map fun a => (some a, out)) :
    outcome (mandatory reader inp) = result.map fun a => (a, out) := by
  unfold mandatory
  rw [except_map_eq_bind]
  apply outcome_bind hread
  intro a _
  rfl

section Constructed

variable {body : ℕ → Reader ε α}

/-- A constructed value is a value whose primitive form is refused. -/
theorem constructed?_eq_value? :
    constructed? rules tag body =
      value? rules tag
        (fun isConstructed start _ =>
          if isConstructed then body start else fail .expectedConstructed start)
        (fun start => untilEnd rules (body start)) := rfl

/-- A constructed value that is not there takes nothing. -/
theorem constructed?_eq_ok_none (h : constructed? rules tag body inp = .ok (none, out)) :
    out = inp := by
  rw [constructed?_eq_value?] at h
  exact value?_eq_ok_none h

/-- There is no constructed value at the end of the value around it. -/
theorem constructed?_of_limit (hlimit : inp.limit = some 0) :
    constructed? rules tag body inp = .ok (none, inp) := by
  rw [constructed?_eq_value?]
  exact value?_of_limit hlimit

/-- A value with another tag is left alone. -/
theorem constructed?_of_other (tag' : Tag) (isConstructed : Bool) (hshort : tag'.IsShort)
    (hne : tag' ≠ tag) (hlength : os.length < 2 ^ 32)
    (htake : inp.Takes (Der.primitive (tag'.identifier isConstructed) os) out) :
    constructed? rules tag body inp = .ok (none, inp) := by
  rw [constructed?_eq_value?]
  exact value?_of_other tag' isConstructed hshort hne hlength htake

/-- A value of indefinite length has been read from its content. -/
private theorem untilEnd_eq_ok {body : Reader ε α} {a : α}
    (h : untilEnd rules body inp = .ok (a, out)) : ∃ inner, body inp = .ok (a, inner) := by
  unfold untilEnd at h
  rw [bind_of_ok position_apply] at h
  obtain ⟨a', inner, hbody, h⟩ := bind_eq_ok_iff.mp h
  obtain ⟨last, after, -, h⟩ := bind_eq_ok_iff.mp h
  refine ⟨inner, ?_⟩
  cases last with
  | long isConstructed => cases h
  | short tag isConstructed =>
    cases isConstructed with
    | true => cases h
    | false =>
      simp only [branch_apply, bind_of_error (fail_apply _ _), ite_error_eq_ok_iff] at h
      obtain ⟨-, h⟩ := h
      obtain ⟨length, after', -, h⟩ := bind_eq_ok_iff.mp h
      simp only [branch_apply, bind_of_error (fail_apply _ _), ite_error_eq_ok_iff] at h
      obtain ⟨-, h⟩ := h
      cases h
      exact hbody

/-- The content of a constructed value has been read by its routine, whichever way the
value is delimited. -/
theorem constructed?_eq_ok_some {a : α} (h : constructed? rules tag body inp = .ok (some a, out)) :
    ∃ start inner inner', body start inner = .ok (a, inner') ∧
      (rules = .der → ∀ os, inner.Takes os inner' → inp.Takes (Der.constructed tag os) out) := by
  rw [constructed?_eq_value?] at h
  rcases value?_eq_ok_some h with
    ⟨isConstructed, start, n, inner, inner', hread, htakes⟩ | ⟨hber, start, inner, inner', hread⟩
  · cases isConstructed with
    | false => cases hread
    | true => exact ⟨start, inner, inner', hread, fun hder os htake => (htakes hder os htake).2⟩
  · -- Only BER has an end of contents, and what comes after the content does not matter here.
    obtain ⟨inner'', hbody⟩ := untilEnd_eq_ok hread
    exact ⟨start, inner, inner'', hbody, fun hder => absurd hder hber⟩

/-- A constructed value comes to what its content comes to. -/
theorem outcome_constructed? {result : Except (Cause ε) α} (hshort : tag.IsShort)
    (hlength : os.length < 2 ^ 32) (htake : inp.Takes (Der.constructed tag os) out)
    (hbody : ∀ start, ReadsAll (body start) os result) :
    outcome (constructed? rules tag body inp) = result.map fun a => (some a, out) := by
  rw [constructed?_eq_value?]
  exact outcome_value? true hshort hlength htake hbody

/-- A sequence has been read from its content, and in DER from its encoding. -/
theorem sequence_eq_ok {a : α} (h : sequence rules body inp = .ok (a, out)) :
    ∃ start inner inner', body start inner = .ok (a, inner') ∧
      (rules = .der → ∀ os, inner.Takes os inner' → inp.Takes (Der.sequence os) out) :=
  constructed?_eq_ok_some (mandatory_eq_ok h)

/-- A sequence comes to what its content comes to. -/
theorem outcome_sequence {result : Except (Cause ε) α} (hlength : os.length < 2 ^ 32)
    (htake : inp.Takes (Der.sequence os) out) (hbody : ∀ start, ReadsAll (body start) os result) :
    outcome (sequence rules body inp) = result.map fun a => (a, out) :=
  outcome_mandatory (outcome_constructed? (by decide) hlength htake hbody)

end Constructed

end SignedPrefixes.Ber
