import SignedPrefixes.Proofs.Ber.Input
import SignedPrefixes.Proofs.StateExcept

/-!
# Readers applied to an input

A reader that is done has taken the steps it is made of, each from the input that
the one before it left. A loop keeps what every step of it keeps, and it goes on
until a step finds nothing if the others take octets. The other way round, what a
reader comes to is found step by step. Positions of failures do not matter there, so
only the causes of failures are compared.
-/

namespace SignedPrefixes.Ber

variable {ε α β γ σ : Type}

/-- What a reader comes to, with the cause of a failure only. -/
def outcome (result : Except (Failure ε) α) : Except (Cause ε) α := result.mapError Failure.cause

@[simp] theorem outcome_ok (a : α) : outcome (.ok a : Except (Failure ε) α) = .ok a := rfl

@[simp] theorem outcome_error (failure : Failure ε) :
    outcome (.error failure : Except (Failure ε) α) = .error failure.cause := rfl

/-- A reader fails for the reason it should fail for, or comes to what it should come to. -/
theorem outcome_eq_map {result : Except (Failure ε) β} {expected : Except (Cause ε) γ} {f : γ → β}
    (h : outcome result = expected.map f) :
    (∃ failure, result = .error failure ∧ expected = .error failure.cause) ∨
      ∃ c, result = .ok (f c) ∧ expected = .ok c := by
  cases result with
  | error failure =>
    cases expected with
    | error cause => exact Or.inl ⟨failure, rfl, congrArg Except.error (Except.error.inj h).symm⟩
    | ok c => cases h
  | ok b =>
    cases expected with
    | error cause => cases h
    | ok c => exact Or.inr ⟨c, congrArg Except.ok (Except.ok.inj h), rfl⟩

/-- Only failures lose something in the outcome. -/
theorem outcome_eq_ok_iff {result : Except (Failure ε) α} {a : α} :
    outcome result = .ok a ↔ result = .ok a := by
  cases result <;> simp

namespace Reader

open StateExcept

variable {inp mid out : Input}

@[simp] theorem position_apply : (position : Reader ε ℕ) inp = .ok (inp.position, inp) := rfl

@[simp] theorem fail_apply (fault : Fault) (place : ℕ) :
    (fail fault place : Reader ε α) inp = .error ⟨.encoding fault, place⟩ := rfl

@[simp] theorem refuse_apply (refusal : ε) (place : ℕ) :
    (refuse refusal place : Reader ε α) inp = .error ⟨.content refusal, place⟩ := rfl

@[simp] theorem failHere_apply (fault : Fault) :
    (failHere fault : Reader ε α) inp = .error ⟨.encoding fault, inp.position⟩ := rfl

/-- A function is applied to the outcome of a reader. -/
theorem outcome_map (r : Reader ε α) (f : α → β) :
    outcome ((f <$> r) inp) = (outcome (r inp)).map fun p => (f p.1, p.2) := by
  cases hr : r inp with
  | error failure => rw [map_of_error hr, outcome_error, outcome_error, Except.map]
  | ok p => rw [map_of_ok hr, outcome_ok, outcome_ok, Except.map]

/-- Steps that are taken one after the other come to what their results come to. -/
theorem outcome_bind {r : Reader ε α} {f : α → Reader ε β} {result : Except (Cause ε) γ}
    {step : γ → α × Input} {result' : γ → Except (Cause ε) (β × Input)}
    (hr : outcome (r inp) = result.map step)
    (hf : ∀ c, result = .ok c → outcome (f (step c).1 (step c).2) = result' c) :
    outcome ((r >>= f) inp) = result >>= result' := by
  obtain ⟨failure, hread, hresult⟩ | ⟨c, hread, hresult⟩ := outcome_eq_map hr
  · rw [bind_of_error hread, hresult]
    rfl
  · have hnext := hf c hresult
    rw [hresult]
    exact (congrArg outcome (bind_of_ok hread f)).trans hnext

/-- An octet is found if it can be taken. -/
theorem octet?_eq_ok_some_iff {o : UInt8} :
    (octet? : Reader ε (Option UInt8)) inp = .ok (some o, out) ↔ inp.Takes [o] out := by
  rw [← Input.next?_eq_some_iff]
  unfold octet?
  rw [bind_of_ok get_apply]
  cases hnext : inp.next? with
  | none => simp
  | some p =>
    obtain ⟨o', after⟩ := p
    simp [bind_of_ok set_apply]

/-- Octets are found if they can be taken, as many as are asked for. -/
theorem octets?_eq_ok_some_iff {n : ℕ} {os : Octets} :
    (octets? n : Reader ε (Option Octets)) inp = .ok (some os, out) ↔
      inp.Takes os out ∧ os.length = n := by
  rw [← Input.take?_eq_some_iff]
  unfold octets?
  rw [bind_of_ok get_apply]
  cases htake : inp.take? n with
  | none => simp
  | some p =>
    obtain ⟨os', after⟩ := p
    simp [bind_of_ok set_apply]

/-- A content that has been read has the length it was said to have, and the limit
around it is kept. -/
theorem within_eq_ok {n : ℕ} {body : Reader ε α} {a : α} (h : within n body inp = .ok (a, out)) :
    ∃ inner, body { inp with limit := some n } = .ok (a, inner) ∧ inner.limit = some 0 ∧
      (∀ l ∈ inp.limit, n ≤ l) ∧ out = { inner with limit := inp.limit.map (· - n) } := by
  unfold within at h
  simp only [bind_of_ok get_apply, branch_apply, bind_of_error (failHere_apply _),
    ite_error_eq_ok_iff, bind_of_ok (modify_apply _)] at h
  obtain ⟨hfits, h⟩ := h
  obtain ⟨a', inner, hbody, h⟩ := bind_eq_ok_iff.mp h
  simp only [bind_of_ok get_apply, branch_apply, bind_of_error (failHere_apply _),
    ite_error_eq_ok_iff, bind_of_ok (modify_apply _), pure_apply] at h
  obtain ⟨hend, h⟩ := h
  cases h
  refine ⟨inner, hbody, not_not.mp hend, ?_, rfl⟩
  intro l hl
  rw [Option.mem_def.mp hl] at hfits
  simpa using hfits

/-- A content that is read to its end comes to what its reader comes to. -/
theorem outcome_within {body : Reader ε α} {os : Octets} {result : Except (Cause ε) α}
    (htake : inp.Takes os out)
    (hbody : outcome (body { inp with limit := some os.length }) =
      result.map fun a => (a, { out with limit := some 0 })) :
    outcome (within os.length body inp) = result.map fun a => (a, out) := by
  have hfits : ¬inp.limit.any (· < os.length) = true := by
    cases hlimit : inp.limit with
    | none => simp
    | some n =>
      have hle := htake.length_le n hlimit
      simpa using hle
  unfold within
  simp only [bind_of_ok get_apply, branch_apply, if_neg hfits, bind_of_ok (modify_apply _)]
  rw [except_map_eq_bind]
  apply outcome_bind hbody
  intro a _
  simp only [bind_of_ok get_apply, branch_apply, ne_eq, not_true_eq_false, if_false,
    bind_of_ok (modify_apply _), pure_apply, ← htake.limit_eq]
  rfl

section Iterate

variable {step : σ → Reader ε (Option σ)} {s s' : σ}

/-- A loop has fuel for one step more than there are octets ahead. -/
theorem iterate_apply (step : σ → Reader ε (Option σ)) (s : σ) (inp : Input) :
    iterate step s inp = iterateWith step (inp.rest.length + 1) s inp := rfl

/-- Every step that finds something leaves fewer octets ahead. -/
def Shrinks (step : σ → Reader ε (Option σ)) : Prop :=
  ∀ ⦃s inp s' out⦄, step s inp = .ok (some s', out) → out.rest.length < inp.rest.length

/-- Fuel above the number of octets ahead is as good as any other fuel above it. -/
theorem iterateWith_eq_of_lt (hstep : Shrinks step) {fuel fuel' : ℕ}
    (hfuel : inp.rest.length < fuel) (hfuel' : inp.rest.length < fuel') :
    iterateWith step fuel s inp = iterateWith step fuel' s inp := by
  induction fuel generalizing fuel' s inp with
  | zero => exact absurd hfuel (Nat.not_lt_zero _)
  | succ fuel ih =>
    obtain ⟨fuel', rfl⟩ := Nat.exists_eq_add_one.mpr (Nat.zero_lt_of_lt hfuel')
    unfold iterateWith
    cases hread : step s inp with
    | error failure => rfl
    | ok p =>
      obtain ⟨s?, mid⟩ := p
      cases s? with
      | none => rfl
      | some s' =>
        have hahead := hstep hread
        exact ih (by omega) (by omega)

/-- A loop is its step, and the loop again if the step has found something. No fuel is left in
this equation: it does not run out as long as each step that finds something takes octets. -/
theorem iterate_eq (hstep : Shrinks step) (s : σ) (inp : Input) :
    iterate step s inp =
      match step s inp with
      | .error failure => .error failure
      | .ok (none, out) => .ok (s, out)
      | .ok (some s', mid) => iterate step s' mid := by
  rw [iterate_apply]
  unfold iterateWith
  cases hread : step s inp with
  | error failure => rfl
  | ok p =>
    obtain ⟨s?, mid⟩ := p
    cases s? with
    | none => rfl
    | some s' =>
      have hahead := hstep hread
      exact iterateWith_eq_of_lt hstep (by omega) (Nat.lt_succ_self _)

/-- The steps of a loop, of which the last one finds nothing. -/
inductive Runs (step : σ → Reader ε (Option σ)) : σ → Input → σ → Input → Prop where
  /-- Nothing is found any more. -/
  | done {s : σ} {inp out : Input} (hread : step s inp = .ok (none, out)) : Runs step s inp s out
  /-- Something is found, and the loop goes on from there. -/
  | next {s s' last : σ} {inp mid out : Input} (hread : step s inp = .ok (some s', mid))
    (hrest : Runs step s' mid last out) : Runs step s inp last out

/-- A loop is done exactly where its steps lead, the last of which has found nothing. -/
theorem iterate_eq_ok_iff (hstep : Shrinks step) :
    iterate step s inp = .ok (s', out) ↔ Runs step s inp s' out := by
  constructor
  · intro h
    induction hahead : inp.rest.length using Nat.strong_induction_on generalizing s inp with
    | h n ih =>
      subst hahead
      rw [iterate_eq hstep] at h
      split at h
      · cases h
      · next hread =>
        cases h
        exact .done hread
      · next hread => exact .next hread (ih _ (hstep hread) h rfl)
  · intro h
    induction h with
    | done hread => rw [iterate_eq hstep, hread]
    | next hread _ ih =>
      rw [iterate_eq hstep, hread]
      exact ih

/-- What every step keeps is kept with any fuel. -/
theorem iterateWith_induction {P : σ → Input → Prop} {fuel : ℕ}
    (hstep : ∀ s inp s' out, P s inp → step s inp = .ok (some s', out) → P s' out)
    (hend : ∀ s inp out, P s inp → step s inp = .ok (none, out) → P s out)
    (hstart : P s inp) (h : iterateWith step fuel s inp = .ok (s', out)) : P s' out := by
  induction fuel generalizing s inp with
  | zero =>
    -- The loop also stops when the fuel is used up, and keeps the invariant then.
    cases h
    exact hstart
  | succ fuel ih =>
    unfold iterateWith at h
    split at h
    · cases h
    · rename_i after hnone
      cases h
      exact hend _ _ _ hstart hnone
    · rename_i s'' after hsome
      exact ih (hstep _ _ _ _ hstart hsome) h

/-- What every step of a loop keeps is true when the loop is done. -/
theorem iterate_induction {P : σ → Input → Prop}
    (hstep : ∀ s inp s' out, P s inp → step s inp = .ok (some s', out) → P s' out)
    (hend : ∀ s inp out, P s inp → step s inp = .ok (none, out) → P s out)
    (hstart : P s inp) (h : iterate step s inp = .ok (s', out)) : P s' out := by
  rw [iterate_apply] at h
  exact iterateWith_induction hstep hend hstart h

variable {encode : β → Octets} {check : σ → β → Except (Cause ε) σ} {xs : List β}

/-- A loop comes to what folding comes to if it has fuel for every value and for the end. -/
private theorem outcome_iterateWith {fuel : ℕ}
    (hstep : ∀ x ∈ xs, ∀ s inp out, inp.Takes (encode x) out →
      outcome (step s inp) = (check s x).map fun s' => (some s', out))
    (hend : ∀ s inp, inp.limit = some 0 → step s inp = .ok (none, inp))
    (htake : inp.Takes (xs.flatMap encode) out) (hout : out.limit = some 0)
    (hfuel : xs.length < fuel) :
    outcome (iterateWith step fuel s inp) = (xs.foldlM check s).map fun s' => (s', out) := by
  induction fuel generalizing s inp xs with
  | zero => exact absurd hfuel (Nat.not_lt_zero _)
  | succ fuel ih =>
    cases xs with
    | nil =>
      obtain rfl := htake.eq_of_nil
      unfold iterateWith
      rw [hend s _ hout]
      rfl
    | cons x xs =>
      rw [List.flatMap_cons] at htake
      obtain ⟨mid, hfirst, hrest⟩ := htake.split
      have hx := hstep x List.mem_cons_self s inp mid hfirst
      have hxs := fun s => ih (s := s) (fun y hy => hstep y (List.mem_cons_of_mem x hy)) hrest
        (Nat.lt_of_succ_lt_succ hfuel)
      rw [List.foldlM_cons]
      unfold iterateWith
      obtain ⟨failure, hresult, hcheck⟩ | ⟨s', hresult, hcheck⟩ := outcome_eq_map hx
      · rw [hresult, hcheck]
        rfl
      · rw [hresult, hcheck]
        exact hxs s'

/-- A loop over encodings that stand one after the other, up to the end of the value
around them, comes to what folding over the encoded values comes to. -/
theorem outcome_iterate (hpos : ∀ x ∈ xs, encode x ≠ [])
    (hstep : ∀ x ∈ xs, ∀ s inp out, inp.Takes (encode x) out →
      outcome (step s inp) = (check s x).map fun s' => (some s', out))
    (hend : ∀ s inp, inp.limit = some 0 → step s inp = .ok (none, inp))
    (htake : inp.Takes (xs.flatMap encode) out) (hout : out.limit = some 0) :
    outcome (iterate step s inp) = (xs.foldlM check s).map fun s' => (s', out) := by
  -- No encoding is empty, so there is fuel for every value.
  have hlength : xs.length ≤ (xs.flatMap encode).length := by
    clear hstep htake
    induction xs with
    | nil => simp
    | cons x xs ih =>
      have hx := List.length_pos_iff.mpr (hpos x List.mem_cons_self)
      have hxs := ih fun y hy => hpos y (List.mem_cons_of_mem x hy)
      rw [List.flatMap_cons, List.length_append, List.length_cons]
      omega
  have hrest : (xs.flatMap encode).length ≤ inp.rest.length := by
    rw [htake.rest_eq, List.length_append]
    exact Nat.le_add_right _ _
  rw [iterate_apply]
  exact outcome_iterateWith hstep hend htake hout (by omega)

end Iterate

end Reader

end SignedPrefixes.Ber
