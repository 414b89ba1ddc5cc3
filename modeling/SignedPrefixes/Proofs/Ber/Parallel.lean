import SignedPrefixes.Proofs.Ber.Primitive

/-!
# Readers that go the same way

Two readers go the same way if they take the same octets of every input and find what
corresponds, or fail at the same place, where broken encodings are the same and refusals
correspond. What is read by them is made up alike from parts that go the same way. Readers that
know nothing of refusals go the same way as themselves, whatever the refusals are.
-/

namespace SignedPrefixes.Ber

open Reader StateExcept

variable {ε ε' α α' β β' σ σ' : Type} {E : ε → ε' → Prop}

/-- Failures that correspond. -/
inductive Failure.Alike (E : ε → ε' → Prop) : Failure ε → Failure ε' → Prop
  | encoding (fault : Fault) (place : ℕ) : Alike E ⟨.encoding fault, place⟩ ⟨.encoding fault, place⟩
  | content {e : ε} {e' : ε'} (h : E e e') (place : ℕ) :
      Alike E ⟨.content e, place⟩ ⟨.content e', place⟩

/-- Results that correspond. -/
inductive Alike (E : ε → ε' → Prop) (R : α → α' → Prop) :
    Except (Failure ε) (α × Input) → Except (Failure ε') (α' × Input) → Prop
  | ok {a : α} {a' : α'} (h : R a a') (out : Input) : Alike E R (.ok (a, out)) (.ok (a', out))
  | error {failure : Failure ε} {failure' : Failure ε'} (h : failure.Alike E failure') :
      Alike E R (.error failure) (.error failure')

namespace Reader

/-- Readers that come to corresponding results on every input. -/
def Parallel (E : ε → ε' → Prop) (R : α → α' → Prop) (r : Reader ε α) (r' : Reader ε' α') : Prop :=
  ∀ inp, Alike E R (r inp) (r' inp)

section Laws

variable {R : α → α' → Prop} {S : β → β' → Prop} {r : Reader ε α} {r' : Reader ε' α'}
  {f : α → Reader ε β} {f' : α' → Reader ε' β'}

/-- Nothing is taken for values that correspond. -/
theorem Parallel.pure {a : α} {a' : α'} (h : R a a') :
    Parallel E R (pure a : Reader ε α) (pure a') := fun inp => .ok h inp

/-- The same broken encoding is reported at the same place. -/
theorem Parallel.fail (fault : Fault) (place : ℕ) :
    Parallel E R (fail fault place : Reader ε α) (fail fault place) :=
  fun _ => .error (.encoding fault place)

/-- The same broken encoding is reported at the place reached. -/
theorem Parallel.failHere (fault : Fault) :
    Parallel E R (failHere fault : Reader ε α) (failHere fault) :=
  fun inp => .error (.encoding fault inp.position)

/-- Refusals that correspond are made at the same place. -/
theorem Parallel.refuse {e : ε} {e' : ε'} (h : E e e') (place : ℕ) :
    Parallel E R (refuse e place : Reader ε α) (refuse e' place) :=
  fun _ => .error (.content h place)

/-- Both readers have reached the same place. -/
theorem Parallel.position : Parallel E Eq (position : Reader ε ℕ) position := fun inp => .ok rfl inp

/-- Both readers have the same input before them. -/
theorem Parallel.get : Parallel E Eq (get : Reader ε Input) get := fun inp => .ok rfl inp

/-- Both readers go on with the same input. -/
theorem Parallel.set (inp : Input) : Parallel E Eq (set inp : Reader ε PUnit) (set inp) :=
  fun _ => .ok rfl inp

/-- Both readers change the input alike. -/
theorem Parallel.modify (f : Input → Input) :
    Parallel E Eq (modify f : Reader ε PUnit) (modify f) := fun inp => .ok rfl (f inp)

/-- What is made up of two parts goes the same way if both parts do. -/
theorem Parallel.bind (hr : Parallel E R r r') (hf : ∀ a a', R a a' → Parallel E S (f a) (f' a')) :
    Parallel E S (r >>= f) (r' >>= f') := by
  intro inp
  have hresult := hr inp
  generalize hread : r inp = result at hresult
  generalize hread' : r' inp = result' at hresult
  cases hresult with
  | ok h out =>
    rw [bind_of_ok hread, bind_of_ok hread']
    exact hf _ _ h out
  | error h =>
    rw [bind_of_error hread, bind_of_error hread']
    exact .error h

/-- After readers that find the same, what goes on goes on with the same. -/
theorem Parallel.bind_same {r' : Reader ε' α} {f' : α → Reader ε' β'} (hr : Parallel E Eq r r')
    (hf : ∀ a, Parallel E S (f a) (f' a)) : Parallel E S (r >>= f) (r' >>= f') :=
  hr.bind fun a _ h => h ▸ hf a

/-- What is done with the results must keep them corresponding. -/
theorem Parallel.map {g : α → β} {g' : α' → β'} (hr : Parallel E R r r')
    (hg : ∀ a a', R a a' → S (g a) (g' a')) : Parallel E S (g <$> r) (g' <$> r') := by
  rw [← bind_pure_comp, ← bind_pure_comp]
  exact hr.bind fun a a' h => .pure (hg a a' h)

/-- Results that correspond in one way may be taken to correspond in a weaker one. -/
theorem Parallel.imp {S : α → α' → Prop} (hr : Parallel E R r r')
    (himp : ∀ a a', R a a' → S a a') : Parallel E S r r' := by
  intro inp
  have hresult := hr inp
  generalize r inp = result at hresult ⊢
  generalize r' inp = result' at hresult ⊢
  cases hresult with
  | ok h out => exact .ok (himp _ _ h) out
  | error h => exact .error h

/-- Readers that decide by the same condition go the same way if both branches do. -/
theorem Parallel.ite {c : Prop} [Decidable c] {x : Reader ε α} {x' : Reader ε' α'}
    (hr : Parallel E R r r') (hx : Parallel E R x x') :
    Parallel E R (if c then r else x) (if c then r' else x') := by
  split
  · exact hr
  · exact hx

/-- Checks of the same that fail in corresponding ways keep two readers going the same way. -/
theorem Parallel.check_iff {c c' : Prop} [Decidable c] [Decidable c'] (hc : c' ↔ c)
    {bad : Reader ε PUnit} {bad' : Reader ε' PUnit} {next : PUnit → Reader ε α}
    {next' : PUnit → Reader ε' α'} (hbad : Parallel E Eq bad bad')
    (hnext : Parallel E R (next ⟨⟩) (next' ⟨⟩)) :
    Parallel E R (if c then bad >>= next else next ⟨⟩)
      (if c' then bad' >>= next' else next' ⟨⟩) := by
  by_cases h : c
  · rw [if_pos h, if_pos (hc.mpr h)]
    exact hbad.bind_same fun _ => hnext
  · rw [if_neg h, if_neg (mt hc.mp h)]
    exact hnext

/-- A check by the same condition that fails in corresponding ways goes the same way. -/
theorem Parallel.check {c : Prop} [Decidable c] {bad : Reader ε PUnit} {bad' : Reader ε' PUnit}
    {next : PUnit → Reader ε α} {next' : PUnit → Reader ε' α'} (hbad : Parallel E Eq bad bad')
    (hnext : Parallel E R (next ⟨⟩) (next' ⟨⟩)) :
    Parallel E R (if c then bad >>= next else next ⟨⟩) (if c then bad' >>= next' else next' ⟨⟩) :=
  .check_iff Iff.rfl hbad hnext

/-- An octet knows nothing of refusals. -/
theorem Parallel.octet? : Parallel E Eq (octet? : Reader ε _) octet? := by
  refine Parallel.get.bind_same fun inp => ?_
  cases inp.next? with
  | none => exact .pure rfl
  | some p => exact (Parallel.set _).bind_same fun _ => .pure rfl

/-- Several octets know nothing of refusals. -/
theorem Parallel.octets? (n : ℕ) : Parallel E Eq (octets? n : Reader ε _) (octets? n) := by
  refine Parallel.get.bind_same fun inp => ?_
  cases inp.take? n with
  | none => exact .pure rfl
  | some p => exact (Parallel.set _).bind_same fun _ => .pure rfl

/-- A value of definite length goes the same way if its content does. -/
theorem Parallel.within (n : ℕ) (hr : Parallel E R r r') :
    Parallel E R (within n r) (within n r') := by
  refine Parallel.get.bind_same fun inp => .check (.failHere _) ?_
  refine (Parallel.modify _).bind_same fun _ => hr.bind fun a a' h => ?_
  refine Parallel.get.bind_same fun inner => .check (.failHere _) ?_
  exact (Parallel.modify _).bind_same fun _ => .pure h

/-- A missing value is missed by both readers. -/
theorem Parallel.mandatory {r : Reader ε (Option α)} {r' : Reader ε' (Option α')}
    (hr : Parallel E (Option.Rel R) r r') : Parallel E R (mandatory r) (mandatory r') := by
  refine hr.bind fun a? a'? h => ?_
  cases h with
  | none => exact .failHere _
  | some h => exact .pure h

section Iterate

variable {R : σ → σ' → Prop} {step : σ → Reader ε (Option σ)} {step' : σ' → Reader ε' (Option σ')}

/-- Loops with the same fuel go the same way if their steps do. -/
private theorem Parallel.iterateWith
    (hstep : ∀ s s', R s s' → Parallel E (Option.Rel R) (step s) (step' s')) (fuel : ℕ)
    {s : σ} {s' : σ'} (h : R s s') :
    Parallel E R (iterateWith step fuel s) (iterateWith step' fuel s') := by
  induction fuel generalizing s s' with
  | zero => exact .pure h
  | succ fuel ih =>
    intro inp
    have hresult := hstep s s' h inp
    unfold Reader.iterateWith
    generalize step s inp = result at hresult
    generalize step' s' inp = result' at hresult
    cases hresult with
    | error hfail => exact .error hfail
    | ok hnext out =>
      cases hnext with
      | none => exact .ok h out
      | some hnext => exact ih hnext out

/-- Loops go the same way if their steps do. -/
theorem Parallel.iterate
    (hstep : ∀ s s', R s s' → Parallel E (Option.Rel R) (step s) (step' s')) {s : σ} {s' : σ'}
    (h : R s s') : Parallel E R (iterate step s) (iterate step' s') :=
  Parallel.get.bind_same fun _ => Parallel.iterateWith hstep _ h

/-- A loop that knows nothing of refusals goes the same way as itself. -/
theorem Parallel.iterate_same {step' : σ → Reader ε' (Option σ)}
    (hstep : ∀ s, Parallel E Eq (step s) (step' s)) (s : σ) :
    Parallel E Eq (Reader.iterate step s) (Reader.iterate step' s) := by
  refine Parallel.iterate (fun s s' h => ?_) rfl
  subst h
  refine (hstep s).imp fun next? next?' h => ?_
  subst h
  cases next? with
  | none => exact .none
  | some next => exact .some rfl

end Iterate

end Laws

end Reader

section Headers

/-- A tag knows nothing of refusals. -/
theorem parallel_tag? (tag : Tag) : Parallel E Eq (tag? tag : Reader ε _) (tag? tag) := by
  refine Parallel.get.bind_same fun inp => ?_
  cases inp.next? with
  | none => exact .pure rfl
  | some p =>
    obtain ⟨o, after⟩ := p
    refine .ite ?_ (.ite ((Parallel.set _).bind_same fun _ => .pure rfl) (.pure rfl))
    cases skipTag 3 after with
    | error p => exact .fail _ _
    | ok last => exact .pure rfl

/-- Neither does a tag of any kind. -/
theorem parallel_anyTag : Parallel E Eq (anyTag : Reader ε _) anyTag := by
  refine Parallel.octet?.bind_same fun o? => ?_
  cases o? with
  | none => exact .failHere _
  | some o =>
    refine .ite (Parallel.get.bind_same fun inp => ?_) (.pure rfl)
    cases skipTag 3 inp with
    | error p =>
      obtain ⟨fault, place⟩ := p
      cases fault <;> exact .fail _ _
    | ok after => exact (Parallel.set _).bind_same fun _ => .pure rfl

/-- Neither does a length. -/
theorem parallel_length (rules : Rules) :
    Parallel E Eq (length rules : Reader ε _) (length rules) := by
  have hlong (count : ℕ) :
      Parallel E Eq (longLength rules count : Reader ε _) (longLength rules count) := by
    refine Parallel.get.bind_same fun inp => ?_
    cases inp.take? count with
    | none => exact .fail _ _
    | some p => exact (Parallel.set _).bind_same fun _ => .check (.failHere _) (.pure rfl)
  refine Parallel.octet?.bind_same fun o? => ?_
  cases o? with
  | none => exact .failHere _
  | some o => exact .ite (.pure rfl) (.ite (.pure rfl) (.ite (hlong _) (.failHere _)))

/-- Neither does a header. -/
theorem parallel_header? (rules : Rules) (tag : Tag) :
    Parallel E Eq (header? rules tag : Reader ε _) (header? rules tag) := by
  refine (parallel_tag? tag).bind_same fun isConstructed? => ?_
  cases isConstructed? with
  | none => exact .pure rfl
  | some isConstructed =>
    refine (parallel_length rules).bind_same fun length => ?_
    cases length with
    | definite n => exact .pure rfl
    | indefinite => exact .ite (.pure rfl) (.failHere _)

end Headers

section Values

variable {R : α → α' → Prop} {rules : Rules} {tag : Tag} {content : Bool → ℕ → ℕ → Reader ε α}
  {content' : Bool → ℕ → ℕ → Reader ε' α'} {unlimited body : ℕ → Reader ε α}
  {unlimited' body' : ℕ → Reader ε' α'} {r : Reader ε α} {r' : Reader ε' α'}

/-- A value goes the same way if its content does, of definite length or not. -/
theorem Reader.Parallel.value?
    (hcontent : ∀ isConstructed start n,
      Parallel E R (content isConstructed start n) (content' isConstructed start n))
    (hunlimited : ∀ start, Parallel E R (unlimited start) (unlimited' start)) :
    Parallel E (Option.Rel R) (value? rules tag content unlimited)
      (value? rules tag content' unlimited') := by
  refine (parallel_header? rules tag).bind_same fun header? => ?_
  cases header? with
  | none => exact .pure .none
  | some header =>
    refine Parallel.position.bind_same fun start => ?_
    cases header with
    | primitive n => exact ((hcontent false start n).within n).map fun _ _ => .some
    | constructed n => exact ((hcontent true start n).within n).map fun _ _ => .some
    | indefinite => exact (hunlimited start).map fun _ _ => .some

/-- A value of indefinite length goes the same way if its content does. -/
theorem Reader.Parallel.untilEnd (rules : Rules) (hr : Parallel E R r r') :
    Parallel E R (untilEnd rules r) (untilEnd rules r') := by
  refine Parallel.position.bind_same fun start => hr.bind fun a a' h => ?_
  refine parallel_anyTag.bind_same fun last => ?_
  cases last with
  | long isConstructed => exact .fail _ _
  | short tag isConstructed =>
    cases isConstructed with
    | true => exact .fail _ _
    | false =>
      refine .check (.fail _ _) ((parallel_length rules).bind_same fun length => ?_)
      exact .check (.fail _ _) (.pure h)

/-- A constructed value goes the same way if its content does. -/
theorem Reader.Parallel.constructed? (tag : Tag)
    (hbody : ∀ start, Parallel E R (body start) (body' start)) :
    Parallel E (Option.Rel R) (constructed? rules tag body) (constructed? rules tag body') := by
  rw [constructed?_eq_value?, constructed?_eq_value?]
  refine .value? (fun isConstructed start _ => ?_) fun start => (hbody start).untilEnd rules
  exact .ite (hbody start) (.fail _ _)

/-- A sequence goes the same way if its content does. -/
theorem Reader.Parallel.sequence (hbody : ∀ start, Parallel E R (body start) (body' start)) :
    Parallel E R (sequence rules body) (sequence rules body') :=
  (Parallel.constructed? Tag.sequence hbody).mandatory

end Values

section Strings

/-- A number is refused in corresponding ways if the refusals for it correspond. -/
theorem parallel_unsigned32 (rules : Rules) {e : ε} {e' : ε'} (h : E e e') :
    Parallel E Eq (unsigned32 rules e) (unsigned32 rules e') := by
  rw [unsigned32_eq_value?, unsigned32_eq_value?]
  refine (Parallel.value? (fun isConstructed start n => ?_) fun start => ?_).mandatory
  · refine .ite (.fail _ _) ((Parallel.octets? n).bind_same fun os? => ?_)
    cases os?.bind unsigned32? with
    | none => exact .refuse h _
    | some number => exact .pure rfl
  · exact .fail _ _

/-- A bit string knows nothing of refusals. -/
theorem parallel_bitString? (rules : Rules) :
    Parallel E (Option.Rel Eq) (bitString? rules : Reader ε _) (bitString? rules) := by
  have hparts (start : ℕ) :
      Parallel E Eq (bitStringParts rules start : Reader ε _) (bitStringParts rules start) := by
    cases rules <;> exact .fail _ _
  rw [bitString?_eq_value?, bitString?_eq_value?]
  refine .value? (fun isConstructed start n => .ite (hparts start) ?_) hparts
  refine Parallel.octet?.bind_same fun unused? => ?_
  cases unused? with
  | none => exact .failHere _
  | some unused =>
    refine .check (.fail _ _) ((Parallel.octets? _).bind_same fun os? => ?_)
    cases os? with
    | none => exact .failHere _
    | some os =>
      dsimp only
      cases BitString.new? os unused.toNat with
      | none => exact .fail _ _
      | some s => exact .ite (.fail _ _) (.pure rfl)

/-- The ends of nested strings know nothing of refusals. -/
private theorem parallel_closeStrings (start : ℕ) (strings : List OpenString) :
    Parallel E Eq (closeStrings start strings : Reader ε _) (closeStrings start strings) := by
  induction strings with
  | nil => exact .pure rfl
  | cons s strings ih =>
    refine Parallel.get.bind_same fun inp => .ite (.pure rfl) ?_
    cases s with
    | definite outer => exact (Parallel.modify _).bind_same fun _ => ih
    | indefinite => exact .fail _ _

/-- Neither does one part of a string. -/
private theorem parallel_stringPart (isIndefinite : Bool) (start : ℕ)
    (strings : List OpenString) :
    Parallel E Eq (stringPart isIndefinite start strings : Reader ε _)
      (stringPart isIndefinite start strings) := by
  have hclose (strings : List OpenString) (os : Octets) : Parallel E Eq
      (closeStrings start strings >>= fun strings => pure (Part.octets os strings) : Reader ε _)
      (closeStrings start strings >>= fun strings => pure (Part.octets os strings)) :=
    (parallel_closeStrings start strings).bind_same fun _ => .pure rfl
  refine parallel_anyTag.bind_same fun tag => (parallel_length .ber).bind_same fun length => ?_
  rcases tag with ⟨tag, isConstructed⟩ | isConstructed <;> cases isConstructed
  · refine .ite (.check (.fail _ _) ?_) ?_
    · rcases strings with _ | ⟨outer | _, strings⟩
      · exact .ite (.pure rfl) (.fail _ _)
      · exact .fail _ _
      · exact hclose strings []
    · cases length with
      | indefinite => exact .fail _ _
      | definite n =>
        refine .check (.fail _ _) ((Parallel.octets? n).bind_same fun os? => ?_)
        cases os? with
        | none => exact .fail _ _
        | some os => exact hclose strings os
  · cases length with
    | indefinite => exact .check (.fail _ _) (.pure rfl)
    | definite n =>
      refine .check (.fail _ _) (Parallel.get.bind_same fun inp => .check (.fail _ _) ?_)
      exact (Parallel.modify _).bind_same fun _ => hclose _ []
  · cases length <;> exact .fail _ _
  · exact .fail _ _

/-- Neither does the step that gathers the parts. -/
private theorem parallel_gatherPart? (isIndefinite : Bool) (start : ℕ) (g : Gathered) :
    Parallel E Eq (gatherPart? isIndefinite start g : Reader ε _)
      (gatherPart? isIndefinite start g) := by
  refine .ite (.pure rfl) (Parallel.get.bind_same fun inp => .ite (.pure rfl) ?_)
  refine (parallel_stringPart isIndefinite start g.strings).bind_same fun part => ?_
  cases part <;> exact .pure rfl

/-- Neither do all parts of a string together. -/
private theorem parallel_stringParts (rules : Rules) (isIndefinite : Bool) (start : ℕ) :
    Parallel E Eq (stringParts rules isIndefinite start : Reader ε _)
      (stringParts rules isIndefinite start) := by
  unfold stringParts
  refine .check (.fail _ _) ?_
  exact (Parallel.iterate_same (parallel_gatherPart? isIndefinite start) _).bind_same fun _ =>
    .pure rfl

/-- An octet string knows nothing of refusals, in one part or in several. -/
theorem parallel_octetString (rules : Rules) (enclosing : ℕ) :
    Parallel E Eq (octetString rules enclosing : Reader ε _) (octetString rules enclosing) := by
  have hread :
      Parallel E (Option.Rel Eq) (octetString? rules : Reader ε _) (octetString? rules) := by
    rw [octetString?_eq_value?, octetString?_eq_value?]
    refine .value? (fun isConstructed start n => .ite (parallel_stringParts rules false start) ?_)
      (parallel_stringParts rules true)
    refine (Parallel.octets? n).bind_same fun os? => ?_
    cases os? with
    | none => exact .failHere _
    | some os => exact .pure rfl
  refine hread.bind fun os? os?' h => ?_
  cases h with
  | none => exact .fail _ _
  | some h => exact .pure h

end Strings

end SignedPrefixes.Ber
