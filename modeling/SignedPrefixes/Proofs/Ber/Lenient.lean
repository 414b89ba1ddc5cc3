import SignedPrefixes.Proofs.Ber.Primitive

/-!
# Lenient readers

A reader extends another one if it reads whatever that one reads, with the same result
and up to the same place. Readers that are made up in the same way extend each other if
their parts do. So every kind of value that is read under DER is also read under BER.
-/

namespace SignedPrefixes.Ber

open Reader StateExcept

variable {ε α β σ : Type}

/-- BER allows whatever DER allows. -/
instance : LE Rules := ⟨fun rules rules' => rules' = .ber ∨ rules = rules'⟩

instance (rules rules' : Rules) : Decidable (rules ≤ rules') :=
  inferInstanceAs (Decidable (_ ∨ _))

/-- Rules that are no stricter than others do not ask for DER if the others do not. -/
theorem Rules.ne_der_of_le {rules rules' : Rules} (hrules : rules ≤ rules') (hder : rules ≠ .der) :
    rules' ≠ .der := by
  rcases hrules with rfl | rfl
  · decide
  · exact hder

namespace Reader

/-- A reader that comes to no value, whatever it is applied to. -/
def Fails (r : Reader ε α) : Prop := ∀ inp p, r inp ≠ .ok p

/-- A reader that reads whatever another one reads, with the same result and up to the same
place. -/
def Extends (r' r : Reader ε α) : Prop := ∀ inp p, r inp = .ok p → r' inp = .ok p

section Combined

variable {r r' : Reader ε α} {f f' : α → Reader ε β}

/-- A broken encoding is a failure. -/
theorem fails_fail (fault : Fault) (place : ℕ) : Fails (fail fault place : Reader ε α) :=
  fun _ _ h => nomatch h

/-- A refusal is a failure. -/
theorem fails_refuse (refusal : ε) (place : ℕ) : Fails (refuse refusal place : Reader ε α) :=
  fun _ _ h => nomatch h

/-- A broken encoding at the place reached is a failure. -/
theorem fails_failHere (fault : Fault) : Fails (failHere fault : Reader ε α) :=
  fun _ _ h => nomatch h

/-- Nothing comes after a failure. -/
theorem Fails.bind (hr : Fails r) (f : α → Reader ε β) : Fails (r >>= f) := by
  intro inp p h
  obtain ⟨a, mid, ha, -⟩ := bind_eq_ok_iff.mp h
  exact hr inp (a, mid) ha

/-- Any reader comes to all that a failing one comes to. -/
theorem Fails.extends (hr : Fails r) (r' : Reader ε α) : Extends r' r :=
  fun inp p h => absurd h (hr inp p)

/-- A reader extends itself. -/
theorem Extends.refl (r : Reader ε α) : Extends r r := fun _ _ h => h

/-- What is made up of two parts extends another if each part does. -/
theorem Extends.bind (hr : Extends r' r) (hf : ∀ a, Extends (f' a) (f a)) :
    Extends (r' >>= f') (r >>= f) := by
  rintro inp ⟨b, out⟩ h
  obtain ⟨a, mid, ha, hb⟩ := bind_eq_ok_iff.mp h
  exact bind_eq_ok_iff.mpr ⟨a, mid, hr inp (a, mid) ha, hf a mid (b, out) hb⟩

/-- Functions keep one reader an extension of another. -/
theorem Extends.map (hr : Extends r' r) (f : α → β) : Extends (f <$> r') (f <$> r) := by
  rw [← bind_pure_comp, ← bind_pure_comp]
  exact hr.bind fun a => .refl _

/-- A check that lets more pass may come before a reader that reads more. -/
theorem Extends.check {c c' : Prop} [Decidable c] [Decidable c'] {bad bad' : Reader ε α}
    (hc : c' → c) (hbad : Fails bad) (hr : ¬c → Extends r' r) :
    Extends (if c' then bad' else r') (if c then bad else r) := by
  by_cases h : c
  · rw [if_pos h]
    exact hbad.extends _
  · rw [if_neg h, if_neg fun h' => h (hc h')]
    exact hr h

/-- A value of definite length extends another one if its content does. -/
theorem Extends.within (hr : Extends r' r) (n : ℕ) : Extends (within n r') (within n r) := by
  refine (Extends.refl get).bind fun inp => ?_
  refine .check id ((fails_failHere _).bind _) fun _ => ?_
  exact (Extends.refl _).bind fun _ => hr.bind fun a => .refl _

/-- Loops with the same fuel extend one another if their steps do. -/
private theorem Extends.iterateWith {step step' : σ → Reader ε (Option σ)}
    (hstep : ∀ s, Extends (step' s) (step s)) (fuel : ℕ) (s : σ) :
    Extends (iterateWith step' fuel s) (iterateWith step fuel s) := by
  induction fuel generalizing s with
  | zero => exact .refl _
  | succ fuel ih =>
    intro inp p h
    unfold Reader.iterateWith at h ⊢
    cases hread : step s inp with
    | error failure =>
      rw [hread] at h
      cases h
    | ok result =>
      rw [hread] at h
      rw [hstep s inp result hread]
      obtain ⟨s?, after⟩ := result
      cases s? with
      | none => exact h
      | some s' => exact ih s' after p h

/-- A loop extends another one if each of its steps does. -/
theorem Extends.iterate {step step' : σ → Reader ε (Option σ)}
    (hstep : ∀ s, Extends (step' s) (step s)) (s : σ) :
    Extends (iterate step' s) (iterate step s) :=
  (Extends.refl get).bind fun _ => iterateWith hstep _ s

/-- A value that must be there extends another one like any other value. -/
theorem Extends.mandatory {r r' : Reader ε (Option α)} (hr : Extends r' r) :
    Extends (mandatory r') (mandatory r) :=
  hr.bind fun _ => .refl _

/-- A reader finds what a reader that it extends has found, and leaves the same octets over. -/
theorem Extends.runOn {os rest : Octets} {a : α} (hr : Extends r' r)
    (h : r.runOn os = .ok (a, rest)) : r'.runOn os = .ok (a, rest) := by
  unfold Reader.runOn at h ⊢
  cases hread : r (Input.ofOctets os) with
  | error failure =>
    rw [hread] at h
    cases h
  | ok p =>
    rw [hread] at h
    rw [hr _ p hread]
    exact h

end Combined

end Reader

section Values

variable {rules rules' : Rules}

/-- A length of several octets is also read under looser rules, which allow padding. -/
private theorem extends_longLength (hrules : rules ≤ rules') (count : ℕ) :
    Extends (longLength rules' count : Reader ε Length) (longLength rules count) := by
  refine (Extends.refl get).bind fun inp => ?_
  cases inp.take? count with
  | none => exact .refl _
  | some p =>
    refine (Extends.refl _).bind fun _ => ?_
    refine .check ?_ ((fails_failHere _).bind _) fun _ => .refl _
    rintro ⟨hder, hpadded⟩
    exact ⟨by_contra fun h => Rules.ne_der_of_le hrules h hder, hpadded⟩

/-- A length is also read under looser rules. -/
theorem extends_length (hrules : rules ≤ rules') :
    Extends (length rules' : Reader ε Length) (length rules) := by
  refine (Extends.refl octet?).bind fun o? => ?_
  cases o? with
  | none => exact .refl _
  | some o =>
    dsimp only
    split_ifs
    · exact .refl _
    · exact .refl _
    · exact extends_longLength hrules _
    · exact .refl _

/-- Only lengths that are not minimal or not definite make a difference to headers. -/
theorem extends_header? (hrules : rules ≤ rules') (tag : Tag) :
    Extends (header? rules' tag : Reader ε (Option Header)) (header? rules tag) := by
  refine (Extends.refl (tag? tag)).bind fun isConstructed? => ?_
  cases isConstructed? with
  | none => exact .refl _
  | some isConstructed =>
    refine (extends_length hrules).bind fun length => ?_
    cases length with
    | definite n => exact .refl _
    | indefinite =>
      dsimp only
      by_cases h : isConstructed = true ∧ rules = .ber
      · have h' : isConstructed = true ∧ rules' = .ber :=
          ⟨h.1, hrules.elim id fun heq => heq ▸ h.2⟩
        rw [if_pos h, if_pos h']
        exact .refl _
      · rw [if_neg h]
        exact (fails_failHere _).extends _

section Content

variable {body body' : ℕ → Reader ε α}

/-- A value is also read under looser rules if its content is, of definite length or not. -/
theorem Extends.value? {content content' : Bool → ℕ → ℕ → Reader ε α}
    {unlimited unlimited' : ℕ → Reader ε α} (hrules : rules ≤ rules') (tag : Tag)
    (hcontent : ∀ isConstructed start n,
      Extends (content' isConstructed start n) (content isConstructed start n))
    (hunlimited : ∀ start, Extends (unlimited' start) (unlimited start)) :
    Extends (value? rules' tag content' unlimited') (value? rules tag content unlimited) := by
  refine (extends_header? hrules tag).bind fun header? => ?_
  cases header? with
  | none => exact .refl _
  | some header =>
    refine (Extends.refl position).bind fun start => ?_
    cases header with
    | primitive n => exact ((hcontent false start n).within n).map some
    | constructed n => exact ((hcontent true start n).within n).map some
    | indefinite => exact (hunlimited start).map some

/-- A value of indefinite length is also read under looser rules if its content is. -/
theorem Extends.untilEnd {r r' : Reader ε α} (hrules : rules ≤ rules') (hr : Extends r' r) :
    Extends (untilEnd rules' r') (untilEnd rules r) := by
  refine (Extends.refl position).bind fun start => hr.bind fun a => ?_
  refine (Extends.refl anyTag).bind fun last => ?_
  cases last with
  | long isConstructed => exact .refl _
  | short tag isConstructed =>
    cases isConstructed with
    | true => exact .refl _
    | false =>
      refine .check id ((fails_fail _ _).bind _) fun _ => ?_
      exact (extends_length hrules).bind fun _ => .refl _

/-- A constructed value is also read under looser rules if its content is. -/
theorem Extends.constructed? (hrules : rules ≤ rules') (tag : Tag)
    (hbody : ∀ start, Extends (body' start) (body start)) :
    Extends (constructed? rules' tag body') (constructed? rules tag body) := by
  rw [constructed?_eq_value?, constructed?_eq_value?]
  refine Extends.value? hrules tag (fun isConstructed start _ => ?_) fun start =>
    Extends.untilEnd hrules (hbody start)
  cases isConstructed with
  | false => exact .refl _
  | true => exact hbody start

/-- A sequence is also read under looser rules if its content is. -/
theorem Extends.sequence (hrules : rules ≤ rules')
    (hbody : ∀ start, Extends (body' start) (body start)) :
    Extends (sequence rules' body') (sequence rules body) :=
  (Extends.constructed? hrules Tag.sequence hbody).mandatory

end Content

/-- A number is also read under looser rules. -/
theorem extends_unsigned32 (hrules : rules ≤ rules') (refusal : ε) :
    Extends (unsigned32 rules' refusal) (unsigned32 rules refusal) := by
  rw [unsigned32_eq_value?, unsigned32_eq_value?]
  exact (Extends.value? hrules _ (fun _ _ _ => .refl _) fun _ => .refl _).mandatory

/-- DER does not read strings in parts, and BER has one way to read them. -/
theorem extends_stringParts (hrules : rules ≤ rules') (isIndefinite : Bool) (start : ℕ) :
    Extends (stringParts rules' isIndefinite start : Reader ε Octets)
      (stringParts rules isIndefinite start) := by
  refine .check (fun hder => ?_) ((fails_fail _ _).bind _) fun _ => .refl _
  exact by_contra fun h => Rules.ne_der_of_le hrules h hder

/-- An octet string is also read under looser rules. -/
theorem extends_octetString (hrules : rules ≤ rules') (enclosing : ℕ) :
    Extends (octetString rules' enclosing : Reader ε Octets) (octetString rules enclosing) := by
  have hread : Extends (octetString? rules' : Reader ε (Option Octets)) (octetString? rules) := by
    rw [octetString?_eq_value?, octetString?_eq_value?]
    refine Extends.value? hrules _ (fun isConstructed start n => ?_) fun start =>
      extends_stringParts hrules true start
    cases isConstructed with
    | false => exact .refl _
    | true => exact extends_stringParts hrules false start
  exact hread.bind fun _ => .refl _

/-- The content of a bit string is also read under looser rules, which allow unused bits that are
set. -/
private theorem extends_bitStringContent (hrules : rules ≤ rules') (start n : ℕ) :
    Extends (bitStringContent rules' start n : Reader ε BitString)
      (bitStringContent rules start n) := by
  refine (Extends.refl octet?).bind fun unused? => ?_
  cases unused? with
  | none => exact .refl _
  | some unused =>
    refine .check id ((fails_fail _ _).bind _) fun _ => ?_
    refine (Extends.refl _).bind fun os? => ?_
    cases os? with
    | none => exact .refl _
    | some os =>
      dsimp only
      cases BitString.new? os unused.toNat with
      | none => exact .refl _
      | some s =>
        refine .check ?_ (fails_fail _ _) fun _ => .refl _
        rintro ⟨hder, hset⟩
        exact ⟨by_contra fun h => Rules.ne_der_of_le hrules h hder, hset⟩

/-- A bit string is also read under looser rules. -/
theorem extends_bitString? (hrules : rules ≤ rules') :
    Extends (bitString? rules' : Reader ε (Option BitString)) (bitString? rules) := by
  have hparts (start : ℕ) : Fails (bitStringParts rules start : Reader ε BitString) := by
    cases rules <;> exact fails_fail _ _
  rw [bitString?_eq_value?, bitString?_eq_value?]
  refine Extends.value? hrules _ (fun isConstructed start n => ?_) fun start =>
    (hparts start).extends _
  cases isConstructed with
  | false => exact extends_bitStringContent hrules start n
  | true => exact (hparts start).extends _

end Values

end SignedPrefixes.Ber
