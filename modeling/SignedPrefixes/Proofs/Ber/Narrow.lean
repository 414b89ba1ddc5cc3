import SignedPrefixes.Proofs.Ber.Lenient

/-!
# Narrow readers

A reader narrows another one if, wherever that one reads something, it reads the same if that
passes a test and otherwise refuses it. What a reader refuses on the way is refused in the end,
so a test of what is read along the way has to be passed by whatever leads to a result that
passes.
-/

namespace SignedPrefixes.Ber.Reader

open StateExcept

variable {ε α β σ : Type} {refusal : ε} {inp out : Input} {rules : Rules}

/-- A reader that reads what another one reads if it passes a test, and otherwise refuses it. -/
def Narrows (refusal : ε) (test : α → Prop) (r r' : Reader ε α) : Prop :=
  ∀ inp a out, r' inp = .ok (a, out) →
    (test a → r inp = .ok (a, out)) ∧
      (¬test a → ∃ place, r inp = .error ⟨.content refusal, place⟩)

section Combined

variable {test : α → Prop} {test' : β → Prop} {r r' : Reader ε α} {f f' : α → Reader ε β}

/-- A reader narrows itself if the test passes everything. -/
theorem Narrows.refl (r : Reader ε α) (htest : ∀ a, test a) : Narrows refusal test r r :=
  fun _ a _ h => ⟨fun _ => h, fun hn => absurd (htest a) hn⟩

/-- A value that passes is read as it is. -/
theorem narrows_pure {a : α} (ha : test a) :
    Narrows refusal test (pure a : Reader ε α) (pure a) := by
  rintro inp a' out h
  cases h
  exact ⟨fun _ => rfl, fun hn => absurd ha hn⟩

/-- Nothing has to be read the same as what fails. -/
theorem Fails.narrows (hr : Fails r') : Narrows refusal test r r' :=
  fun inp a out h => absurd h (hr inp (a, out))

/-- What goes on after a narrow reader may narrow further, but must not let pass what does not
pass the test before. -/
theorem Narrows.bind (hr : Narrows refusal test r r')
    (hf : ∀ a, test a → Narrows refusal test' (f a) (f' a))
    (hback : ∀ a inp b out, f' a inp = .ok (b, out) → test' b → test a) :
    Narrows refusal test' (r >>= f) (r' >>= f') := by
  intro inp b out h
  obtain ⟨a, mid, ha, hb⟩ := bind_eq_ok_iff.mp h
  obtain ⟨hpass, hstop⟩ := hr inp a mid ha
  by_cases htest : test a
  · obtain ⟨hpass', hstop'⟩ := hf a htest mid b out hb
    rw [bind_of_ok (hpass htest)]
    exact ⟨hpass', hstop'⟩
  · obtain ⟨place, hplace⟩ := hstop htest
    rw [bind_of_error hplace]
    exact ⟨fun hb' => absurd (hback a mid b out hb hb') htest, fun _ => ⟨place, rfl⟩⟩

/-- After the same reader, what goes on narrows if it does so for every value. -/
theorem Narrows.bind_same (hf : ∀ a, Narrows refusal test' (f a) (f' a)) :
    Narrows refusal test' (r >>= f) (r >>= f') := by
  have hr : Narrows refusal (fun _ => True) r r := .refl r fun _ => trivial
  exact hr.bind (fun a _ => hf a) fun _ _ _ _ _ _ => trivial

/-- What goes on after a narrow reader may be the same, if the test is. -/
theorem Narrows.andThen (hr : Narrows refusal test r r')
    (hf : ∀ a inp b out, f a inp = .ok (b, out) → (test' b ↔ test a)) :
    Narrows refusal test' (r >>= f) (r' >>= f) :=
  hr.bind
    (fun a ha inp b out h => ⟨fun _ => h, fun hn => absurd ((hf a inp b out h).mpr ha) hn⟩)
    fun a inp b out h => (hf a inp b out h).mp

/-- A function that keeps whether the test passes keeps a reader narrow. -/
theorem Narrows.map (hr : Narrows refusal test r r') {g : α → β}
    (hg : ∀ a, test' (g a) ↔ test a) : Narrows refusal test' (g <$> r) (g <$> r') := by
  rw [← bind_pure_comp, ← bind_pure_comp]
  refine hr.andThen fun a inp b out h => ?_
  cases h
  exact hg a

/-- A check that fails in the wider reader may do anything in the narrow one. -/
theorem Narrows.check {c : Prop} [Decidable c] {bad bad' : Reader ε α} (hbad' : Fails bad')
    (hr : ¬c → Narrows refusal test r r') :
    Narrows refusal test (if c then bad else r) (if c then bad' else r') := by
  by_cases h : c
  · rw [if_pos h, if_pos h]
    exact hbad'.narrows
  · rw [if_neg h, if_neg h]
    exact hr h

/-- Where two readers come to the same value but one has a stricter check before it, the check has
to let pass just what passes the test. -/
theorem Narrows.limit {c c' : Prop} [Decidable c] [Decidable c'] {bad' : Reader ε α} {a : α}
    (hbad' : Fails bad') (hc : test a ↔ ¬c) (place : ℕ) (f : Unit → Reader ε α) :
    Narrows refusal test (if c then refuse refusal place >>= f else pure a)
      (if c' then bad' else pure a) := by
  by_cases h : c'
  · rw [if_pos h]
    exact hbad'.narrows
  · rw [if_neg h]
    rintro inp a' out ha
    cases ha
    refine ⟨fun htest => ?_, fun htest => ⟨place, ?_⟩⟩
    · rw [if_neg (hc.mp htest)]
      rfl
    · rw [if_pos (not_not.mp (mt hc.mpr htest))]
      rfl

/-- A value of definite length is as narrow as its content. -/
theorem Narrows.within (hr : Narrows refusal test r r') (n : ℕ) :
    Narrows refusal test (within n r) (within n r') := by
  refine Narrows.bind_same fun inp => ?_
  refine .check ((fails_failHere _).bind _) fun _ => ?_
  refine Narrows.bind_same fun _ => hr.andThen fun a inp b out h => ?_
  simp only [bind_of_ok get_apply, branch_apply, bind_of_error (failHere_apply _),
    ite_error_eq_ok_iff, bind_of_ok (modify_apply _), pure_apply] at h
  cases h.2
  rfl

/-- A value of indefinite length is as narrow as its content. -/
theorem Narrows.untilEnd (hr : Narrows refusal test r r') :
    Narrows refusal test (untilEnd rules r) (untilEnd rules r') := by
  refine Narrows.bind_same fun start => hr.andThen fun a inp b out h => ?_
  obtain ⟨last, mid, -, h⟩ := bind_eq_ok_iff.mp h
  cases last with
  | long isConstructed => cases h
  | short tag isConstructed =>
    cases isConstructed with
    | true => cases h
    | false =>
      simp only [branch_apply, bind_of_error (fail_apply _ _), ite_error_eq_ok_iff] at h
      obtain ⟨length, after, -, h⟩ := bind_eq_ok_iff.mp h.2
      simp only [branch_apply, bind_of_error (fail_apply _ _), ite_error_eq_ok_iff] at h
      cases h.2
      rfl

/-- A value that must be there is as narrow as one that may be there. -/
theorem Narrows.mandatory {r r' : Reader ε (Option α)}
    (hr : Narrows refusal (fun a? => ∀ a ∈ a?, test a) r r') :
    Narrows refusal test (mandatory r) (mandatory r') := by
  refine hr.andThen fun a? inp a out h => ?_
  cases a? with
  | none => cases h
  | some a' =>
    cases h
    simp

end Combined

section Values

variable {test : α → Prop} {body body' : ℕ → Reader ε α}

/-- A constructed value is as narrow as its content. -/
theorem Narrows.constructed? (tag : Tag)
    (hbody : ∀ start, Narrows refusal test (body start) (body' start)) :
    Narrows refusal (fun a? => ∀ a ∈ a?, test a) (constructed? rules tag body)
      (constructed? rules tag body') := by
  have hsome (a : α) : (∀ a' ∈ some a, test a') ↔ test a := by simp
  refine Narrows.bind_same fun header? => ?_
  cases header? with
  | none => exact narrows_pure nofun
  | some header =>
    refine Narrows.bind_same fun start => ?_
    cases header with
    | primitive n => exact ((fails_fail _ _).narrows.within n).map hsome
    | constructed n => exact ((hbody start).within n).map hsome
    | indefinite => exact (hbody start).untilEnd.map hsome

/-- A sequence is as narrow as its content. -/
theorem Narrows.sequence (hbody : ∀ start, Narrows refusal test (body start) (body' start)) :
    Narrows refusal test (sequence rules body) (sequence rules body') :=
  (Narrows.constructed? Tag.sequence hbody).mandatory

end Values

section Iterate

variable {test : σ → Prop} {step step' : σ → Reader ε (Option σ)}

/-- Loops with the same fuel are as narrow as their steps. -/
private theorem Narrows.iterateWith (inv : σ → Prop)
    (hstep : ∀ s, inv s → test s →
      Narrows refusal (fun s? => ∀ s' ∈ s?, test s') (step s) (step' s))
    (hkeep : ∀ s inp s' out, inv s → step' s inp = .ok (some s', out) →
      inv s' ∧ (test s' → test s)) (fuel : ℕ) {s : σ} (hs : inv s) (htest : test s) :
    Narrows refusal test (iterateWith step fuel s) (iterateWith step' fuel s) := by
  induction fuel generalizing s with
  | zero => exact narrows_pure htest
  | succ fuel ih =>
    intro inp last out h
    unfold Reader.iterateWith at h ⊢
    cases hread : step' s inp with
    | error failure =>
      rw [hread] at h
      cases h
    | ok result =>
      obtain ⟨s?, after⟩ := result
      rw [hread] at h
      obtain ⟨hpass, hstop⟩ := hstep s hs htest inp s? after hread
      cases s? with
      | none =>
        cases h
        rw [hpass (by simp)]
        exact ⟨fun _ => rfl, fun hn => absurd htest hn⟩
      | some next =>
        have hnext := (hkeep s inp next after hs hread).1
        by_cases htest' : test next
        · rw [hpass fun s' hs' => by cases hs'; exact htest']
          exact ih hnext htest' after last out h
        · obtain ⟨place, hplace⟩ := hstop fun hall => htest' (hall next rfl)
          rw [hplace]
          -- The state at the end cannot pass where one on the way does not.
          have hback : inv last ∧ (test last → test next) := by
            refine iterateWith_induction (P := fun s _ => inv s ∧ (test s → test next))
              ?_ (fun _ _ _ hs _ => hs) ⟨hnext, id⟩ h
            rintro s inp s' out ⟨hs, hback⟩ hread
            obtain ⟨hs', hback'⟩ := hkeep s inp s' out hs hread
            exact ⟨hs', hback ∘ hback'⟩
          exact ⟨fun hlast => absurd (hback.2 hlast) htest', fun _ => ⟨place, rfl⟩⟩

/-- A loop is as narrow as its steps, if no step leads from a state that does not pass to one that
does. -/
theorem Narrows.iterate (inv : σ → Prop)
    (hstep : ∀ s, inv s → test s →
      Narrows refusal (fun s? => ∀ s' ∈ s?, test s') (step s) (step' s))
    (hkeep : ∀ s inp s' out, inv s → step' s inp = .ok (some s', out) →
      inv s' ∧ (test s' → test s)) {s : σ} (hs : inv s) (htest : test s) :
    Narrows refusal test (iterate step s) (iterate step' s) :=
  Narrows.bind_same fun _ => iterateWith inv hstep hkeep _ hs htest

end Iterate

end SignedPrefixes.Ber.Reader
