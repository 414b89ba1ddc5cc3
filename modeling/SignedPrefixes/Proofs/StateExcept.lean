import Mathlib

/-!
# Programs with a state that may fail

A program that succeeds has taken its steps one after the other, each from the
state that the one before it left.
-/

namespace SignedPrefixes.StateExcept

variable {ε σ α β γ : Type} {s mid s' : σ}

@[simp] theorem pure_apply (a : α) : (pure a : StateT σ (Except ε) α) s = .ok (a, s) := rfl

@[simp] theorem get_apply : (get : StateT σ (Except ε) σ) s = .ok (s, s) := rfl

@[simp] theorem set_apply : (set s' : StateT σ (Except ε) PUnit) s = .ok (⟨⟩, s') := rfl

@[simp] theorem modify_apply (f : σ → σ) :
    (modify f : StateT σ (Except ε) PUnit) s = .ok (⟨⟩, f s) := rfl

@[simp] theorem throw_apply (e : ε) : (throw e : StateT σ (Except ε) α) s = .error e := rfl

/-- A branch is decided before its state is known. -/
@[simp] theorem branch_apply {c : Prop} [Decidable c] (x y : StateT σ (Except ε) α) :
    (if c then x else y) s = if c then x s else y s := by
  split <;> rfl

/-- What comes second starts from the state that is left. -/
theorem bind_of_ok {x : StateT σ (Except ε) α} {a : α} (hx : x s = .ok (a, mid))
    (f : α → StateT σ (Except ε) β) : (x >>= f) s = f a mid := by
  change (x s).bind (fun p => f p.1 p.2) = _
  rw [hx]
  rfl

/-- Nothing comes after an error. -/
theorem bind_of_error {x : StateT σ (Except ε) α} {e : ε} (hx : x s = .error e)
    (f : α → StateT σ (Except ε) β) : (x >>= f) s = .error e := by
  change (x s).bind (fun p => f p.1 p.2) = _
  rw [hx]
  rfl

/-- A function changes the value and leaves the state alone. -/
theorem map_of_ok {x : StateT σ (Except ε) α} {a : α} (hx : x s = .ok (a, mid)) (f : α → β) :
    (f <$> x) s = .ok (f a, mid) := by
  rw [← bind_pure_comp, bind_of_ok hx, pure_apply]

/-- A function has no effect on an error. -/
theorem map_of_error {x : StateT σ (Except ε) α} {e : ε} (hx : x s = .error e) (f : α → β) :
    (f <$> x) s = .error e := by
  rw [← bind_pure_comp, bind_of_error hx]

/-- Two parts are done if the first one is, and the second one from where it has ended. -/
theorem bind_eq_ok_iff {x : StateT σ (Except ε) α} {f : α → StateT σ (Except ε) β} {b : β} :
    (x >>= f) s = .ok (b, s') ↔ ∃ a mid, x s = .ok (a, mid) ∧ f a mid = .ok (b, s') := by
  cases hx : x s with
  | error e => simp [bind_of_error hx]
  | ok p =>
    obtain ⟨a, mid⟩ := p
    simp [bind_of_ok hx]

/-- A mapped value comes from a value, with the same state after it. -/
theorem map_eq_ok_iff {x : StateT σ (Except ε) α} {f : α → β} {b : β} :
    (f <$> x) s = .ok (b, s') ↔ ∃ a, x s = .ok (a, s') ∧ f a = b := by
  rw [← bind_pure_comp, bind_eq_ok_iff]
  constructor
  · rintro ⟨a, mid, hx, hpure⟩
    cases hpure
    exact ⟨a, hx, rfl⟩
  · rintro ⟨a, hx, rfl⟩
    exact ⟨a, s', hx, rfl⟩

/-- A program that goes on only if nothing is wrong has found nothing wrong. -/
theorem ite_error_eq_ok_iff {c : Prop} [Decidable c] {e : ε} {result : Except ε α} {a : α} :
    (if c then .error e else result) = .ok a ↔ ¬c ∧ result = .ok a := by
  split <;> simp_all

/-- Two parts succeed if the first one does, and the second one with its value. -/
theorem except_bind_eq_ok_iff {x : Except ε α} {f : α → Except ε β} {b : β} :
    x >>= f = .ok b ↔ ∃ a, x = .ok a ∧ f a = .ok b := by
  cases x with
  | error e => exact ⟨nofun, nofun⟩
  | ok a => exact ⟨fun h => ⟨a, rfl, h⟩, fun ⟨_, rfl, h⟩ => h⟩

/-- A traversal succeeds if it succeeds on each of the values, with the result for it. -/
theorem except_mapM_eq_ok_iff {f : α → Except ε β} {as : List α} {bs : List β} :
    as.mapM f = .ok bs ↔ as.map f = bs.map .ok := by
  induction as generalizing bs with
  | nil => cases bs <;> simp [pure, Except.pure]
  | cons a as ih =>
    simp only [List.mapM_cons, except_bind_eq_ok_iff, ih, List.map_cons]
    constructor
    · rintro ⟨b, hb, bs', hbs', h⟩
      cases h
      rw [hb, hbs', List.map_cons]
    · intro h
      cases bs with
      | nil => cases h
      | cons b bs =>
        obtain ⟨hb, hbs⟩ := List.cons.inj h
        exact ⟨b, hb, bs, hbs, rfl⟩

/-- Whether what is read of a list is related pair by pair can be told from what is read of each
element. -/
theorem pairwise_iff_of_except_mapM {f : α → Except ε β} {as : List α} {bs : List β}
    (h : as.mapM f = .ok bs) {R : β → β → Prop} :
    bs.Pairwise R ↔ as.Pairwise fun a a' => ∃ b b', f a = .ok b ∧ f a' = .ok b' ∧ R b b' := by
  let Related (x y : Except ε β) : Prop := ∃ b b', x = .ok b ∧ y = .ok b' ∧ R b b'
  have hread : (as.map f).Pairwise Related ↔ (bs.map .ok).Pairwise Related := by
    rw [except_mapM_eq_ok_iff.mp h]
  rw [List.pairwise_map, List.pairwise_map] at hread
  simpa [Related] using hread.symm

/-- Mapping is going on with a value that cannot fail. -/
theorem except_map_eq_bind (result : Except ε α) (f : α → β) :
    result.map f = result >>= fun a => .ok (f a) := by
  cases result <;> rfl

/-- A function that is applied at the end may be applied within the last part. -/
theorem except_map_bind (result : Except ε α) (next : α → Except ε β) (f : β → γ) :
    (result >>= next).map f = result >>= fun a => (next a).map f := by
  cases result <;> rfl

end SignedPrefixes.StateExcept
