import SignedPrefixes.Proofs.Ber.Lenient

/-!
# Local readers

What a reader comes to should not depend on octets behind those that it takes. A reader
that need not find a value may also stop because there are no octets left, and then it
might have gone on with more of them. Inside a value that is all that can happen, since the
value around it is not read to its end then. So a whole value is read alike, whatever
follows it.
-/

namespace SignedPrefixes.Ber

open Reader StateExcept

variable {ε α β σ : Type}

namespace Input

variable {inp mid out : Input} {os : Octets} {o : UInt8} {more : Octets}

/-- The input with further octets behind it. -/
def append (inp : Input) (more : Octets) : Input := { inp with rest := inp.rest ++ more }

/-- No octets are left, although the value around them is not at its end. -/
def Exhausted (inp : Input) : Prop := inp.rest = [] ∧ inp.limit ≠ some 0

/-- Octets are taken on the way from `inp` to `out`, whatever happens to the limit. -/
def Advances (inp out : Input) : Prop :=
  ∃ os, inp.rest = os ++ out.rest ∧ out.position = inp.position + os.length

/-- Nothing need be taken on the way. -/
theorem Advances.refl (inp : Input) : inp.Advances inp := ⟨[], rfl, rfl⟩

/-- Ways may follow each other. -/
theorem Advances.trans (h : inp.Advances mid) (h' : mid.Advances out) : inp.Advances out := by
  obtain ⟨os, hrest, hposition⟩ := h
  obtain ⟨os', hrest', hposition'⟩ := h'
  refine ⟨os ++ os', ?_, ?_⟩
  · rw [hrest, hrest', List.append_assoc]
  · rw [hposition', hposition, List.length_append, Nat.add_assoc]

/-- The position does not go back on the way. -/
theorem Advances.position_le (h : inp.Advances out) : inp.position ≤ out.position := by
  obtain ⟨os, -, hposition⟩ := h
  omega

/-- The octets ahead get fewer as the position moves on. -/
theorem Advances.position_add_length (h : inp.Advances out) :
    out.position + out.rest.length = inp.position + inp.rest.length := by
  obtain ⟨os, hrest, hposition⟩ := h
  rw [hrest, hposition, List.length_append, Nat.add_assoc]

/-- Taking octets is a way. -/
theorem Takes.advances (h : inp.Takes os out) : inp.Advances out :=
  ⟨os, h.rest_eq, h.position_eq⟩

/-- Octets are taken the same way with others behind the input. -/
theorem Takes.append_more (h : inp.Takes os out) (more : Octets) :
    (inp.append more).Takes os (out.append more) := by
  refine ⟨?_, h.position_eq, h.limit_eq, h.length_le⟩
  change inp.rest ++ more = os ++ (out.rest ++ more)
  rw [h.rest_eq, List.append_assoc]

/-- There is no next octet where none are left. -/
theorem next?_of_exhausted (h : inp.Exhausted) : inp.next? = none := by
  obtain ⟨rest, position, limit⟩ := inp
  obtain ⟨rfl, -⟩ : rest = [] ∧ _ := h
  rcases limit with _ | _ | n <;> rfl

/-- The next octet is the same with others behind the input. -/
theorem next?_append (h : inp.next? = some (o, out)) (more : Octets) :
    (inp.append more).next? = some (o, out.append more) :=
  next?_eq_some_iff.mpr ((next?_eq_some_iff.mp h).append_more more)

/-- If there is a next octet only with others behind the input, then octets were missing. -/
theorem next?_append_of_none (h : inp.next? = none) (hleft : ¬inp.Exhausted) (more : Octets) :
    (inp.append more).next? = none := by
  apply next?_eq_none
  obtain ⟨rest, position, limit⟩ := inp
  by_contra hlimit
  cases rest with
  | nil => exact hleft ⟨rfl, hlimit⟩
  | cons o rest =>
    rcases limit with _ | _ | n
    · cases h
    · exact hlimit rfl
    · cases h

end Input

namespace Reader

/-- A reader that comes to the same whatever octets follow. -/
def Local (r : Reader ε α) : Prop := ∀ ⦃inp a out⦄, r inp = .ok (a, out) →
  inp.Advances out ∧ ∀ more, r (inp.append more) = .ok (a, out.append more)

/-- A reader that comes to the same whatever octets follow, unless it stops for want of
octets before the value around it has ended. -/
def LocalInside (r : Reader ε α) : Prop := ∀ ⦃inp a out⦄, r inp = .ok (a, out) →
  inp.Advances out ∧ (¬out.Exhausted → ∀ more, r (inp.append more) = .ok (a, out.append more))

/-- A reader that may stop for want of octets, but not if it finds something. Then it has
taken at least one octet. -/
structure LocalOptional (r : Reader ε (Option α)) : Prop where
  /-- The reader may stop for want of octets. -/
  inside : LocalInside r
  /-- What is found has taken an octet and does not depend on those that follow. -/
  found : ∀ ⦃inp a out⦄, r inp = .ok (some a, out) →
    inp.position < out.position ∧ ∀ more, r (inp.append more) = .ok (some a, out.append more)

/-- A reader that comes to nothing without octets. -/
def NeedsOctets (r : Reader ε α) : Prop := ∀ inp p, inp.Exhausted → r inp ≠ .ok p

/-- A reader that takes at least one octet. -/
def Progresses (r : Reader ε α) : Prop := ∀ ⦃inp a out⦄, r inp = .ok (a, out) →
  inp.position < out.position

section Laws

variable {r : Reader ε α} {f : α → Reader ε β}

/-- A reader that fails is local, because it comes to nothing. -/
theorem Fails.local (hr : Fails r) : Local r := fun inp a out h => absurd h (hr inp (a, out))

/-- A value does not depend on octets. -/
theorem Local.pure (a : α) : Local (pure a : Reader ε α) := by
  intro inp a' out h
  cases h
  exact ⟨.refl inp, fun more => rfl⟩

/-- The position does not depend on the octets ahead. -/
theorem Local.position : Local (position : Reader ε ℕ) := by
  intro inp a out h
  cases h
  exact ⟨.refl inp, fun more => rfl⟩

/-- What is made up of two local parts is local. -/
theorem Local.bind (hr : Local r) (hf : ∀ a, Local (f a)) : Local (r >>= f) := by
  intro inp b out h
  obtain ⟨a, mid, ha, hb⟩ := bind_eq_ok_iff.mp h
  obtain ⟨hfirst, hmore⟩ := hr ha
  obtain ⟨hsecond, hmore'⟩ := hf a hb
  refine ⟨hfirst.trans hsecond, fun more => ?_⟩
  rw [bind_of_ok (hmore more), hmore' more]

/-- A function of what a local reader finds is local. -/
theorem Local.map (hr : Local r) (f : α → β) : Local (f <$> r) := by
  rw [← bind_pure_comp]
  exact hr.bind fun a => .pure _

/-- A choice between local readers is local. -/
theorem Local.ite {c : Prop} [Decidable c] {r r' : Reader ε α} (hr : Local r) (hr' : Local r') :
    Local (if c then r else r') := by
  split
  · exact hr
  · exact hr'

/-- A check before a reader may fail, but does nothing else. -/
theorem Local.check {c : Prop} [Decidable c] {bad : Reader ε α} (hbad : Fails bad) (hr : Local r) :
    Local (if c then bad else r) := hbad.local.ite hr

/-- Of the input a reader may look at what does not depend on the octets ahead. -/
theorem Local.get_bind {f : Input → Reader ε α} (hsame : ∀ inp more, f (inp.append more) = f inp)
    (hf : ∀ inp, Local (f inp)) : Local (get >>= f) := by
  intro inp a out h
  rw [bind_of_ok get_apply] at h
  obtain ⟨hadvances, hmore⟩ := hf inp h
  refine ⟨hadvances, fun more => ?_⟩
  rw [bind_of_ok get_apply, hsame, hmore]

/-- The limit may be set without looking at octets. -/
theorem Local.setLimit (limit : Option ℕ) :
    Local (modify fun inp => { inp with limit } : Reader ε PUnit) := by
  intro inp a out h
  cases h
  exact ⟨⟨[], rfl, rfl⟩, fun more => rfl⟩

/-- A local reader is local also inside a value. -/
theorem Local.inside (hr : Local r) : LocalInside r := by
  intro inp a out h
  obtain ⟨hadvances, hmore⟩ := hr h
  exact ⟨hadvances, fun _ => hmore⟩

/-- Whoever stops for want of octets is found out by a reader that needs some. -/
theorem LocalInside.bind (hr : LocalInside r) (hf : ∀ a, Local (f a))
    (hneeds : ∀ a, NeedsOctets (f a)) : Local (r >>= f) := by
  intro inp b out h
  obtain ⟨a, mid, ha, hb⟩ := bind_eq_ok_iff.mp h
  obtain ⟨hfirst, hmore⟩ := hr ha
  obtain ⟨hsecond, hmore'⟩ := hf a hb
  have hleft : ¬mid.Exhausted := fun hexhausted => hneeds a mid _ hexhausted hb
  refine ⟨hfirst.trans hsecond, fun more => ?_⟩
  rw [bind_of_ok (hmore hleft more), hmore' more]

/-- A function of what is found does not matter for how a reader stops. -/
theorem LocalInside.map (hr : LocalInside r) (f : α → β) : LocalInside (f <$> r) := by
  intro inp b out h
  obtain ⟨a, ha, rfl⟩ := map_eq_ok_iff.mp h
  obtain ⟨hadvances, hmore⟩ := hr ha
  exact ⟨hadvances, fun hleft more => map_of_ok (hmore hleft more) f⟩

/-- A value that is returned at the end does not matter for how a reader stops. -/
theorem LocalInside.bind_pure (hr : LocalInside r) (f : α → β) :
    LocalInside (r >>= fun a => Pure.pure (f a)) := by
  rw [bind_pure_comp]
  exact hr.map f

/-- What starts with a reader that needs octets needs octets. -/
theorem NeedsOctets.bind (hr : NeedsOctets r) (f : α → Reader ε β) : NeedsOctets (r >>= f) := by
  rintro inp ⟨b, out⟩ hexhausted h
  obtain ⟨a, mid, ha, -⟩ := bind_eq_ok_iff.mp h
  exact hr inp _ hexhausted ha

/-- A function of what is found does not change that octets are needed. -/
theorem NeedsOctets.map (hr : NeedsOctets r) (f : α → β) : NeedsOctets (f <$> r) := by
  rw [← bind_pure_comp]
  exact hr.bind _

/-- What starts by taking an octet takes one as a whole. -/
theorem Local.bind_progresses (hr : Local r ∧ Progresses r) (hf : ∀ a, Local (f a)) :
    Local (r >>= f) ∧ Progresses (r >>= f) := by
  refine ⟨hr.1.bind hf, ?_⟩
  intro inp b out h
  obtain ⟨a, mid, ha, hb⟩ := bind_eq_ok_iff.mp h
  exact (hr.2 ha).trans_le (hf a hb).1.position_le

section Optional

variable {r : Reader ε (Option α)} {f : Option α → Reader ε β}

/-- What goes on only if something was found is local. -/
theorem LocalOptional.bind (hr : LocalOptional r) (hnone : Fails (f none))
    (hsome : ∀ a, Local (f (some a))) : Local (r >>= f) := by
  intro inp b out h
  obtain ⟨a?, mid, ha, hb⟩ := bind_eq_ok_iff.mp h
  cases a? with
  | none => exact absurd hb (hnone mid _)
  | some a =>
    obtain ⟨hfirst, -⟩ := hr.inside ha
    obtain ⟨hsecond, hmore⟩ := hsome a hb
    refine ⟨hfirst.trans hsecond, fun more => ?_⟩
    rw [bind_of_ok ((hr.found ha).2 more), hmore]

/-- What ends if nothing was found may have ended for want of octets. -/
theorem LocalOptional.bind_inside (hr : LocalOptional r) {b : β} (hnone : f none = Pure.pure b)
    (hsome : ∀ a, Local (f (some a))) : LocalInside (r >>= f) := by
  intro inp b' out h
  obtain ⟨a?, mid, ha, hb⟩ := bind_eq_ok_iff.mp h
  obtain ⟨hfirst, hmore⟩ := hr.inside ha
  cases a? with
  | none =>
    rw [hnone] at hb
    cases hb
    refine ⟨hfirst, fun hleft more => ?_⟩
    rw [bind_of_ok (hmore hleft more), hnone, pure_apply]
  | some a =>
    obtain ⟨hsecond, hmore'⟩ := hsome a hb
    refine ⟨hfirst.trans hsecond, fun _ more => ?_⟩
    rw [bind_of_ok ((hr.found ha).2 more), hmore']

/-- What finds nothing more if nothing was found, and is local otherwise, is a value that need not
be there. -/
theorem LocalOptional.bind_optional {f : Option α → Reader ε (Option β)} (hr : LocalOptional r)
    (hnone : f none = Pure.pure none) (hsome : ∀ a, Local (f (some a))) :
    LocalOptional (r >>= f) where
  inside := hr.bind_inside hnone hsome
  found := by
    intro inp b out h
    obtain ⟨a?, mid, ha, hb⟩ := bind_eq_ok_iff.mp h
    cases a? with
    | none =>
      rw [hnone] at hb
      cases hb
    | some a =>
      obtain ⟨hposition, hmore⟩ := hr.found ha
      obtain ⟨hsecond, hmore'⟩ := hsome a hb
      refine ⟨hposition.trans_le hsecond.position_le, fun more => ?_⟩
      rw [bind_of_ok (hmore more), hmore']

/-- A value that must be there is local, because it does not stop for want of octets. -/
theorem LocalOptional.mandatory (hr : LocalOptional r) : Local (mandatory r) :=
  hr.bind (fails_failHere _) fun a => .pure a

end Optional

/-- A value is read to its end, so its content did not stop for want of octets. -/
theorem LocalInside.within (hr : LocalInside r) (n : ℕ) : Local (within n r) := by
  intro inp a out h
  obtain ⟨inner, hread, hend, hfits, rfl⟩ := within_eq_ok h
  obtain ⟨⟨os, hrest, hposition⟩, hmore⟩ := hr hread
  -- The limit is zero at the end, so the content did not stop for want of octets.
  have hleft : ¬inner.Exhausted := fun hexhausted => hexhausted.2 hend
  have hfits' : ¬inp.limit.any (· < n) = true := by
    rw [Option.any_eq_true]
    rintro ⟨l, hl, hlt⟩
    exact absurd (hfits l hl) (by simpa using hlt)
  refine ⟨⟨os, hrest, hposition⟩, fun more => ?_⟩
  have hread' : r { inp.append more with limit := some n } = .ok (a, inner.append more) :=
    hmore hleft more
  have hend' : (inner.append more).limit = some 0 := hend
  unfold Ber.within
  simp only [bind_of_ok get_apply, branch_apply, bind_of_ok (modify_apply _)]
  rw [if_neg (show ¬(inp.append more).limit.any (· < n) = true from hfits'), bind_of_ok hread']
  simp only [bind_of_ok get_apply, branch_apply, hend', ne_eq, not_true_eq_false, if_false,
    bind_of_ok (modify_apply _), pure_apply]
  rfl

section Octets

variable {f : Option UInt8 → Reader ε α} {g : Option Octets → Reader ε α}

/-- What starts with an octet that must be there takes an octet. -/
theorem Local.octet?_bind (hnone : Fails (f none)) (hsome : ∀ o, Local (f (some o))) :
    Local (octet? >>= f) ∧ Progresses (octet? >>= f) := by
  have hread {inp : Input} {a : α} {out : Input} (h : (octet? >>= f) inp = .ok (a, out)) :
      ∃ o mid, inp.Takes [o] mid ∧ f (some o) mid = .ok (a, out) := by
    obtain ⟨o?, mid, ho, hf⟩ := bind_eq_ok_iff.mp h
    cases o? with
    | none => exact absurd hf (hnone mid _)
    | some o => exact ⟨o, mid, octet?_eq_ok_some_iff.mp ho, hf⟩
  constructor
  · intro inp a out h
    obtain ⟨o, mid, htake, hf⟩ := hread h
    obtain ⟨hadvances, hmore⟩ := hsome o hf
    refine ⟨htake.advances.trans hadvances, fun more => ?_⟩
    rw [bind_of_ok (octet?_eq_ok_some_iff.mpr (htake.append_more more)), hmore]
  · intro inp a out h
    obtain ⟨o, mid, htake, hf⟩ := hread h
    have hposition := htake.position_eq
    have hle := (hsome o hf).1.position_le
    rw [hposition] at hle
    exact hle

/-- What starts with octets that must be there is local. -/
theorem Local.octets?_bind (n : ℕ) (hnone : Fails (g none)) (hsome : ∀ os, Local (g (some os))) :
    Local (octets? n >>= g) := by
  intro inp a out h
  obtain ⟨os?, mid, hos, hg⟩ := bind_eq_ok_iff.mp h
  cases os? with
  | none => exact absurd hg (hnone mid _)
  | some os =>
    obtain ⟨htake, hlength⟩ := octets?_eq_ok_some_iff.mp hos
    obtain ⟨hadvances, hmore⟩ := hsome os hg
    refine ⟨htake.advances.trans hadvances, fun more => ?_⟩
    rw [bind_of_ok (octets?_eq_ok_some_iff.mpr ⟨htake.append_more more, hlength⟩), hmore]

end Octets

section Iterate

variable {step : σ → Reader ε (Option σ)}

/-- A step that takes octets when it finds something leaves fewer of them ahead. -/
theorem LocalOptional.shrinks (hstep : ∀ s, LocalOptional (step s)) : Shrinks step := by
  intro s inp s' out h
  obtain ⟨hadvances, -⟩ := (hstep s).inside h
  obtain ⟨hposition, -⟩ := (hstep s).found h
  have hahead := hadvances.position_add_length
  omega

/-- A loop ends with a step that finds nothing, and goes the same way with more octets if
that step does. -/
theorem Runs.append (hstep : ∀ s, LocalOptional (step s)) {s s' : σ} {inp out : Input}
    (h : Runs step s inp s' out) :
    inp.Advances out ∧ ∃ last, step s' last = .ok (none, out) ∧
      ∀ more, step s' (last.append more) = .ok (none, out.append more) →
        Runs step s (inp.append more) s' (out.append more) := by
  induction h with
  | @done s inp out hread => exact ⟨((hstep s).inside hread).1, inp, hread, fun _ => .done⟩
  | @next s s' s'' inp mid out hread _ ih =>
    obtain ⟨hfirst, -⟩ := (hstep s).inside hread
    obtain ⟨-, hmore⟩ := (hstep s).found hread
    obtain ⟨hadvances, last, hlast, hgo⟩ := ih
    exact ⟨hfirst.trans hadvances, last, hlast, fun more hend => .next (hmore more) (hgo more hend)⟩

/-- A loop over values that need not be there is local inside a value. It can only stop for want of
octets in its last step. -/
theorem LocalInside.iterate (hstep : ∀ s, LocalOptional (step s)) (s : σ) :
    LocalInside (iterate step s) := by
  have hshrinks := LocalOptional.shrinks hstep
  intro inp s' out h
  obtain ⟨hadvances, last, hlast, hgo⟩ := ((iterate_eq_ok_iff hshrinks).mp h).append hstep
  refine ⟨hadvances, fun hleft more => (iterate_eq_ok_iff hshrinks).mpr ?_⟩
  exact hgo more (((hstep s').inside hlast).2 hleft more)

/-- A loop whose end does not depend on what follows is local. -/
theorem Local.iterate (hstep : ∀ s, Local (step s)) (hshrinks : Shrinks step) (s : σ) :
    Local (iterate step s) := by
  have hoptional (s : σ) : LocalOptional (step s) := by
    refine ⟨(hstep s).inside, fun inp s' out h => ?_⟩
    obtain ⟨hadvances, hmore⟩ := hstep s h
    have hahead := hadvances.position_add_length
    have hfewer := hshrinks h
    exact ⟨by omega, hmore⟩
  intro inp s' out h
  obtain ⟨hadvances, last, hlast, hgo⟩ := ((iterate_eq_ok_iff hshrinks).mp h).append hoptional
  refine ⟨hadvances, fun more => (iterate_eq_ok_iff hshrinks).mpr ?_⟩
  exact hgo more ((hstep s' hlast).2 more)

end Iterate

end Laws

end Reader

end SignedPrefixes.Ber
