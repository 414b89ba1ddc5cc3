import Mathlib
import SignedPrefixes.Ber.Reader

/-!
# Taking octets from an input

Readers only ever take octets from the front of an input. The inputs before and
after are related by the octets taken, which move the position and use up the
limit. Octets taken one after the other are taken together.
-/

namespace SignedPrefixes.Ber.Input

/-- Taking the octets `os` from the front of an input leaves `out`. -/
structure Takes (inp : Input) (os : Octets) (out : Input) : Prop where
  /-- The octets stand at the front. -/
  rest_eq : inp.rest = os ++ out.rest
  /-- The position moves on by their number. -/
  position_eq : out.position = inp.position + os.length
  /-- Less is left of the value around them. -/
  limit_eq : out.limit = inp.limit.map (· - os.length)
  /-- They do not reach past the end of the value around them. -/
  length_le : ∀ n ∈ inp.limit, os.length ≤ n

variable {inp mid out : Input} {os os' : Octets}

/-- Taking no octets leaves the input as it is. -/
theorem Takes.refl (inp : Input) : inp.Takes [] inp := by
  refine ⟨rfl, rfl, ?_, fun n _ => Nat.zero_le n⟩
  cases inp.limit <;> rfl

/-- Octets that are taken one after the other are taken together. -/
theorem Takes.append (htake : inp.Takes os mid) (htake' : mid.Takes os' out) :
    inp.Takes (os ++ os') out := by
  have hlimit := htake'.limit_eq
  have hle := htake'.length_le
  rw [htake.limit_eq] at hlimit hle
  constructor
  · rw [htake.rest_eq, htake'.rest_eq, List.append_assoc]
  · rw [htake'.position_eq, htake.position_eq, List.length_append, Nat.add_assoc]
  · cases hinp : inp.limit with
    | none => simpa [hinp] using hlimit
    | some n =>
      rw [hinp] at hlimit
      simp only [Option.map_some] at hlimit
      rw [hlimit, Option.map_some, List.length_append, Nat.sub_sub]
  · intro n hn
    have hfirst := htake.length_le n hn
    rw [Option.mem_def.mp hn] at hle
    have hsecond := hle (n - os.length) rfl
    rw [List.length_append]
    omega

/-- Octets that are taken together can be taken one part after the other. -/
theorem Takes.split (htake : inp.Takes (os ++ os') out) :
    ∃ mid, inp.Takes os mid ∧ mid.Takes os' out := by
  have hlimit := htake.limit_eq
  have hle := htake.length_le
  rw [List.length_append] at hlimit hle
  refine ⟨⟨os' ++ out.rest, inp.position + os.length, inp.limit.map (· - os.length)⟩,
    ⟨?_, rfl, rfl, ?_⟩, ⟨rfl, ?_, ?_, ?_⟩⟩
  · rw [htake.rest_eq, List.append_assoc]
  · intro n hn
    have hn := hle n hn
    omega
  · rw [htake.position_eq, List.length_append, Nat.add_assoc]
  · cases hinp : inp.limit with
    | none => simpa [hinp] using hlimit
    | some n => simpa [hinp, Nat.sub_sub] using hlimit
  · intro n hn
    obtain ⟨l, hl, rfl⟩ := Option.mem_map.mp hn
    have hl := hle l hl
    omega

/-- One octet and then others are taken together. -/
theorem Takes.cons {o : UInt8} (htake : inp.Takes [o] mid) (htake' : mid.Takes os out) :
    inp.Takes (o :: os) out := by
  rw [← List.singleton_append]
  exact htake.append htake'

/-- Octets that are taken together are taken from the first one on. -/
theorem Takes.split_cons {o : UInt8} (htake : inp.Takes (o :: os) out) :
    ∃ mid, inp.Takes [o] mid ∧ mid.Takes os out := by
  rw [← List.singleton_append] at htake
  exact htake.split

/-- Nothing else is left after taking no octets. -/
theorem Takes.eq_of_nil (htake : inp.Takes [] out) : out = inp := by
  obtain ⟨hrest, hposition, hlimit, -⟩ := htake
  obtain ⟨rest, position, limit⟩ := inp
  obtain ⟨rest', position', limit'⟩ := out
  cases limit <;> simp_all

/-- A value of definite length that takes up what it may take leaves the limit
around it with as much less. -/
theorem Takes.of_within {n : ℕ} {inner : Input}
    (htake : ({ inp with limit := some n } : Input).Takes os inner) (hinner : inner.limit = some 0)
    (hle : ∀ l ∈ inp.limit, n ≤ l) :
    os.length = n ∧ inp.Takes os { inner with limit := inp.limit.map (· - n) } := by
  have hlimit := htake.limit_eq
  have hlength := htake.length_le n rfl
  rw [hinner, Option.map_some, Option.some.injEq] at hlimit
  have hn : os.length = n := by omega
  subst hn
  exact ⟨rfl, htake.rest_eq, htake.position_eq, rfl, hle⟩

/-- Octets can also be taken if nothing but them is in reach, and then no more are. -/
theorem Takes.within (htake : inp.Takes os out) :
    ({ inp with limit := some os.length } : Input).Takes os { out with limit := some 0 } := by
  refine ⟨htake.rest_eq, htake.position_eq, by simp, ?_⟩
  intro n hn
  obtain rfl := Option.some.inj (Option.mem_def.mp hn)
  exact Nat.le_refl _

/-- There is no next octet at the end of a value. -/
theorem next?_eq_none (hlimit : inp.limit = some 0) : inp.next? = none := by
  obtain ⟨rest, position, limit⟩ := inp
  subst hlimit
  rfl

/-- The next octet is the one that can be taken. -/
theorem next?_eq_some_iff {o : UInt8} : inp.next? = some (o, out) ↔ inp.Takes [o] out := by
  constructor
  · intro hnext
    obtain ⟨rest, position, limit⟩ := inp
    cases rest with
    | nil =>
      rcases limit with _ | _ | n <;> cases hnext
    | cons o' rest =>
      rcases limit with _ | _ | n
      · cases hnext
        exact ⟨rfl, rfl, rfl, by simp⟩
      · cases hnext
      · cases hnext
        refine ⟨rfl, rfl, rfl, ?_⟩
        intro l hl
        obtain rfl := Option.some.inj (Option.mem_def.mp hl)
        exact Nat.succ_le_succ (Nat.zero_le n)
  · rintro ⟨hrest, hposition, hlimit, hle⟩
    obtain ⟨rest, position, limit⟩ := inp
    obtain ⟨rest', position', limit'⟩ := out
    simp only [List.singleton_append, List.length_singleton] at hrest hposition hlimit hle
    subst hrest hposition hlimit
    rcases limit with _ | _ | n
    · rfl
    · exact absurd (hle 0 rfl) (by decide)
    · rfl

/-- The next octets are those that can be taken, as many as are asked for. -/
theorem take?_eq_some_iff {n : ℕ} :
    inp.take? n = some (os, out) ↔ inp.Takes os out ∧ os.length = n := by
  obtain ⟨rest, position, limit⟩ := inp
  obtain ⟨rest', position', limit'⟩ := out
  simp only [take?, Option.ite_none_right_eq_some, Option.map_eq_some_iff, Prod.exists,
    Octets.splitAt?_eq_some_iff, Prod.mk.injEq, Input.mk.injEq, Option.all_eq_true,
    decide_eq_true_eq]
  constructor
  · rintro ⟨hle, front, back, ⟨rfl, rfl⟩, rfl, rfl, rfl, rfl⟩
    exact ⟨⟨rfl, rfl, rfl, hle⟩, rfl⟩
  · rintro ⟨⟨hrest, hposition, hlimit, hle⟩, rfl⟩
    exact ⟨hle, os, rest', ⟨hrest, rfl⟩, rfl, rfl, hposition.symm, hlimit.symm⟩

end SignedPrefixes.Ber.Input
