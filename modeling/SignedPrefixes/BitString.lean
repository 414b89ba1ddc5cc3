import SignedPrefixes.Octets

/-!
# Bit strings

A bit string is a sequence of octets of which the last few bits do not count.
There are at most seven such bits, and none if there is no octet.
-/

namespace SignedPrefixes

/-- A string of bits, packed into octets. -/
structure BitString where
  /-- The octets, the last of which may have unused bits at its end. -/
  octets : Octets
  /-- The number of unused bits. -/
  unused : Nat
  unused_le : unused ≤ 7
  unused_eq_zero : octets = [] → unused = 0
  deriving DecidableEq, Repr

namespace BitString

/-- The bit string with the given octets and number of unused bits, if there is one. -/
def new? (octets : Octets) (unused : Nat) : Option BitString :=
  if h : unused ≤ 7 ∧ (octets = [] → unused = 0) then some ⟨octets, unused, h.1, h.2⟩ else none

/-- The number of bits that count. -/
def length (s : BitString) : Nat := 8 * s.octets.length - s.unused

/-- Whether one of the unused bits is set. -/
def hasUnusedBits (s : BitString) : Bool :=
  match s.octets.getLast? with
  | some last => last.toNat % (1 <<< s.unused) ≠ 0
  | none => false

/-- A bit string keeps the octets and the number of unused bits it is made of. -/
theorem new?_eq_some_iff {octets : Octets} {unused : Nat} {s : BitString} :
    new? octets unused = some s ↔ s.octets = octets ∧ s.unused = unused := by
  unfold new?
  constructor
  · intro h
    split at h
    · obtain rfl := Option.some.inj h
      exact ⟨rfl, rfl⟩
    · cases h
  · rintro ⟨rfl, rfl⟩
    rw [dif_pos ⟨s.unused_le, s.unused_eq_zero⟩]

end BitString

end SignedPrefixes
