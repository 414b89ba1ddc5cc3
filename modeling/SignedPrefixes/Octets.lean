import SignedPrefixes.Positional

/-!
# Octet strings

Octet strings are lists, so that what a reader leaves over is again an octet
string. Numbers have a fixed-width form in network order.
-/

namespace SignedPrefixes

/-- A string of octets. -/
abbrev Octets := List UInt8

namespace Octets

/-- The last `width` octets of a number in network order. -/
def ofNat (width n : Nat) : Octets := (Positional.digits 256 width n).map UInt8.ofNat

/-- The number that octets stand for in network order. -/
def toNat (os : Octets) : Nat := Positional.value 256 (os.map UInt8.toNat)

/-- The first `n` octets and what follows them, if there are that many. -/
def splitAt? (n : Nat) (os : Octets) : Option (Octets × Octets) :=
  let front := os.take n
  if front.length = n then some (front, os.drop n) else none

/-- A number is written in as many octets as it is given. -/
@[simp] theorem length_ofNat (width n : Nat) : (ofNat width n).length = width := by
  simp [ofNat]

/-- Octets are split where they are the front and the rest, in one way at most. -/
theorem splitAt?_eq_some_iff {n : Nat} {os front rest : Octets} :
    splitAt? n os = some (front, rest) ↔ os = front ++ rest ∧ front.length = n := by
  simp only [splitAt?, Option.ite_none_right_eq_some, Option.some.injEq, Prod.mk.injEq]
  constructor
  · rintro ⟨hlen, rfl, rfl⟩
    exact ⟨(List.take_append_drop n os).symm, hlen⟩
  · rintro ⟨rfl, rfl⟩
    simp

/-- Octets are not split only if there are too few of them. -/
theorem splitAt?_eq_none_iff {n : Nat} {os : Octets} : splitAt? n os = none ↔ os.length < n := by
  simp only [splitAt?, ite_eq_right_iff, reduceCtorEq, imp_false, List.length_take]
  omega

end Octets

end SignedPrefixes
