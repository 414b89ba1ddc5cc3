import SignedPrefixes.Octets

/-!
# Address families

The two families of addresses, in their order: IPv4 comes before IPv6. Encoded
forms name a family by its address family number.
-/

namespace SignedPrefixes

/-- The family of an address. -/
inductive Family where
  | ipv4
  | ipv6
  deriving DecidableEq, Repr

namespace Family

/-- The address family number. -/
def afi : Family → UInt8
  | ipv4 => 1
  | ipv6 => 2

/-- The family with an address family number. -/
def ofAfi? (n : UInt8) : Option Family :=
  if n = 1 then some ipv4 else if n = 2 then some ipv6 else none

/-- The number of bits of an address. -/
def width : Family → Nat
  | ipv4 => 32
  | ipv6 => 128

/-- The number of octets of an address. -/
def octetCount : Family → Nat
  | ipv4 => 4
  | ipv6 => 16

instance : ToString Family where
  toString
    | ipv4 => "IPv4"
    | ipv6 => "IPv6"

instance : Ord Family := ⟨compareOn afi⟩

instance : Std.TransOrd Family := inferInstanceAs (Std.TransCmp (compareOn afi))

instance : Std.LawfulEqOrd Family where
  eq_of_compare {a b} h := by
    have hafi : a.afi = b.afi := Std.LawfulEqOrd.eq_of_compare h
    revert hafi
    cases a <;> cases b <;> decide

/-- The two octets that name a family in signed content. There is no octet for a
subsequent family. -/
def octets (f : Family) : Octets := [0, f.afi]

/-- The family that octets in signed content name. -/
def ofOctets? (os : Octets) : Option Family :=
  if os = ipv4.octets then some ipv4 else if os = ipv6.octets then some ipv6 else none

/-- No family has addresses of more than 128 bits. -/
theorem width_le (f : Family) : f.width ≤ 128 := by cases f <;> decide

/-- The bits of an address are those of its octets. -/
theorem width_eq (f : Family) : f.width = 8 * f.octetCount := by cases f <;> rfl

/-- No family has addresses of more than 16 octets. -/
theorem octetCount_le (f : Family) : f.octetCount ≤ 16 := by cases f <;> decide

/-- Each family has one number, and other numbers have no family. -/
theorem ofAfi?_eq_some_iff {n : UInt8} {f : Family} : ofAfi? n = some f ↔ n = f.afi := by
  cases f <;> simp only [ofAfi?, afi] <;> split <;> simp_all

/-- Each family has one pair of octets, and other octets have no family. -/
theorem ofOctets?_eq_some_iff {os : Octets} {f : Family} :
    ofOctets? os = some f ↔ os = f.octets := by
  by_cases h4 : os = ipv4.octets
  · subst h4
    cases f <;> decide
  · by_cases h6 : os = ipv6.octets
    · subst h6
      cases f <;> decide
    · cases f <;> simp [ofOctets?, h4, h6]

end Family

end SignedPrefixes
