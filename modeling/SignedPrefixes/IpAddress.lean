import SignedPrefixes.Ipv6

/-!
# Addresses of either family

`IpAddress` is an address whose family is known, as it is read and printed.
`Address` is the form in which prefixes and ranges keep addresses of both
families: 128 bits in which an IPv4 address takes the upper 32. Lengths then
count from the top for both families, and numeric order is the order of the
octets.
-/

namespace SignedPrefixes

/-- An address with its family. -/
inductive IpAddress where
  /-- An IPv4 address. -/
  | ipv4 (address : Ipv4)
  /-- An IPv6 address. -/
  | ipv6 (address : Ipv6)
  deriving DecidableEq, Repr

namespace IpAddress

/-- The characters of an address. -/
def chars : IpAddress → List Char
  | ipv4 a => a.chars
  | ipv6 a => a.chars

instance : ToString IpAddress := ⟨fun a => String.ofList a.chars⟩

/-- Reads an address of either family that takes up the whole text. -/
def read? (cs : List Char) : Option IpAddress :=
  match Ipv4.read? cs with
  | some a => some (ipv4 a)
  | none => (Ipv6.read? cs).map ipv6

end IpAddress

/-- An address of either family, aligned to the top of 128 bits. -/
structure Address where
  /-- The first bit of the address is the most significant one. -/
  bits : BitVec 128
  deriving DecidableEq, Repr

namespace Address

instance : Ord Address := ⟨compareOn fun a => a.bits.toNat⟩

instance : Std.TransOrd Address :=
  inferInstanceAs (Std.TransCmp (compareOn fun a : Address => a.bits.toNat))

instance : LE Address := ⟨fun a b => a.bits.toNat ≤ b.bits.toNat⟩

instance : LT Address := ⟨fun a b => a.bits.toNat < b.bits.toNat⟩

instance (a b : Address) : Decidable (a ≤ b) :=
  inferInstanceAs (Decidable (a.bits.toNat ≤ b.bits.toNat))

instance (a b : Address) : Decidable (a < b) :=
  inferInstanceAs (Decidable (a.bits.toNat < b.bits.toNat))

/-- Places an IPv4 address in the upper 32 bits. -/
def ofIpv4 (a : Ipv4) : Address := ⟨a.bits.setWidth 128 <<< 96⟩

/-- Keeps all bits of an IPv6 address. -/
def ofIpv6 (a : Ipv6) : Address := ⟨a.bits⟩

/-- The address without its family. -/
def ofIpAddress : IpAddress → Address
  | .ipv4 a => ofIpv4 a
  | .ipv6 a => ofIpv6 a

/-- The upper 32 bits as an IPv4 address. -/
def toIpv4 (a : Address) : Ipv4 := ⟨(a.bits >>> 96).setWidth 32⟩

/-- All bits as an IPv6 address. -/
def toIpv6 (a : Address) : Ipv6 := ⟨a.bits⟩

/-- The sixteen octets in network order. -/
def octets (a : Address) : Octets := Octets.ofNat 16 a.bits.toNat

/-- The address that starts with the given octets, of which there are at most
sixteen, and is zero after them. -/
def ofOctets (os : Octets) : Address :=
  ⟨BitVec.ofNat 128 (Octets.toNat (os ++ List.replicate (16 - os.length) 0))⟩

/-- Clears all but the first `length` bits. -/
def clearAfter (a : Address) (length : Nat) : Address :=
  ⟨(a.bits >>> (128 - length)) <<< (128 - length)⟩

/-- Sets all but the first `length` bits. -/
def fillAfter (a : Address) (length : Nat) : Address :=
  ⟨a.bits ||| (BitVec.allOnes 128 >>> length)⟩

/-- Addresses are equal if their numbers are. -/
theorem ext_toNat {a b : Address} (h : a.bits.toNat = b.bits.toNat) : a = b := by
  cases a
  cases b
  exact congrArg mk (BitVec.eq_of_toNat_eq h)

instance : Std.LawfulEqOrd Address where
  eq_of_compare h := ext_toNat (Std.LawfulEqOrd.eq_of_compare h)

/-- Bits that are cleared stay clear. -/
@[simp] theorem clearAfter_clearAfter (a : Address) (length : Nat) :
    (a.clearAfter length).clearAfter length = a.clearAfter length := by
  refine congrArg mk (BitVec.eq_of_getLsbD_eq fun i hi => ?_)
  by_cases h : i < 128 - length
  · simp [clearAfter, h]
  · have hback : 128 - length + (i - (128 - length)) = i := by omega
    simp [clearAfter, h, hi, hback]

end Address

end SignedPrefixes
