import SignedPrefixes.Numeral
import SignedPrefixes.Prefix

/-!
# Prefixes of a family

The entries of prefix lists are prefixes whose family is known. They have one
order, which sorting, duplicate removal and merging all use: IPv4 before IPv6,
then by address, then by length. The text is the address and the length with a
slash between them.
-/

namespace SignedPrefixes

/-- A prefix of an address family. An IPv4 prefix is zero after its first 32 bits
because it is no longer than that. -/
structure IpPrefix where
  /-- The family of the covered addresses. -/
  family : Family
  /-- The leading bits. -/
  bits : Prefix
  length_le : bits.length ≤ family.width
  deriving DecidableEq, Repr

namespace IpPrefix

/-- The leading bits as a prefix of a family, if an address of the family has that
many bits. -/
def new? (family : Family) (bits : Prefix) : Option IpPrefix :=
  if h : bits.length ≤ family.width then some ⟨family, bits, h⟩ else none

/-- The first `length` bits of an address, if it has that many. -/
def ofIpAddress? (a : IpAddress) (length : Nat) : Option IpPrefix :=
  let family := match a with
    | .ipv4 _ => Family.ipv4
    | .ipv6 _ => Family.ipv6
  (Prefix.new? (Address.ofIpAddress a) length).bind (new? family)

/-- The number of leading bits. -/
def length (p : IpPrefix) : Nat := p.bits.length

/-- The address of a prefix in its family. -/
def address (p : IpPrefix) : IpAddress :=
  match p.family with
  | .ipv4 => .ipv4 p.bits.address.toIpv4
  | .ipv6 => .ipv6 p.bits.address.toIpv6

/-- IPv4 before IPv6, then by address, then by length. -/
instance : Ord IpPrefix where
  compare := compareLex (compareOn family)
    (compareLex (compareOn fun p => p.bits.address) (compareOn length))

instance : Std.TransOrd IpPrefix :=
  inferInstanceAs <| Std.TransCmp <| compareLex (compareOn family) <|
    compareLex (compareOn fun p : IpPrefix => p.bits.address) (compareOn length)

instance : Std.LawfulEqOrd IpPrefix where
  eq_of_compare {p q} h := by
    obtain ⟨hfamily, hrest⟩ := Ordering.then_eq_eq.mp h
    obtain ⟨haddress, hlength⟩ := Ordering.then_eq_eq.mp hrest
    have hfamily := Std.LawfulEqOrd.eq_of_compare hfamily
    have haddress := Std.LawfulEqOrd.eq_of_compare haddress
    have hlength : p.bits.length = q.bits.length := Std.LawfulEqOrd.eq_of_compare hlength
    obtain ⟨family, ⟨address, n, _, _⟩, _⟩ := p
    obtain ⟨family', ⟨address', n', _, _⟩, _⟩ := q
    cases hfamily
    cases haddress
    cases hlength
    rfl

instance : LT IpPrefix := ⟨fun p q => compare p q = .lt⟩

instance : LE IpPrefix := ⟨fun p q => compare p q ≠ .gt⟩

instance (p q : IpPrefix) : Decidable (p < q) := inferInstanceAs (Decidable (compare p q = .lt))

instance (p q : IpPrefix) : Decidable (p ≤ q) := inferInstanceAs (Decidable (compare p q ≠ .gt))

/-- The characters of a prefix. -/
def chars (p : IpPrefix) : List Char := p.address.chars ++ '/' :: Nat.toDigits 10 p.length

instance : ToString IpPrefix := ⟨fun p => String.ofList p.chars⟩

/-- Why a text is not a prefix. -/
inductive TextError where
  /-- There is no slash. -/
  | missingSeparator
  /-- What stands before the first slash is no address. -/
  | address
  /-- What stands after the first slash is no length. -/
  | length (fault : Numeral.Fault)
  /-- The address does not have that many bits. -/
  | tooLong
  deriving DecidableEq, Repr

/-- The wording of an error. -/
def TextError.message : TextError → String
  | missingSeparator => "missing separator"
  | address => "invalid IP address syntax"
  | length fault => "bad prefix length: " ++ fault.message
  | tooLong => "prefix length too large for family"

/-- Reads the text of a prefix. Bits of the address after the length are dropped. -/
def readChars (cs : List Char) : Except TextError IpPrefix :=
  match cs.span (· ≠ '/') with
  | (_, []) => .error .missingSeparator
  | (front, _ :: rest) =>
    match IpAddress.read? front with
    | none => .error .address
    | some a =>
      match Numeral.read 255 rest with
      | .error fault => .error (.length fault)
      | .ok length =>
        match ofIpAddress? a length with
        | none => .error .tooLong
        | some p => .ok p

/-- Reads the text of a prefix. -/
def read (s : String) : Except TextError IpPrefix := readChars s.toList

end IpPrefix

/-- A range of addresses of one family, with both ends included. -/
structure IpRange where
  /-- The family of the addresses. -/
  family : Family
  /-- The smallest address. -/
  min : Address
  /-- The largest address. -/
  max : Address
  deriving DecidableEq, Repr

/-- The addresses that a prefix covers. -/
def IpPrefix.range (p : IpPrefix) : IpRange := ⟨p.family, p.bits.min, p.bits.max⟩

end SignedPrefixes
