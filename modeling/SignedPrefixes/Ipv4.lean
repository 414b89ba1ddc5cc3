import SignedPrefixes.Octets

/-!
# IPv4 addresses and their text

The text of an IPv4 address is its four octets in decimal, separated by dots.
Each octet has one to three digits and no leading zero, so every address has
exactly one text.
-/

namespace SignedPrefixes

/-- An IPv4 address. -/
structure Ipv4 where
  /-- The address with its first octet on top. -/
  bits : BitVec 32
  deriving DecidableEq, Repr

namespace Ipv4

/-- The four octets in network order. -/
def octets (a : Ipv4) : Octets := Octets.ofNat 4 a.bits.toNat

/-- The address with the given octets. -/
def ofOctets (os : Octets) : Ipv4 := ⟨BitVec.ofNat 32 (Octets.toNat os)⟩

/-- The characters of an address. -/
def chars (a : Ipv4) : List Char :=
  ['.'].intercalate (a.octets.map fun o => Nat.toDigits 10 o.toNat)

instance : ToString Ipv4 := ⟨fun a => String.ofList a.chars⟩

/-- Reads one octet: one to three digits, no leading zero, at most 255. -/
def readOctet? (cs : List Char) : Option UInt8 :=
  let n := Nat.ofDigitChars 10 cs 0
  if cs ≠ [] ∧ cs.length ≤ 3 ∧ cs.all Char.isDigit ∧ (cs.head? = some '0' → cs = ['0']) ∧ n < 256
  then some (UInt8.ofNat n)
  else none

/-- Reads an address that takes up the whole text. -/
def read? (cs : List Char) : Option Ipv4 :=
  match cs.splitOn '.' with
  | [a, b, c, d] => do
    return ofOctets [← readOctet? a, ← readOctet? b, ← readOctet? c, ← readOctet? d]
  | _ => none

end Ipv4

end SignedPrefixes
