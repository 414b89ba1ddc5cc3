import SignedPrefixes.Ber.Reader
import SignedPrefixes.BitString

/-!
# Integers and bit strings

Integers are read as numbers of 32 bits. Whatever keeps an integer from being
one is a single refusal of the caller. Bit strings are read in one part only, and
DER asks for unused bits to be zero.
-/

namespace SignedPrefixes.Ber

open Reader

variable {ε : Type}

/-- The number of 32 bits that the content of an integer stands for. The
content has at least one octet, its first nine bits are not all zero, and its
first bit is not set. -/
def unsigned32? : Octets → Option UInt32
  | [] => none
  | [o] => if o < 0x80 then some (UInt32.ofNat o.toNat) else none
  | o :: o' :: os =>
    let n := Octets.toNat (o :: o' :: os)
    if o < 0x80 ∧ ¬(o = 0 ∧ o' < 0x80) ∧ n < UInt32.size then some (UInt32.ofNat n) else none

/-- Reads an integer as a number of 32 bits. -/
def unsigned32 (rules : Rules) (refusal : ε) : Reader ε UInt32 :=
  mandatory <| primitive? rules Tag.integer fun start n => do
    match (← octets? n).bind unsigned32? with
    | some number => return number
    | none => refuse refusal start

/-- Reads the content of a bit string: the number of unused bits, then the octets. -/
def bitStringContent (rules : Rules) (start n : Nat) : Reader ε BitString := do
  match ← octet? with
  | none => failHere .unexpectedEnd
  | some unused =>
    if 7 < unused then fail .manyUnusedBits start
    match ← octets? (n - 1) with
    | none => failHere .unexpectedEnd
    | some os =>
      match BitString.new? os unused.toNat with
      | none => fail .unusedBitsWithoutOctets start
      | some s =>
        if rules = .der ∧ s.hasUnusedBits then fail .unusedBitsSet start else return s

/-- Refuses a bit string in parts. -/
def bitStringParts (rules : Rules) (start : Nat) : Reader ε BitString :=
  match rules with
  | .der => fail .constructedBitStringInDer start
  | .ber => fail .constructedBitString start

/-- Reads a bit string, if that comes next. -/
def bitString? (rules : Rules) : Reader ε (Option BitString) := do
  match ← header? rules Tag.bitString with
  | none => return none
  | some header =>
    let start ← position
    match header with
    | .primitive n => some <$> within n (bitStringContent rules start n)
    | .constructed n => some <$> within n (bitStringParts rules start)
    | .indefinite => some <$> bitStringParts rules start

end SignedPrefixes.Ber
