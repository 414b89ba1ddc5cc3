import SignedPrefixes.PrefixWords
import SignedPrefixes.Record.Wire

/-!
# Taking records with all calls guarded

Octets are taken from a buffer that must not be asked for more than it holds, so there is a
look at how many remain before each of them is taken. Prefixes are made in machine words, and
room for them is asked for at once. Each of these calls is checked here, and what it relies on
is told apart from what can be wrong with the octets.
-/

namespace SignedPrefixes.Wire.Guarded

/-- Takes from the front of octets, or is stopped. -/
abbrev Take (α : Type) := StateT Octets (Except (Stop WireError)) α

variable {α : Type}

/-- An error in the octets. -/
def fail (e : WireError) : Take α := throw (.error e)

/-- Looks for octets that are about to be taken. -/
def need (n : Nat) : Take Unit := do
  if (← get).length < n then fail .shortInput

/-- Takes `n` octets, which have to be there. -/
def take (n : Nat) : Take Octets := fun os =>
  if n ≤ os.length then .ok (os.take n, os.drop n) else .error (.misuse .takesPastEnd)

/-- Takes an octet, which has to be there. -/
def takeOctet : Take UInt8
  | o :: os => .ok (o, os)
  | [] => .error (.misuse .takesPastEnd)

/-- Asks for room for prefixes. There have to be octets for all of them. -/
def reserve (count : Nat) : Take Unit := do
  if (← get).length < prefixSize * count then throw (.misuse .reservesPastEnd)

/-- Takes one octet. -/
def octet : Take UInt8 := do
  need 1
  takeOctet

/-- Takes an unsigned number of four octets. -/
def nat32 : Take Nat := do
  need 4
  return Octets.toNat (← take 4)

/-- Takes a signed number of eight octets. -/
def int64 : Take Int := do
  need 8
  return (BitVec.ofNat 64 (Octets.toNat (← take 8))).toInt

/-- Takes a flag. -/
def flag : Take Bool := do
  let o ← octet
  if o = 0 then return false
  else if o = 1 then return true
  else fail (.invalidFlag o)

/-- Takes a time. -/
def time : Take Time := do
  let seconds ← int64
  match Time.ofSeconds? seconds with
  | some t => return t
  | none => fail (.invalidTime seconds)

/-- The prefix of a family with an address and a length, which must not leave out set bits. -/
def prefixOf (family : Family) (address : Address) (length : UInt8) : Take IpPrefix := do
  if family.width < length.toNat then fail .invalidPrefix
  let words ← StateT.lift (PrefixWords.new address.bits length)
  if words.bits ≠ address.bits then fail .invalidPrefix
  match words.toIpPrefix? family with
  | some p => return p
  | none => throw (.misuse .unfitPrefix)

/-- Takes a prefix. -/
def ipPrefix : Take IpPrefix := do
  let afi ← octet
  match Family.ofAfi? afi with
  | none => fail (.invalidFamily afi)
  | some family =>
    need 17
    let address := Address.ofOctets (← take 16)
    let length ← takeOctet
    prefixOf family address length

/-- Takes `n` prefixes that ascend from the one before them. -/
def ipPrefixes : (n : Nat) → (before : Option IpPrefix) → Take (List IpPrefix)
  | 0, _ => return []
  | n + 1, before => do
    let p ← ipPrefix
    if before.any (p ≤ ·) then fail .unsortedPrefixes
    return p :: (← ipPrefixes n (some p))

/-- Takes an identifier, which must not be empty. -/
def string : Take String := do
  let n ← nat32
  if n = 0 then fail .emptyString
  need n
  match String.fromUTF8? (← take n).toByteArray with
  | some s => return s
  | none => fail .invalidString

/-- Takes a record. -/
def record : Take Record := do
  let valid ← flag
  let asn ← nat32
  let tal ← nat32
  let count ← nat32
  let expires ← time
  if (← get).length / prefixSize < count then fail .shortInput
  reserve count
  let prefixes ← ipPrefixes count none
  let aia ← string
  let aki ← string
  let ski ← string
  return {
    valid
    asn := ⟨UInt32.ofNat asn⟩
    tal := ⟨UInt32.ofNat tal⟩
    prefixes, expires
    signingTime := none
    notBefore := none
    notAfter := none
    aia, aki, ski
    sia := none }

end SignedPrefixes.Wire.Guarded
