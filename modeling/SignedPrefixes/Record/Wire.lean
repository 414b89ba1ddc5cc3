import SignedPrefixes.Record

/-!
# Handing records to another process

Records are handed over as octets, one after the other in a stream. All numbers
are in network order:

* whether the record is valid, in one octet that is zero or one,
* the AS number, the trust anchor and the number of prefixes in four octets each,
* the expiry in eight octets, as seconds since the start of 1970,
* for each prefix its family in one octet, its address in sixteen octets and its
  length in one octet,
* the three identifiers, each as a number of octets in four octets and that many
  octets of UTF-8.

The place of the object and the times of the certificate are not handed over. The
reader accepts only what the writer can have written.
-/

namespace SignedPrefixes

/-- Why octets are not a record. -/
inductive WireError where
  /-- The octets end inside the record. -/
  | shortInput
  /-- The first octet is neither zero nor one. -/
  | invalidFlag (flag : UInt8)
  /-- The expiry is outside of the times covered. -/
  | invalidTime (seconds : Int)
  /-- There is no family with this number. -/
  | invalidFamily (afi : UInt8)
  /-- A prefix is too long for its family or has set bits after its length. -/
  | invalidPrefix
  /-- The prefixes are not strictly ascending. -/
  | unsortedPrefixes
  /-- An identifier is empty. -/
  | emptyString
  /-- An identifier is not UTF-8. -/
  | invalidString
  deriving DecidableEq, Repr

/-- The wording of an error. -/
def WireError.message : WireError → String
  | shortInput => "unexpected end of input"
  | invalidFlag flag => "invalid valid flag " ++ toString flag.toNat
  | invalidTime seconds => "expiry time " ++ toString seconds ++ " out of range"
  | invalidFamily afi => "unknown address family " ++ toString afi.toNat
  | invalidPrefix => "invalid prefix"
  | unsortedPrefixes => "prefixes not strictly ascending"
  | emptyString => "empty string"
  | invalidString => "string not UTF-8"

namespace Wire

/-- The number of octets of a prefix. -/
def prefixSize : Nat := 18

/-- A signed number in eight octets, in two's complement. -/
def encodeInt64 (n : Int) : Octets := Octets.ofNat 8 (BitVec.ofInt 64 n).toNat

/-- A prefix. -/
def encodePrefix (p : IpPrefix) : Octets :=
  p.family.afi :: (p.bits.address.octets ++ [UInt8.ofNat p.length])

/-- An identifier. -/
def encodeString (s : String) : Octets :=
  let os := s.toUTF8.data.toList
  Octets.ofNat 4 os.length ++ os

/-- Takes from the front of octets. -/
abbrev Take (α : Type) := StateT Octets (Except WireError) α

/-- Takes `n` octets. -/
def octets (n : Nat) : Take Octets := fun os =>
  match Octets.splitAt? n os with
  | some result => .ok result
  | none => .error .shortInput

/-- Takes one octet. -/
def octet : Take UInt8 := fun
  | o :: os => .ok (o, os)
  | [] => .error .shortInput

/-- Takes an unsigned number of four octets. -/
def nat32 : Take Nat := Octets.toNat <$> octets 4

/-- Takes a signed number of eight octets. -/
def int64 : Take Int := return (BitVec.ofNat 64 (Octets.toNat (← octets 8))).toInt

/-- Takes a flag. -/
def flag : Take Bool := do
  let o ← octet
  if o = 0 then return false
  else if o = 1 then return true
  else throw (.invalidFlag o)

/-- Takes a time. -/
def time : Take Time := do
  let seconds ← int64
  match Time.ofSeconds? seconds with
  | some t => return t
  | none => throw (.invalidTime seconds)

/-- Takes a prefix. -/
def ipPrefix : Take IpPrefix := do
  let afi ← octet
  match Family.ofAfi? afi with
  | none => throw (.invalidFamily afi)
  | some family =>
    let address := Address.ofOctets (← octets 16)
    let length ← octet
    match (Prefix.new? address length.toNat).bind (IpPrefix.new? family) with
    | none => throw .invalidPrefix
    | some p => if p.bits.address = address then return p else throw .invalidPrefix

/-- Takes `n` prefixes that ascend from the one before them. -/
def ipPrefixes : (n : Nat) → (before : Option IpPrefix) → Take (List IpPrefix)
  | 0, _ => return []
  | n + 1, before => do
    let p ← ipPrefix
    if before.any (p ≤ ·) then throw .unsortedPrefixes
    return p :: (← ipPrefixes n (some p))

/-- Takes an identifier, which must not be empty. -/
def string : Take String := do
  let n ← nat32
  if n = 0 then throw .emptyString
  match String.fromUTF8? (← octets n).toByteArray with
  | some s => return s
  | none => throw .invalidString

/-- Takes a record. The number of prefixes is compared with the octets that are
there before any prefix is taken. -/
def record : Take Record := do
  let valid ← flag
  let asn ← nat32
  let tal ← nat32
  let count ← nat32
  let expires ← time
  if (← get).length / prefixSize < count then throw .shortInput
  let prefixes ← ipPrefixes count none
  let aia ← string
  let aki ← string
  let ski ← string
  return {
    valid
    asn := ⟨UInt32.ofNat asn⟩
    tal := ⟨UInt32.ofNat tal⟩
    prefixes, expires
    signingTime := none
    notBefore := none
    notAfter := none
    aia, aki, ski
    sia := none }

end Wire

namespace Record

/-- The octets by which a record is handed over. -/
def encode (r : Record) : Octets :=
  (if r.valid then 1 else 0) ::
    (Octets.ofNat 4 r.asn.number.toNat ++ Octets.ofNat 4 r.tal.number.toNat ++
      Octets.ofNat 4 r.prefixes.length ++ Wire.encodeInt64 r.expires.seconds ++
      r.prefixes.flatMap Wire.encodePrefix ++ Wire.encodeString r.aia ++
      Wire.encodeString r.aki ++ Wire.encodeString r.ski)

/-- Takes a record from the front of octets and returns what follows it. -/
def decode (os : Octets) : Except WireError (Record × Octets) := Wire.record os

/-- What a stream of records holds. -/
structure Stream where
  /-- The records, each with the octets that follow it. -/
  records : List (Record × Octets)
  /-- Why the stream does not go on, if it has not ended after a record. -/
  error : Option WireError

/-- Takes at most `fuel` records from a stream. -/
def decodeStreamWith : (fuel : Nat) → Octets → Stream
  | 0, _ => ⟨[], none⟩
  | fuel + 1, os =>
    match decode os with
    | .error e => ⟨[], some e⟩
    | .ok (r, rest) =>
      if rest.isEmpty then ⟨[(r, rest)], none⟩
      else
        let stream := decodeStreamWith fuel rest
        { stream with records := (r, rest) :: stream.records }

/-- Takes records up to the end of the octets or to the first error. There is at
least one record or an error. Every record takes an octet, so there are not more
records than octets. -/
def decodeStream (os : Octets) : Stream := decodeStreamWith (os.length + 1) os

/-- Takes records as long as there are octets left, or up to the first error. -/
def decodeAll (os : Octets) : Stream := if os.isEmpty then ⟨[], none⟩ else decodeStream os

end Record

end SignedPrefixes
