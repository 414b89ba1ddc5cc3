import SignedPrefixes.Ipv4

/-!
# IPv6 addresses and their text

The text of an IPv6 address lists its eight groups of sixteen bits in
hexadecimal, separated by colons. A run of zero groups may be written as a
double colon, and the last two groups may be written as an IPv4 address. The
printed form uses the double colon for the first longest run of at least two
zero groups and the dotted form for IPv4-mapped addresses only.
-/

namespace SignedPrefixes

/-- An IPv6 address. -/
structure Ipv6 where
  /-- The address with its first group on top. -/
  bits : BitVec 128
  deriving DecidableEq, Repr

namespace Ipv6

/-- The eight groups, most significant first. -/
def groups (a : Ipv6) : List Nat := Positional.digits 65536 8 a.bits.toNat

/-- The address with the given groups. -/
def ofGroups (gs : List Nat) : Ipv6 := ⟨BitVec.ofNat 128 (Positional.value 65536 gs)⟩

/-- The number of zero groups at the front. -/
def leadingZeros (gs : List Nat) : Nat := (gs.takeWhile (· == 0)).length

/-- Start and length of the first longest run of zero groups. -/
def longestZeroRun (gs : List Nat) : Nat × Nat :=
  (List.range gs.length).foldl
    (fun best i =>
      if best.2 < leadingZeros (gs.drop i) then (i, leadingZeros (gs.drop i)) else best)
    (0, 0)

/-- Groups in lower-case hexadecimal without leading zeros, with colons between them. -/
def groupChars (gs : List Nat) : List Char := [':'].intercalate (gs.map (Nat.toDigits 16))

/-- Whether the address stands for an IPv4 address. -/
def isIpv4Mapped (a : Ipv6) : Bool := a.groups.take 6 == [0, 0, 0, 0, 0, 0xffff]

/-- The IPv4 address in the last two groups. -/
def lastIpv4 (a : Ipv6) : Ipv4 := ⟨a.bits.setWidth 32⟩

/-- The characters of an address. -/
def chars (a : Ipv6) : List Char :=
  if a.isIpv4Mapped then "::ffff:".toList ++ a.lastIpv4.chars
  else
    let (start, length) := longestZeroRun a.groups
    if 1 < length then
      groupChars (a.groups.take start) ++ ':' :: ':' :: groupChars (a.groups.drop (start + length))
    else groupChars a.groups

instance : ToString Ipv6 := ⟨fun a => String.ofList a.chars⟩

/-- The value of a hexadecimal digit in either case. -/
def hexDigit? (c : Char) : Option Nat :=
  if c.isDigit then some (c.toNat - '0'.toNat)
  else if 'a' ≤ c ∧ c ≤ 'f' then some (c.toNat - 'a'.toNat + 10)
  else if 'A' ≤ c ∧ c ≤ 'F' then some (c.toNat - 'A'.toNat + 10)
  else none

/-- Reads one group of one to four digits. -/
def readGroup? (cs : List Char) : Option Nat :=
  if cs ≠ [] ∧ cs.length ≤ 4 then (cs.mapM hexDigit?).map (Positional.value 16) else none

/-- Reads groups, of which there may be none. -/
def readGroups? (cs : List Char) : Option (List Nat) :=
  if cs = [] then some [] else (cs.splitOn ':').mapM readGroup?

/-- Reads the end of an address, whose last two groups may be in dotted form. -/
def readTail? (cs : List Char) : Option (List Nat) :=
  let parts := cs.splitOn ':'
  match parts.getLast? with
  | some last =>
    if last.contains '.' then do
      let front ← parts.dropLast.mapM readGroup?
      let v4 ← Ipv4.read? last
      return front ++ Positional.digits 65536 2 v4.bits.toNat
    else readGroups? cs
  | none => none

/-- Cuts a text at its first double colon. -/
def cutDoubleColon? : List Char → Option (List Char × List Char)
  | [] => none
  | ':' :: ':' :: rest => some ([], rest)
  | c :: cs => (cutDoubleColon? cs).map fun (front, rest) => (c :: front, rest)

/-- Reads an address that takes up the whole text. A double colon stands for at
least one group. -/
def read? (cs : List Char) : Option Ipv6 :=
  match cutDoubleColon? cs with
  | none => do
    let gs ← readTail? cs
    if gs.length = 8 then some (ofGroups gs) else none
  | some (front, rest) => do
    let head ← readGroups? front
    let tail ← readTail? rest
    if head.length + tail.length ≤ 7 then
      some (ofGroups (head ++ List.replicate (8 - (head.length + tail.length)) 0 ++ tail))
    else none

end Ipv6

end SignedPrefixes
