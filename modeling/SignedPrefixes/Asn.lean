import SignedPrefixes.Numeral
import SignedPrefixes.Text

/-!
# AS numbers

An AS number identifies an autonomous system. Its text is `AS` followed by the
decimal number, and the two letters may be left out or be in lower case when it
is read. Certificates list AS numbers in blocks.
-/

namespace SignedPrefixes

/-- The number of an autonomous system. -/
structure Asn where
  /-- The plain number. -/
  number : UInt32
  deriving DecidableEq, Repr

namespace Asn

instance : Ord Asn := ⟨compareOn Asn.number⟩

instance : Std.TransOrd Asn := inferInstanceAs (Std.TransCmp (compareOn Asn.number))

instance : Std.LawfulEqOrd Asn where
  eq_of_compare {a b} h := by
    have hnumber : a.number = b.number := Std.LawfulEqOrd.eq_of_compare h
    cases a
    cases b
    exact congrArg mk hnumber

instance : LE Asn := ⟨fun a b => a.number ≤ b.number⟩

instance : LT Asn := ⟨fun a b => a.number < b.number⟩

instance (a b : Asn) : Decidable (a ≤ b) := inferInstanceAs (Decidable (a.number ≤ b.number))

instance (a b : Asn) : Decidable (a < b) := inferInstanceAs (Decidable (a.number < b.number))

/-- The characters of an AS number. -/
def chars (asn : Asn) : List Char := 'A' :: 'S' :: Nat.toDigits 10 asn.number.toNat

instance : ToString Asn := ⟨fun asn => String.ofList asn.chars⟩

/-- Why a text is not an AS number. -/
inductive TextError where
  /-- What should be the number is no numeral of 32 bits. -/
  | invalid
  /-- The text is longer than two octets and the second octet does not end a
  character, so there are no two leading letters to look at. -/
  | splitsCharacter
  deriving DecidableEq, Repr

/-- The wording of an invalid text. A text that cannot be cut has none. -/
def TextError.message? : TextError → Option String
  | invalid => some "invalid AS number"
  | splitsCharacter => none

/-- Reads the number without the two letters. -/
def readNumber (cs : List Char) : Except TextError Asn :=
  match Numeral.read (UInt32.size - 1) cs with
  | .ok n => .ok ⟨UInt32.ofNat n⟩
  | .error _ => .error .invalid

/-- Reads an AS number. The letters are only looked for in a text of more than
two octets. -/
def readChars (cs : List Char) : Except TextError Asn :=
  if 2 < Text.byteCount cs then
    match Text.cutBytes? 2 cs with
    | none => .error .splitsCharacter
    | some (letters, rest) =>
      if letters.map Char.toLower = ['a', 's'] then readNumber rest else readNumber cs
  else readNumber cs

/-- Reads the text of an AS number. -/
def read (s : String) : Except TextError Asn := readChars s.toList

end Asn

/-- A block of AS numbers as listed in a certificate. -/
inductive AsBlock where
  /-- A single AS number. -/
  | single (asn : Asn)
  /-- All AS numbers from the first to the last, both included. -/
  | range (first last : Asn)
  deriving DecidableEq, Repr

namespace AsBlock

/-- The smallest AS number of a block. -/
def min : AsBlock → Asn
  | single asn => asn
  | range first _ => first

/-- The largest AS number of a block. -/
def max : AsBlock → Asn
  | single asn => asn
  | range _ last => last

instance : Membership Asn AsBlock := ⟨fun block asn => block.min ≤ asn ∧ asn ≤ block.max⟩

/-- An AS number is in a block if it lies between its ends. -/
theorem mem_iff {asn : Asn} {block : AsBlock} :
    asn ∈ block ↔ block.min ≤ asn ∧ asn ≤ block.max := Iff.rfl

instance (asn : Asn) (block : AsBlock) : Decidable (asn ∈ block) :=
  inferInstanceAs (Decidable (_ ∧ _))

instance : ToString AsBlock where
  toString
    | single asn => toString asn
    | range first last => toString first ++ "-" ++ toString last

end AsBlock

end SignedPrefixes
