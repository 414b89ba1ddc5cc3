/-!
# Failures of reading

Reading fails either because octets do not follow the encoding rules or because
a value that is encoded well is refused. Both kinds come with a position in the
input: the place reached, or the start of the content that is at fault.
-/

namespace SignedPrefixes.Ber

/-- The ways in which octets break the encoding rules. -/
inductive Fault where
  /-- The input or the enclosing value ends inside a value. -/
  | unexpectedEnd
  /-- The input or the enclosing value ends inside a tag. -/
  | shortTag
  /-- A tag takes more than four octets. -/
  | longTag
  /-- A length takes more octets than it needs. -/
  | paddedLength
  /-- A length takes more than four octets. -/
  | longLength
  /-- A value is longer than what is left of the value around it. -/
  | excessiveLength
  /-- A value goes on after the content that was expected in it. -/
  | trailingData
  /-- The length is indefinite where it must not be. -/
  | indefiniteLength
  /-- A value of indefinite length is not ended. -/
  | missingEnd
  /-- A value of indefinite length goes on after the content that was expected in it. -/
  | trailingValues
  /-- A primitive value was expected. -/
  | expectedPrimitive
  /-- A constructed value was expected. -/
  | expectedConstructed
  /-- A mandatory value is missing. -/
  | missingValue
  /-- A mandatory octet string is missing. -/
  | missingOctetString
  /-- A bit string has more than seven unused bits. -/
  | manyUnusedBits
  /-- A bit string without octets has unused bits. -/
  | unusedBitsWithoutOctets
  /-- An unused bit of a bit string is set. -/
  | unusedBitsSet
  /-- A bit string in DER is constructed. -/
  | constructedBitStringInDer
  /-- A bit string is constructed. -/
  | constructedBitString
  /-- An octet string in DER is constructed. -/
  | constructedOctetStringInDer
  /-- The end of a value of indefinite length has content. -/
  | nonEmptyEnd
  /-- Values inside an octet string do not nest. -/
  | invalidNesting
  /-- A primitive value has no definite length. -/
  | indefinitePrimitive
  /-- A value inside an octet string is no octet string. -/
  | expectedOctetString
  /-- A primitive value inside an octet string is cut short. -/
  | shortPrimitive
  /-- A value of indefinite length inside an octet string is cut short. -/
  | unfinishedNesting
  deriving DecidableEq, Repr

/-- The wording of a fault. -/
def Fault.message : Fault → String
  | unexpectedEnd => "unexpected end of data"
  | shortTag => "short tag value"
  | longTag => "tag values longer than 4 bytes not implemented"
  | paddedLength => "invalid length"
  | longLength => "lengths over 4 bytes not implemented"
  | excessiveLength => "nested value with excessive length"
  | trailingData => "trailing data"
  | indefiniteLength => "indefinite length constructed in DER mode"
  | missingEnd => "additional values expected"
  | trailingValues => "unexpected trailing values"
  | expectedPrimitive => "expected primitive value"
  | expectedConstructed => "expected constructed value"
  | missingValue => "missing further values"
  | missingOctetString => "expected tag OCTET STRING"
  | manyUnusedBits => "invalid bit string with large initial octet"
  | unusedBitsWithoutOctets => "invalid bit string (non-zero initial with empty bits)"
  | unusedBitsSet => "non-zero unused bits in DER bit string"
  | constructedBitStringInDer => "constructed bit string in DER mode"
  | constructedBitString => "constructed bit string not implemented"
  | constructedOctetStringInDer => "constructed string in DER mode"
  | nonEmptyEnd => "non-empty end of value"
  | invalidNesting => "invalid nested values"
  | indefinitePrimitive => "primitive value with indefinite length"
  | expectedOctetString => "expected octet string"
  | shortPrimitive => "short primitive value"
  | unfinishedNesting => "\n                                missing further values"

/-- Why reading failed. The refusals `ε` are those of the reader that asks for the
values. -/
inductive Cause (ε : Type) where
  /-- The octets break the encoding rules. -/
  | encoding (fault : Fault)
  /-- The value is refused. -/
  | content (refusal : ε)
  deriving DecidableEq, Repr

/-- A failure at a position of the input. -/
structure Failure (ε : Type) where
  /-- What is wrong. -/
  cause : Cause ε
  /-- The number of octets before the place that the failure is reported at. -/
  position : Nat
  deriving DecidableEq, Repr

/-- The wording of a failure, given the wordings of refusals. -/
def Failure.message {ε : Type} (refusalMessage : ε → String) (f : Failure ε) : String :=
  let text := match f.cause with
    | .encoding fault => fault.message
    | .content refusal => refusalMessage refusal
  text ++ " (at position " ++ toString f.position ++ ")"

end SignedPrefixes.Ber
