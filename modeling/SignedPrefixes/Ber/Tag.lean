/-!
# Tags

The first octet of an encoded value holds its class and tag number, and one bit
that says whether the value is constructed from further values. A tag here is
that octet with the bit cleared. All tags of signed prefix lists fit one octet.
-/

namespace SignedPrefixes.Ber

/-- The identifier octet of a value without the bit for constructed values. -/
abbrev Tag := UInt8

namespace Tag

/-- The bit of an identifier octet that marks a constructed value. -/
def constructedBit : UInt8 := 0x20

/-- The bits of an identifier octet that hold the tag number. If all of them are
set, the number follows in further octets. -/
def numberBits : UInt8 := 0x1f

/-- `INTEGER`. -/
def integer : Tag := 0x02

/-- `BIT STRING`. -/
def bitString : Tag := 0x03

/-- `OCTET STRING`. -/
def octetString : Tag := 0x04

/-- `SEQUENCE`. -/
def sequence : Tag := 0x10

/-- The context-specific tag zero. -/
def context0 : Tag := 0x80

/-- The tag that ends the content of a value of indefinite length. -/
def endOfContents : Tag := 0x00

end Tag

end SignedPrefixes.Ber
