/-!
# JSON values

The JSON values that records and settings are exchanged as. Numbers that are
written with a fraction or an exponent are kept apart from integers, because no
reader takes them for one.

What is read here is a value whose text has been parsed already. Of several members
of one name parsing leaves the last one over, so that is the one that counts. A
reader that goes over the text itself may refuse such an object.
-/

namespace SignedPrefixes

/-- A JSON value. The members of an object keep their order. -/
inductive Json where
  /-- The null value. -/
  | null
  /-- A truth value. -/
  | bool (b : Bool)
  /-- A number written as an integer. -/
  | integer (n : Int)
  /-- Any other number, as it is written. -/
  | decimal (text : String)
  /-- A text. -/
  | string (s : String)
  /-- A list of values. -/
  | array (items : List Json)
  /-- Values with names. -/
  | object (members : List (String × Json))
  deriving Repr, Inhabited

namespace Json

/-- The last member of an object with the given name, which is the one that is left
over when the object has been parsed. Values that are no objects have no members. -/
def member? (name : String) : Json → Option Json
  | object members => (members.reverse.find? fun m => m.1 == name).map Prod.snd
  | _ => none

/-- An integer of the given range. -/
def nat? (max : Nat) : Json → Option Nat
  | integer (.ofNat n) => if n ≤ max then some n else none
  | _ => none

/-- A truth value. -/
def bool? : Json → Option Bool
  | bool b => some b
  | _ => none

/-- A text. -/
def string? : Json → Option String
  | string s => some s
  | _ => none

end Json

end SignedPrefixes
