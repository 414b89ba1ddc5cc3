import SignedPrefixes.Ber.Reader

/-!
# Octet strings in one part or several

BER allows an octet string to be put together from further octet strings, to any
depth and with definite or indefinite lengths. The parts are read from front to
back with a stack of the strings that are still open. The string consists of the
octets of the primitive parts in their order.
-/

namespace SignedPrefixes.Ber

open Reader

variable {ε : Type}

/-- A string around the one being read. -/
inductive OpenString where
  /-- It has a definite length, and this was the limit around it less that length. -/
  | definite (outer : Option Nat)
  /-- It goes on up to the end of contents. -/
  | indefinite
  deriving DecidableEq, Repr

/-- Closes the strings of definite length that are used up and returns those that
stay open. All faults are reported at the start of the outermost string. -/
def closeStrings (start : Nat) : List OpenString → Reader ε (List OpenString)
  | [] => return []
  | s :: strings => do
    if (← get).limit ≠ some 0 then return s :: strings
    match s with
    | .definite outer =>
      modify fun inp => { inp with limit := outer }
      closeStrings start strings
    | .indefinite => fail .unfinishedNesting start

/-- What a part of a string does to the strings that are open. -/
inductive Part where
  /-- The whole string has ended. -/
  | finished
  /-- Octets were added, and these strings are open now. -/
  | octets (os : Octets) (strings : List OpenString)
  deriving DecidableEq, Repr

/-- Reads a primitive part or the header of a constructed one. The string ends
with the end of contents only if it has an indefinite length itself. -/
def stringPart (isIndefinite : Bool) (start : Nat) (strings : List OpenString) :
    Reader ε Part := do
  let tag ← anyTag
  let length ← length .ber
  match tag, length with
  | .short tag false, length =>
    if tag = Tag.endOfContents then
      if length ≠ .definite 0 then fail .nonEmptyEnd start
      match strings with
      | .indefinite :: strings => return .octets [] (← closeStrings start strings)
      | [] => if isIndefinite then return .finished else fail .invalidNesting start
      | .definite _ :: _ => fail .invalidNesting start
    else
      match length with
      | .indefinite => fail .indefinitePrimitive start
      | .definite n =>
        if tag ≠ Tag.octetString then fail .expectedOctetString start
        match ← octets? n with
        | none => fail .shortPrimitive start
        | some os => return .octets os (← closeStrings start strings)
  | .long false, .indefinite => fail .indefinitePrimitive start
  | .short tag true, .definite n =>
    if tag ≠ Tag.octetString then fail .expectedOctetString start
    let outer := (← get).limit
    if outer.any (· < n) then fail .invalidNesting start
    modify fun inp => { inp with limit := some n }
    return .octets [] (← closeStrings start (.definite (outer.map (· - n)) :: strings))
  | .short tag true, .indefinite =>
    if tag ≠ Tag.octetString then fail .expectedOctetString start
    return .octets [] (.indefinite :: strings)
  | .long _, _ => fail .expectedOctetString start

/-- What has been read of a string in parts. -/
structure Gathered where
  /-- The octets so far, the last one first. -/
  reversed : Octets
  /-- The strings that are open, the innermost first. -/
  strings : List OpenString
  /-- Whether the end of contents of the whole string has been read. -/
  finished : Bool
  deriving DecidableEq, Repr

/-- Reads one more part, unless the string is complete. -/
def gatherPart? (isIndefinite : Bool) (start : Nat) (g : Gathered) :
    Reader ε (Option Gathered) := do
  if g.finished then return none
  if g.strings.isEmpty ∧ isIndefinite = false ∧ (← get).limit = some 0 then return none
  match ← stringPart isIndefinite start g.strings with
  | .finished => return some { g with finished := true }
  | .octets os strings => return some ⟨os.reverseAux g.reversed, strings, false⟩

/-- Reads the parts of a string. DER has only strings in one part. A string of
indefinite length takes its end of contents with it. -/
def stringParts (rules : Rules) (isIndefinite : Bool) (start : Nat) : Reader ε Octets := do
  if rules = .der then fail .constructedOctetStringInDer start
  let g ← iterate (gatherPart? isIndefinite start) ⟨[], [], false⟩
  return g.reversed.reverse

/-- Reads an octet string, if that comes next. -/
def octetString? (rules : Rules) : Reader ε (Option Octets) := do
  match ← header? rules Tag.octetString with
  | none => return none
  | some header =>
    let start ← position
    match header with
    | .primitive n =>
      some <$> within n do
        match ← octets? n with
        | some os => return os
        | none => failHere .unexpectedEnd
    | .constructed n => some <$> within n (stringParts rules false start)
    | .indefinite => some <$> stringParts rules true start

/-- Reads an octet string that must be there. Its absence is reported at the start
of the value around it. -/
def octetString (rules : Rules) (enclosing : Nat) : Reader ε Octets := do
  match ← octetString? rules with
  | some os => return os
  | none => fail .missingOctetString enclosing

end SignedPrefixes.Ber
