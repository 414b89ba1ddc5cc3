import SignedPrefixes.Ber.Failure
import SignedPrefixes.Ber.Tag
import SignedPrefixes.Octets

/-!
# Readers of encoded values

A reader takes octets from the front of an input and fails at a position. Inside
a value of definite length the input has a limit, the number of octets left of
that value. Whatever lies past the limit is out of reach, just like what lies
past the end of the octets.

A value is read in two steps. Its header gives the tag and the length. Its
content is then read by a routine that is told where the content starts, and the
end of the value is checked after it.
-/

namespace SignedPrefixes.Ber

/-- The encoding rules to insist on. -/
inductive Rules where
  /-- Exactly one encoding for each value. -/
  | der
  /-- Also lengths that are not minimal or indefinite, and strings in parts. -/
  | ber
  deriving DecidableEq, Repr

/-- What is left to be read. -/
structure Input where
  /-- The octets ahead. -/
  rest : Octets
  /-- The number of octets read so far. -/
  position : Nat
  /-- The number of octets left of the innermost value of definite length. -/
  limit : Option Nat
  deriving DecidableEq, Repr

namespace Input

/-- An input at its start and without a limit. -/
def ofOctets (os : Octets) : Input := ⟨os, 0, none⟩

/-- The next octet and the input after it. -/
def next? (inp : Input) : Option (UInt8 × Input) :=
  match inp.limit, inp.rest with
  | some 0, _ => none
  | _, [] => none
  | limit, o :: rest => some (o, ⟨rest, inp.position + 1, limit.map (· - 1)⟩)

/-- The next `n` octets and the input after them. -/
def take? (n : Nat) (inp : Input) : Option (Octets × Input) :=
  if inp.limit.all (n ≤ ·) then
    (Octets.splitAt? n inp.rest).map fun (front, rest) =>
      (front, ⟨rest, inp.position + n, inp.limit.map (· - n)⟩)
  else none

end Input

/-- A reader of values that refuses some of them for reasons `ε`. -/
abbrev Reader (ε α : Type) := StateT Input (Except (Failure ε)) α

variable {ε α σ : Type}

namespace Reader

/-- Fails with a broken encoding at a position. -/
def fail (fault : Fault) (position : Nat) : Reader ε α := throw ⟨.encoding fault, position⟩

/-- Refuses a value at a position. -/
def refuse (refusal : ε) (position : Nat) : Reader ε α := throw ⟨.content refusal, position⟩

/-- The place reached. -/
def position : Reader ε Nat := return (← get).position

/-- Fails with a broken encoding at the place reached. -/
def failHere (fault : Fault) : Reader ε α := do fail fault (← position)

/-- The next octet, if there is one. -/
def octet? : Reader ε (Option UInt8) := do
  match (← get).next? with
  | some (o, after) =>
    set after
    return some o
  | none => return none

/-- The next `n` octets, if there are that many. -/
def octets? (n : Nat) : Reader ε (Option Octets) := do
  match (← get).take? n with
  | some (os, after) =>
    set after
    return some os
  | none => return none

/-- Runs a step again and again until it finds nothing to do. A step that finds
something takes at least one octet, so `fuel` above the number of octets ahead is
never used up (`iterate_eq`). -/
def iterateWith (step : σ → Reader ε (Option σ)) : (fuel : Nat) → σ → Reader ε σ
  | 0, s => pure s
  | fuel + 1, s => fun inp =>
    match step s inp with
    | .error failure => .error failure
    | .ok (none, after) => .ok (s, after)
    | .ok (some s, after) => iterateWith step fuel s after

/-- Runs a step that takes octets until it finds nothing to do. -/
def iterate (step : σ → Reader ε (Option σ)) (s : σ) : Reader ε σ := do
  iterateWith step ((← get).rest.length + 1) s

end Reader

open Reader

/-- Passes over the further octets of a tag, of which there are at most `n`. The
last one has its top bit clear. The input that comes with a fault is the place
where it was found. -/
def skipTag : (n : Nat) → Input → Except (Fault × Input) Input
  | 0, inp => .error (.longTag, inp)
  | n + 1, inp =>
    match inp.next? with
    | none => .error (.shortTag, inp)
    | some (o, after) => if o < 0x80 then .ok after else skipTag n after

/-- Takes the tag if it is next. The answer says whether the value is constructed.
Another tag stays where it is, but must be complete. -/
def tag? (tag : Tag) : Reader ε (Option Bool) := do
  let inp ← get
  match inp.next? with
  | none => return none
  | some (o, after) =>
    if o &&& Tag.numberBits = Tag.numberBits then
      match skipTag 3 after with
      | .error (fault, _) => fail fault inp.position
      | .ok _ => return none
    else if o &&& ~~~Tag.constructedBit = tag then
      set after
      return some (o &&& Tag.constructedBit ≠ 0)
    else return none

/-- A tag of any kind. -/
inductive AnyTag where
  /-- A tag of one octet, and whether the value is constructed. -/
  | short (tag : Tag) (constructed : Bool)
  /-- A tag of several octets, and whether the value is constructed. -/
  | long (constructed : Bool)
  deriving DecidableEq, Repr

/-- Takes whatever tag comes next. -/
def anyTag : Reader ε AnyTag := do
  match ← octet? with
  | none => failHere .missingEnd
  | some o =>
    let isConstructed : Bool := o &&& Tag.constructedBit ≠ 0
    if o &&& Tag.numberBits = Tag.numberBits then
      match skipTag 3 (← get) with
      | .error (.shortTag, inp) => fail .unexpectedEnd inp.position
      | .error (fault, inp) => fail fault inp.position
      | .ok after =>
        set after
        return .long isConstructed
    else return .short (o &&& ~~~Tag.constructedBit) isConstructed

/-- The length of a value. -/
inductive Length where
  /-- The content has this many octets. -/
  | definite (n : Nat)
  /-- The content goes on up to a value that marks its end. -/
  | indefinite
  deriving DecidableEq, Repr

/-- Whether a length fits fewer octets than it takes. -/
def isPadded : Octets → Bool
  | [] => false
  | [o] => o < 0x80
  | o :: _ :: _ => o = 0

/-- Takes `count` octets of a length. DER asks for as few octets as possible. -/
def longLength (rules : Rules) (count : Nat) : Reader ε Length := do
  let inp ← get
  match inp.take? count with
  | none =>
    let reach := min inp.rest.length (inp.limit.getD inp.rest.length)
    fail .unexpectedEnd (inp.position + reach)
  | some (os, after) =>
    set after
    if rules = .der ∧ isPadded os then failHere .paddedLength
    return .definite (Octets.toNat os)

/-- Takes a length. -/
def length (rules : Rules) : Reader ε Length := do
  match ← octet? with
  | none => failHere .unexpectedEnd
  | some o =>
    if o < 0x80 then return .definite o.toNat
    else if o = 0x80 then return .indefinite
    else if o ≤ 0x84 then longLength rules (o.toNat - 0x80)
    else failHere .longLength

/-- The header of a value: how its content is made up and how far it goes. -/
inductive Header where
  /-- Primitive content of this many octets. -/
  | primitive (n : Nat)
  /-- Values that take up this many octets. -/
  | constructed (n : Nat)
  /-- Values up to the end of contents. -/
  | indefinite
  deriving DecidableEq, Repr

/-- Takes the header of a value with the given tag, if that comes next. Only a
constructed value in BER has an indefinite length. -/
def header? (rules : Rules) (tag : Tag) : Reader ε (Option Header) := do
  match ← tag? tag with
  | none => return none
  | some isConstructed =>
    match ← length rules with
    | .definite n => return some (if isConstructed then .constructed n else .primitive n)
    | .indefinite =>
      if isConstructed ∧ rules = .ber then return some .indefinite
      else failHere .indefiniteLength

/-- Reads the content of a value of `n` octets. The content must be used up. -/
def within (n : Nat) (body : Reader ε α) : Reader ε α := do
  let outer := (← get).limit
  if outer.any (· < n) then failHere .excessiveLength
  modify fun inp => { inp with limit := some n }
  let a ← body
  if (← get).limit ≠ some 0 then failHere .trailingData
  modify fun inp => { inp with limit := outer.map (· - n) }
  return a

/-- Reads the content of a value of indefinite length, whose end must follow. -/
def untilEnd (rules : Rules) (body : Reader ε α) : Reader ε α := do
  let start ← position
  let a ← body
  match ← anyTag with
  | .short tag false =>
    if tag ≠ Tag.endOfContents then fail .trailingValues start
    if (← length rules) ≠ .definite 0 then fail .trailingValues start
    return a
  | _ => fail .trailingValues start

/-- Reads a constructed value with the given tag, if that comes next. The routine
for the content is told where the content starts. -/
def constructed? (rules : Rules) (tag : Tag) (body : (start : Nat) → Reader ε α) :
    Reader ε (Option α) := do
  match ← header? rules tag with
  | none => return none
  | some header =>
    let start ← position
    match header with
    | .primitive n => some <$> within n (fail .expectedConstructed start)
    | .constructed n => some <$> within n (body start)
    | .indefinite => some <$> untilEnd rules (body start)

/-- Reads a primitive value with the given tag, if that comes next. The routine
for the content is told where the content starts and its length. -/
def primitive? (rules : Rules) (tag : Tag) (body : (start n : Nat) → Reader ε α) :
    Reader ε (Option α) := do
  match ← header? rules tag with
  | none => return none
  | some header =>
    let start ← position
    match header with
    | .primitive n => some <$> within n (body start n)
    | .constructed n => some <$> within n (fail .expectedPrimitive start)
    | .indefinite => fail .expectedPrimitive start

/-- Reads a value that must be there. -/
def mandatory (reader : Reader ε (Option α)) : Reader ε α := do
  match ← reader with
  | some a => return a
  | none => failHere .missingValue

/-- Reads a sequence, if that comes next. -/
def sequence? (rules : Rules) (body : (start : Nat) → Reader ε α) : Reader ε (Option α) :=
  constructed? rules Tag.sequence body

/-- Reads a sequence that must be there. -/
def sequence (rules : Rules) (body : (start : Nat) → Reader ε α) : Reader ε α :=
  mandatory (sequence? rules body)

/-- Runs a reader on octets from their start and returns what it leaves over. -/
def Reader.runOn (reader : Reader ε α) (os : Octets) : Except (Failure ε) (α × Octets) :=
  match reader (Input.ofOctets os) with
  | .error failure => .error failure
  | .ok (a, inp) => .ok (a, inp.rest)

end SignedPrefixes.Ber
