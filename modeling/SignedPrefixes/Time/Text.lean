import SignedPrefixes.Time

/-!
# Texts of times

There are two printed forms, which differ only in the part below one second: the
short form drops it, and the exact form keeps three, six or nine digits of it.
Years outside of four digits carry a sign. The reader takes both forms and more:
blanks between the parts, short numbers, a space instead of the letter between
date and time, and an offset from UTC.
-/

namespace SignedPrefixes.Time

/-- A number with zeros in front of it up to a width. -/
def padded (width n : Nat) : List Char :=
  let ds := Nat.toDigits 10 n
  List.replicate (width - ds.length) '0' ++ ds

/-- A year: four digits, or a sign and at least four digits. -/
def yearChars (year : Int) : List Char :=
  if 0 ≤ year ∧ year ≤ 9999 then padded 4 year.toNat
  else (if year < 0 then '-' else '+') :: padded 4 year.natAbs

/-- Date and time of day. A leap second is second 60. -/
def civilChars (t : Time) : List Char :=
  let c := t.civil
  let second := if 1000000000 ≤ t.nanos then c.second + 1 else c.second
  yearChars c.date.year ++ '-' :: padded 2 c.date.month ++ '-' :: padded 2 c.date.day ++
    'T' :: padded 2 c.hour ++ ':' :: padded 2 c.minute ++ ':' :: padded 2 second

/-- The part below one second, in the fewest of three, six or nine digits that hold
it. -/
def fractionChars (nanos : Nat) : List Char :=
  if nanos = 0 then []
  else if nanos % 1000000 = 0 then '.' :: padded 3 (nanos / 1000000)
  else if nanos % 1000 = 0 then '.' :: padded 6 (nanos / 1000)
  else '.' :: padded 9 nanos

/-- The characters of the short form. -/
def chars (t : Time) : List Char := t.civilChars ++ ['Z']

instance : ToString Time := ⟨fun t => String.ofList t.chars⟩

/-- The characters of the exact form. -/
def exactChars (t : Time) : List Char :=
  t.civilChars ++ fractionChars (t.nanos % 1000000000) ++ ['Z']

/-- The exact form. -/
def exactText (t : Time) : String := String.ofList t.exactChars

/-- Whether a character has the Unicode property White_Space. -/
def isBlank (c : Char) : Bool :=
  let n := c.toNat
  (0x09 ≤ n ∧ n ≤ 0x0d) ∨ n = 0x20 ∨ n = 0x85 ∨ n = 0xa0 ∨ n = 0x1680 ∨
    (0x2000 ≤ n ∧ n ≤ 0x200a) ∨ n = 0x2028 ∨ n = 0x2029 ∨ n = 0x202f ∨ n = 0x205f ∨ n = 0x3000

/-- A reader that takes characters from the front of a text. -/
abbrev Scan (α : Type) := StateT (List Char) Option α

namespace Scan

/-- Passes over blanks. -/
def blanks : Scan Unit := modify (·.dropWhile isBlank)

/-- The next character. -/
def char : Scan Char := fun
  | c :: cs => some (c, cs)
  | [] => none

/-- Takes a given character. -/
def literal (c : Char) : Scan Unit := do
  guard ((← char) = c)

/-- Takes as many digits as there are, up to `most`, and at least one. -/
def digits (most : Nat) : Scan (List Char) := do
  let cs ← get
  let ds := (cs.take most).takeWhile Char.isDigit
  guard (ds ≠ [])
  set (cs.drop ds.length)
  return ds

/-- Takes a number of at most `most` digits. -/
def number (most : Nat) : Scan Nat := return Nat.ofDigitChars 10 (← digits most) 0

/-- Takes a number of at most two digits, with blanks before it. -/
def field : Scan Nat := do
  blanks
  number 2

/-- Takes a separator, with blanks before it. -/
def separator (c : Char) : Scan Unit := do
  blanks
  literal c

/-- Takes a year of at most four digits, or of any number of digits after a sign. -/
def year : Scan Int := do
  blanks
  match ← get with
  | '-' :: cs =>
    set cs
    return -(← number cs.length : Nat)
  | '+' :: cs =>
    set cs
    return (← number cs.length : Nat)
  | _ => return (← number 4 : Nat)

/-- Takes a part below one second, if there is one, in nanoseconds. Digits after
the ninth are dropped. -/
def fraction : Scan Nat := do
  match ← get with
  | '.' :: cs =>
    set cs
    let ds ← digits 9
    modify (·.dropWhile Char.isDigit)
    return Nat.ofDigitChars 10 (ds ++ List.replicate (9 - ds.length) '0') 0
  | _ => return 0

/-- Takes exactly two digits. -/
def twoDigits : Scan Nat := do
  let ds ← digits 2
  guard (ds.length = 2)
  return Nat.ofDigitChars 10 ds 0

/-- Takes an offset from UTC in seconds: a word for UTC itself, or hours and minutes
after a sign. -/
def offset : Scan Int := do
  let cs ← get
  if (cs.take 3).map Char.toUpper = ['U', 'T', 'C'] then
    set (cs.drop 3)
    return 0
  match cs with
  | 'Z' :: cs =>
    set cs
    return 0
  | 'z' :: cs =>
    set cs
    return 0
  | _ =>
    let sign ← char
    guard (sign = '+' ∨ sign = '-' ∨ sign = '\u2212')
    let hours ← twoDigits
    modify (·.dropWhile fun c => c = ':' ∨ isBlank c)
    let minutes ← twoDigits
    guard (minutes < 60 ∧ hours < 24)
    let seconds : Int := 3600 * hours + 60 * minutes
    return if sign = '+' then seconds else -seconds

/-- Takes a time. Both the local time and the time in UTC must exist. -/
def time : Scan Time := do
  let year ← year
  separator '-'
  let month ← field
  separator '-'
  let day ← field
  let middle ← char
  guard (middle = 'T' ∨ middle = 't' ∨ middle = ' ')
  let hour ← field
  separator ':'
  let minute ← field
  separator ':'
  let second ← field
  let nanos ← fraction
  blanks
  let offset ← offset
  let isLeap := second = 60
  let civil : Civil := ⟨⟨year, month, day⟩, hour, minute, if isLeap then 59 else second⟩
  guard civil.Valid
  new? (civil.seconds - offset) (if isLeap then nanos + 1000000000 else nanos)

end Scan

/-- Reads a text that holds a time and nothing after it but blanks. -/
def readChars? (cs : List Char) : Option Time :=
  match Scan.time cs with
  | some (t, rest) => if rest.all isBlank then some t else none
  | none => none

/-- Reads the text of a time. -/
def read? (s : String) : Option Time := readChars? s.toList

end SignedPrefixes.Time
