/-!
# Calls that must not be made

Some routines leave it to their callers that what they are asked for is there and fits. If it
does not, they stop, which is worse than an error because nobody is prepared for it. Where
that matters, such a stop is kept apart from the errors, so it can be told that it never
happens.
-/

namespace SignedPrefixes

/-- What a caller has to rule out. -/
inductive Misuse where
  /-- A number is to be kept in an octet that cannot hold it. -/
  | cutsNumber
  /-- A prefix is to have more than 128 bits. -/
  | longPrefix
  /-- A prefix is taken to fit a family that it does not fit. -/
  | unfitPrefix
  /-- The rest of a list is asked for from a place behind its end. -/
  | slicesPastEnd
  /-- More octets are to be taken than there are. -/
  | takesPastEnd
  /-- Room is asked for although there are not enough octets to fill it. -/
  | reservesPastEnd
  deriving DecidableEq, Repr

/-- Why a routine stops. -/
inductive Stop (ε : Type) where
  /-- It was called as it must not be called. -/
  | misuse (m : Misuse)
  /-- There is an error in what it was given. -/
  | error (e : ε)
  deriving DecidableEq, Repr

end SignedPrefixes
