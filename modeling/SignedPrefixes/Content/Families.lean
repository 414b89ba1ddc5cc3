import SignedPrefixes.Content

/-!
# The families of content

The prefixes of both families are one list. Where the prefixes of the second family start is found
by bisection, so most prefixes are not looked at. This comes to the right place only because the
prefixes of the first family come first.
-/

namespace SignedPrefixes

namespace Bisection

variable {α : Type}

/-- Whether the element at a position passes a test. There is none after the last one. -/
def passesAt (test : α → Bool) (xs : List α) (i : Nat) : Bool := xs[i]?.any test

/-- Halves the stretch of `size` positions from `base` on until at most one is left, which is then
passed if its element passes the test. -/
def search (test : α → Bool) (xs : List α) (base size : Nat) : Nat :=
  if 1 < size then
    let middle := base + size / 2
    if passesAt test xs middle then search test xs middle (size - size / 2)
    else search test xs base (size - size / 2)
  else if passesAt test xs base then base + 1 else base
termination_by size
decreasing_by all_goals omega

/-- The number of elements that pass a test, if those come first. -/
def partitionPoint (test : α → Bool) (xs : List α) : Nat := search test xs 0 xs.length

end Bisection

namespace Content

/-- The position at which the IPv6 prefixes start. -/
def ipv6Start (c : Content) : Nat := Bisection.partitionPoint (·.family = .ipv4) c.prefixes

/-- The prefixes before the first IPv6 prefix. -/
def beforeIpv6Start (c : Content) : List IpPrefix := c.prefixes.take c.ipv6Start

/-- The prefixes from the first IPv6 prefix on. -/
def fromIpv6Start (c : Content) : List IpPrefix := c.prefixes.drop c.ipv6Start

end Content

end SignedPrefixes
