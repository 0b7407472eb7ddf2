/-!
# Tables of code points

The tables behind the character classes: sorted, disjoint, inclusive ranges of code points.
-/

namespace WireSchema

/-- Inclusive ranges of code points, in increasing order. -/
abbrev RangeTable := List (Nat × Nat)

namespace RangeTable

/-- Is the code point in one of the ranges? The search stops at the first range that ends at or
after it. -/
def contains : RangeTable → Nat → Bool
  | [], _ => false
  | (lo, hi) :: rest, n => if n ≤ hi then lo ≤ n else contains rest n

end RangeTable

end WireSchema
