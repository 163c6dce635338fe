/-!
# Ranges of code points

A property of characters is kept as a list of closed ranges of code points.
-/

namespace SExpr.Text

/-- Closed ranges of code points, each a first and a last one. -/
abbrev Ranges := List (Nat × Nat)

/-- The code point of `c` lies in one of the ranges. -/
def Ranges.contains (ranges : Ranges) (c : Char) : Bool :=
  ranges.any fun r => r.1 ≤ c.toNat && c.toNat ≤ r.2

end SExpr.Text
