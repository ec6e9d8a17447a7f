/-!
# Ranges of code points

A class of characters is a list of closed ranges of code points, in increasing order and apart.
-/

namespace ConfigExpr.Text

abbrev Ranges := List (Nat × Nat)

def Ranges.holds (ranges : Ranges) (c : Char) : Bool :=
  ranges.any fun r => r.1 ≤ c.toNat && c.toNat ≤ r.2

end ConfigExpr.Text
