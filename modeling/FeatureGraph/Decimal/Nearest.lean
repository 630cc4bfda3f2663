import FeatureGraph.Decimal.Exact

/-!
# Reading decimals

The double nearest to a decimal number.  `nearest` answers a significand and an
exponent of two; a decimal beyond the largest double has none.
-/

namespace FeatureGraph.Decimal

/-- Significand and exponent of the double nearest to `c * 10 ^ e`, a half to the
even significand.  Decimals that are far out of range are told apart by their
number of digits alone, so that no huge power is computed. -/
def nearest (c : Nat) (e : Int) : Option (Nat × Int) :=
  let lead := (digitCount c : Int) + e
  if c = 0 ∨ lead < -340 then some (0, -1074)
  else if 310 < lead then none
  else
    let (num, den) :=
      let (tenNum, tenDen) := powRatio 10 e
      (c * tenNum, tenDen)
    let guess : Int := max (-1074) ((num.log2 : Int) - den.log2 - 53)
    let ratio (q : Int) : Nat × Nat :=
      let (twoNum, twoDen) := powRatio 2 q
      (num * twoDen, den * twoNum)
    let (n, d) := ratio guess
    let q := if 1 <<< 53 ≤ n / d then guess + 1 else guess
    let (n, d) := ratio q
    let m := roundDiv n d
    let (m, q) := if m = 1 <<< 53 then (1 <<< 52, q + 1) else (m, q)
    if 971 < q then none else some (m, q)

end FeatureGraph.Decimal
