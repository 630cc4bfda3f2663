import FeatureGraph.Decimal.Layout
import FeatureGraph.Decimal.Nearest

/-!
# Scalars with a text

`DecimalText` is what texts need of a scalar type: the exact value that a scalar
stands for, and the scalar nearest to a decimal.  Doubles are the instance in use.
-/

namespace FeatureGraph

/-- Scalars that can be written as decimals and read from them. -/
class DecimalText (α : Type) where
  exact : α → Decimal.Exact
  /-- The scalar nearest to `c * 10 ^ e`, with a sign; `none` beyond the range. -/
  nearest? (negative : Bool) (c : Nat) (e : Int) : Option α

namespace Decimal

/-- What a double stands for. -/
def Exact.ofDouble (x : Float) : Exact :=
  let bits := x.toBits.toNat
  let negative := decide (1 <<< 63 ≤ bits)
  let biased : Nat := (bits >>> 52) % (1 <<< 11)
  let fraction := bits % (1 <<< 52)
  if biased = 2047 then
    if fraction = 0 then .infinite negative else .notANumber
  else if biased = 0 then .finite negative fraction (-1074)
  else .finite negative ((1 <<< 52) + fraction) ((biased : Int) - 1075)

/-- The double with the given sign, significand and exponent, which must be
those of a double. -/
def toDouble (negative : Bool) (m : Nat) (q : Int) : Float :=
  let magnitude := if m < 1 <<< 52 then m else ((q + 1075).toNat <<< 52) + (m - (1 <<< 52))
  Float.ofBits (UInt64.ofNat ((if negative then 1 <<< 63 else 0) + magnitude))

end Decimal

instance : DecimalText Float where
  exact := Decimal.Exact.ofDouble
  nearest? negative c e := (Decimal.nearest c e).map fun (m, q) => Decimal.toDouble negative m q

end FeatureGraph
