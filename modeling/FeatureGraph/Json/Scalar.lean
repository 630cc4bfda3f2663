import FeatureGraph.Json.Value
import FeatureGraph.Decimal.Scalar

/-!
# Scalars in JSON documents

A finite scalar is written with the fewest digits that read back.  It keeps a
point, or has an exponent: positional notation is used for exponents from -5 to
15.  A scalar that is not finite has no numeral and is written as null.
-/

namespace FeatureGraph.Json

/-- The layout of scalars in documents. -/
def scalarLayout : Decimal.Layout where
  tie := .toEven
  positional e := decide (-5 ≤ e) && decide (e ≤ 15)
  keepsPoint := true
  marksExponent := true

def Value.ofScalar {α : Type} [DecimalText α] (a : α) : Value :=
  match (DecimalText.exact a).numeral? scalarLayout with
  | some n => .number n
  | none => .null

end FeatureGraph.Json
