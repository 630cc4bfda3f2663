import Mathlib
import FeatureGraph.Arith

/-!
# Exact arithmetic

`ExactArith` is arithmetic without rounding: a commutative ring in which a quotient is
the product with a reciprocal, and whose own test for equality tells equal from unequal.
Nothing is asked of reciprocals, roots, powers, exponentials and logarithms, so
whatever is proved holds however they are filled in.

In exact arithmetic the sum of a column is the sum over its rows, as `sum_ofFn` and
`mean_ofFn` say.  The real numbers are an instance.
-/

namespace FeatureGraph

/-- Arithmetic without rounding. -/
class ExactArith (α : Type) extends CommRing α, Arith α where
  div_eq : ∀ a b : α, a / b = a * (1 / b)
  eqv_iff : ∀ a b : α, Arith.eqv a b = true ↔ a = b

namespace Arith

variable {α : Type} [ExactArith α]

theorem sum_eq_sum (xs : List α) : Arith.sum xs = xs.sum := by
  rw [Arith.sum, neg_zero, List.sum_eq_foldl]

theorem sum_ofFn {n : Nat} (f : Fin n → α) : Arith.sum (List.ofFn f) = ∑ r, f r := by
  rw [sum_eq_sum, List.sum_ofFn]

theorem mean_ofFn {n : Nat} (f : Fin n → α) :
    Arith.mean (List.ofFn f) = ∑ r, f r * (1 / (n : α)) := by
  rw [Arith.mean, sum_ofFn, List.length_ofFn, ExactArith.div_eq, Finset.sum_mul]

end Arith

/-- The real numbers.  There is no infinity among them, and zero stands in for it. -/
noncomputable instance : ExactArith ℝ where
  abs a := |a|
  exp := Real.exp
  log := Real.log
  sqrt := Real.sqrt
  pow := (· ^ ·)
  inf := 0
  nan := 0
  epsilon := 0
  lt a b := decide (a < b)
  eqv a b := decide (a = b)
  floor a := ⌊a⌋₊
  div_eq a b := by rw [mul_one_div]
  eqv_iff a b := by simp

end FeatureGraph
