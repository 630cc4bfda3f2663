import FeatureGraph.Proofs.Chain
import FeatureGraph.Proofs.Symbolic

/-!
# The laws of lowering

What an arithmetic has to satisfy for the chain of a feature to compute the feature's
own operator.  There may be infinities and values that are not numbers:
`SpecialValues` says how they compare, and `LoweringLaws` adds the identities between
the operator and its chain.  `ComparisonLaws` says how the numbers compare among
themselves.

`Operator.lowered_eq_value` is what the laws are for: an operator and its chain differ
at most on the square root of a negative argument.
-/

namespace FeatureGraph

/-- The usual conventions for values that are not finite.  Every value is finite,
infinite or not a number; a value that is not a number compares with nothing, and nothing
that is computed from it is a number. -/
class SpecialValues (α : Type) [Arith α] : Prop where
  isNaN_or_isInfinite_or_isFinite : ∀ a : α,
    Arith.isNaN a = true ∨ Arith.isInfinite a = true ∨ Arith.isFinite a = true
  eqv_of_isNaN : ∀ a b : α, Arith.isNaN a = true → Arith.eqv a b = false
  lt_of_isNaN : ∀ a b : α, Arith.isNaN a = true → Arith.lt a b = false
  isNaN_sub : ∀ a b : α, Arith.isNaN a = true → Arith.isNaN (a - b) = true
  isNaN_abs : ∀ a : α, Arith.isNaN a = true → Arith.isNaN (Arith.abs a) = true
  isFinite_zero : Arith.isFinite (0 : α) = true
  abs_zero : Arith.abs (0 : α) = 0
  lt_inf : ∀ a : α, Arith.isFinite a = true → Arith.lt a Arith.inf = true
  lt_of_le : ∀ a b : α, Arith.le a b = true → Arith.lt b a = false

namespace SpecialValues

variable {α : Type} [Arith α] {a : α}

theorem eqv_self (ha : Arith.isNaN a = false) : Arith.eqv a a = true := by
  simpa [Arith.isNaN] using ha

variable [SpecialValues α]

theorem isNaN_of_isFinite (ha : Arith.isFinite a = true) : Arith.isNaN a = false := by
  by_contra hnan
  have habs := isNaN_abs a (by simpa using hnan)
  have hlt := lt_of_isNaN (Arith.abs a) Arith.inf habs
  rw [Arith.isFinite, hlt] at ha
  cases ha

theorem isFinite_of_isNaN (ha : Arith.isNaN a = true) : Arith.isFinite a = false := by
  by_contra hfinite
  rw [isNaN_of_isFinite (by simpa using hfinite)] at ha
  cases ha

end SpecialValues

/-- The identities between operators and their chains. -/
class LoweringLaws (α : Type) [Arith α] : Prop extends SpecialValues α where
  zero_add : ∀ a : α, 0 + a = a
  one_mul : ∀ a : α, 1 * a = a
  add_neg_one_mul : ∀ a b : α, a + -1 * b = a - b
  sub_self : ∀ a : α, Arith.isFinite a = true → a - a = 0
  pow_abs_two : ∀ a : α, Arith.pow (Arith.abs a) 2.0 = a * a
  pow_neg_one : ∀ a : α, Arith.pow a (-1) = 1 / a
  pow_abs_half : ∀ a : α, Arith.lt a 0 = false → Arith.pow (Arith.abs a) 0.5 = Arith.sqrt a
  isNaN_sqrt : ∀ a : α, Arith.lt a 0 = true → Arith.isNaN (Arith.sqrt a) = true
  isNaN_pow_abs_half : ∀ a : α, Arith.lt a 0 = true →
    Arith.isNaN (Arith.pow (Arith.abs a) 0.5) = false

/-- Dividing by one changes nothing. -/
class PredictionLaws (α : Type) [Arith α] : Prop extends LoweringLaws α where
  natCast_one : ((1 : Nat) : α) = 1
  div_one : ∀ a : α, a / 1 = a

/-- How values that are numbers compare with each other, and with the results of the operations
that a discrepancy is computed by. -/
class ComparisonLaws (α : Type) [Arith α] : Prop extends SpecialValues α where
  isNaN_inf : Arith.isNaN (Arith.inf : α) = false
  isNaN_right_of_le : ∀ a b : α, Arith.le a b = true → Arith.isNaN b = false
  le_of_not_lt : ∀ a b : α, Arith.isNaN a = false → Arith.isNaN b = false →
    Arith.lt a b = false → Arith.le b a = true
  le_trans : ∀ a b c : α, Arith.le a b = true → Arith.le b c = true → Arith.le a c = true
  lt_of_le_of_lt : ∀ a b c : α, Arith.le a b = true → Arith.lt b c = true → Arith.lt a c = true
  zero_le_epsilon : Arith.le 0 (Arith.epsilon : α) = true
  zero_le_one : Arith.le 0 (1 : α) = true
  mul_nonneg : ∀ a b : α, Arith.le 0 a = true → Arith.le 0 b = true →
    Arith.isNaN (a * b) = false → Arith.le 0 (a * b) = true
  /-- A finite value divided by a positive one, which may be infinite. -/
  isNaN_div : ∀ a b : α, Arith.isFinite a = true → Arith.lt 0 b = true →
    Arith.isNaN (a / b) = false

namespace Operator

variable {α : Type} [Arith α]

/-- The square root of a negative argument, on which an operator and its chain differ. -/
def IsSqrtOfNegative (op : Operator) (args : List α) : Prop :=
  op = .sqrt ∧ ∃ a ∈ args, Arith.lt a 0 = true

theorem passed_eq [LoweringLaws α] (a : α) : passed a = a := by
  rw [passed, LoweringLaws.one_mul, LoweringLaws.zero_add]

/-- Elsewhere they agree. -/
theorem lowered_eq_value [LoweringLaws α] {op : Operator} {args : List α}
    (h : ¬op.IsSqrtOfNegative args) : op.lowered args = op.value args := by
  unfold lowered value
  split
  case h_4 a =>
    have hlt : Arith.lt a 0 = false := by
      by_contra hlt
      exact h ⟨rfl, a, by simp, by simpa using hlt⟩
    rw [passed_eq, LoweringLaws.pow_abs_half a hlt]
  case h_5 => rw [passed_eq, LoweringLaws.pow_neg_one]
  case h_6 => rw [passed_eq, LoweringLaws.pow_abs_two]
  case h_7 => rw [LoweringLaws.zero_add, LoweringLaws.one_mul, LoweringLaws.one_mul]
  case h_8 => rw [LoweringLaws.zero_add, LoweringLaws.one_mul, LoweringLaws.add_neg_one_mul]
  all_goals simp only [passed_eq]

/-- On the square root of a negative argument the operator answers no number, and its chain
answers one. -/
theorem isNaN_of_isSqrtOfNegative [LoweringLaws α] {op : Operator} {args : List α}
    (harity : args.length = op.arity) (h : op.IsSqrtOfNegative args) :
    Arith.isNaN (op.value args) = true ∧ Arith.isNaN (op.lowered args) = false := by
  obtain ⟨rfl, a, ha, hlt⟩ := h
  obtain ⟨b, rfl⟩ := List.length_eq_one_iff.1 harity
  rw [List.mem_singleton.1 ha] at hlt
  rw [lowered, passed_eq]
  exact ⟨LoweringLaws.isNaN_sqrt b hlt, LoweringLaws.isNaN_pow_abs_half b hlt⟩

end Operator

end FeatureGraph
