import FeatureGraph.Proofs.Lowering
import FeatureGraph.Proofs.Spread

/-!
# Two zeros

In an arithmetic with two zeros an operator and its chain differ on more than square roots.  The
affine nodes in front of a chain add what they pass on to the positive zero, so that no negative
zero gets through, and a division by it then answers the other infinity.

`SignedZeros` are the conventions of floating-point arithmetic for the two zeros.  There the
operators other than the square root respect values: `value_lowered` compares an operator with its
chain, on arguments of the same values, and `value_lowered_of_dividesByNegativeZero` is the case
that is left.  `SignedReal` is such an arithmetic, without rounding.
-/

namespace FeatureGraph

open ExtendedReal (finite infinite nan)

/-- Scalars with two zeros of one value.  The value of a result is a function of the values of the
operands, but for a division by zero, whose sign decides. -/
class SignedZeros (α : Type) [Arith α] extends HasValue α where
  value_one : value (1 : α) = finite 1
  value_exp_congr : ∀ {a b : α}, value a = value b → value (Arith.exp a) = value (Arith.exp b)
  value_log_congr : ∀ {a b : α}, value a = value b → value (Arith.log a) = value (Arith.log b)
  value_add_congr : ∀ {a a' b b' : α}, value a = value a' → value b = value b' →
    value (a + b) = value (a' + b')
  value_sub_congr : ∀ {a a' b b' : α}, value a = value a' → value b = value b' →
    value (a - b) = value (a' - b')
  value_mul_congr : ∀ {a a' b b' : α}, value a = value a' → value b = value b' →
    value (a * b) = value (a' * b')
  value_div_congr : ∀ {a a' b b' : α}, value a = value a' → value b = value b' →
    value b ≠ finite 0 → value (a / b) = value (a' / b')
  /-- Divided by the positive zero, a number other than zero becomes infinite. -/
  value_div_zero : ∀ a : α, value (a / 0) = (value a).div (finite 0)
  value_div_neg_zero : ∀ a : α, value (a / -0) = (value (a / 0)).neg
  eq_zero_or_eq_neg_zero : ∀ {a : α}, value a = finite 0 → a = 0 ∨ a = -0
  value_zero_add : ∀ a : α, value (0 + a) = value a
  /-- The positive zero takes the sign of any zero that it is added to. -/
  zero_add_of_value_eq_zero : ∀ {a : α}, value a = finite 0 → 0 + a = 0
  value_one_mul : ∀ a : α, value (1 * a) = value a
  value_add_neg_one_mul : ∀ a b : α, value (a + -1 * b) = value (a - b)
  value_sub_self : ∀ {a b : α} {x : ℝ}, value a = finite x → value b = finite x →
    value (a - b) = finite 0
  value_pow_neg_one : ∀ a : α, value (Arith.pow a (-1)) = value (1 / a)
  value_pow_abs_two : ∀ a : α, value (Arith.pow (Arith.abs a) 2.0) = value (a * a)

namespace Operator

variable {α : Type} [Arith α]

/-- What an operator divides, and by what. -/
def quotient? : Operator → List α → Option (α × α)
  | reciprocal, [a] => some (1, a)
  | divide, [a, b] => some (a, b)
  | _, _ => none

/-- A division by the negative zero, of a number other than zero. -/
def DividesByNegativeZero (op : Operator) (args : List α) : Prop :=
  ∃ a, op.quotient? args = some (a, -0) ∧ Arith.isNaN a = false ∧ Arith.eqv a 0 = false

theorem DividesByNegativeZero.ne_identity {op : Operator} {args : List α}
    (h : op.DividesByNegativeZero args) : op ≠ .identity := by
  rintro rfl
  obtain ⟨_, hquotient, _⟩ := h
  cases hquotient

theorem DividesByNegativeZero.ne_nil {op : Operator} {args : List α}
    (h : op.DividesByNegativeZero args) : args ≠ [] := by
  rintro rfl
  obtain ⟨_, hquotient, _⟩ := h
  cases op <;> cases hquotient

end Operator

namespace SignedZeros

open HasValue
open Operator (passed exists_args)

variable {α : Type} [Arith α] [SignedZeros α] {a a' b b' : α} {op : Operator} {args args' : List α}

theorem dividesByNegativeZero_iff :
    op.DividesByNegativeZero args ↔
      ∃ a, op.quotient? args = some (a, -0) ∧ value a ≠ nan ∧ value a ≠ finite 0 := by
  have hzero : ∀ a : α, Arith.eqv a 0 = true ↔ value a = finite 0 := by
    intro a
    rw [eqv_eq, value_zero]
    cases value a <;> simp [ExtendedReal.eqv]
  simp only [Operator.DividesByNegativeZero, ← Bool.not_eq_true, isNaN_iff, hzero, ne_eq]

/-! ## Quotients -/

theorem value_passed (a : α) : value (passed a) = value a := by
  rw [passed, value_zero_add, value_one_mul]

/-- An affine node passes on no negative zero. -/
theorem passed_eq_zero (ha : value a = finite 0) : passed a = 0 := by
  rw [passed, zero_add_of_value_eq_zero]
  rw [value_one_mul, ha]

/-- Apart from divisions by the negative zero, a quotient can be computed of what has been passed
on. -/
theorem value_div_passed (ha : value a' = value a) (hb : value b' = value b)
    (h : b = -0 → value a = nan ∨ value a = finite 0) : value (a' / passed b') = value (a / b) := by
  by_cases hzero : value b = finite 0
  · rw [passed_eq_zero (hb.trans hzero), value_div_zero, ha]
    rcases eq_zero_or_eq_neg_zero hzero with rfl | rfl
    · rw [value_div_zero]
    · rw [value_div_neg_zero, value_div_zero]
      -- neither quotient is a number
      rcases h rfl with hnan | hzero
      · simp [hnan, ExtendedReal.div, ExtendedReal.neg]
      · simp [hzero, ExtendedReal.div, ExtendedReal.scale, ExtendedReal.neg]
  · refine value_div_congr ha ((value_passed b').trans hb) ?_
    rwa [value_passed, hb]

/-- A number divided by the negative zero changes its sign, once the zero has been passed on. -/
theorem value_div_passed_neg_zero (ha : value a' = value a) (hb : value b' = value (-0 : α))
    (hnan : value a ≠ nan) (hzero : value a ≠ finite 0) :
    ∃ n, value (a / -0) = infinite n ∧ value (a' / passed b') = infinite !n := by
  have hinfinite : ∃ n, (value a).div (finite 0) = infinite n := by
    cases hvalue : value a with
    | finite x =>
      have hx : x ≠ 0 := fun hx => hzero (by rw [hvalue, hx])
      simp [ExtendedReal.div, ExtendedReal.scale, hx]
    | infinite n => simp [ExtendedReal.div]
    | nan => exact absurd hvalue hnan
  have hpassed : passed b' = 0 := by
    refine passed_eq_zero (hb.trans ?_)
    rw [value_neg, value_zero]
    simp [ExtendedReal.neg]
  obtain ⟨n, hn⟩ := hinfinite
  refine ⟨!n, ?_, ?_⟩
  · rw [value_div_neg_zero, value_div_zero, hn]
    rfl
  · rw [hpassed, value_div_zero, ha, hn, Bool.not_not]

/-! ## Operators -/

theorem exists_pair (hargs : args'.map value = [a, b].map value) :
    ∃ a' b', args' = [a', b'] ∧ value a' = value a ∧ value b' = value b := by
  obtain ⟨a', rest, rfl, ha, hrest⟩ := List.map_eq_cons_iff.1 hargs
  obtain ⟨b', rfl, hb⟩ := List.map_eq_singleton_iff.1 hrest
  exact ⟨a', b', rfl, ha, hb⟩

/-- Apart from divisions by the negative zero and from square roots, an operator and its chain
answer the same value on arguments of the same values. -/
theorem value_lowered (hidentity : op ≠ .identity) (hsqrt : op ≠ .sqrt)
    (harity : args.length = op.arity) (hargs : args'.map value = args.map value)
    (h : ¬op.DividesByNegativeZero args) : value (op.lowered args') = value (op.value args) := by
  have hquotient : ∀ {a b}, op.quotient? args = some (a, b) → b = -0 →
      value a = nan ∨ value a = finite 0 := by
    rintro a b hq rfl
    by_contra hnot
    exact h (dividesByNegativeZero_iff.2 ⟨a, hq, not_or.1 hnot⟩)
  rcases exists_args hidentity harity with ⟨a, rfl⟩ | ⟨a, b, rfl⟩
  · obtain ⟨a', rfl, ha⟩ := List.map_eq_singleton_iff.1 hargs
    have hpassed : value (passed a') = value a := (value_passed a').trans ha
    cases op with
    | sqrt => exact absurd rfl hsqrt
    | exp => exact value_exp_congr hpassed
    | log => exact value_log_congr hpassed
    | abs =>
      show value (Arith.abs (passed a')) = value (Arith.abs a)
      rw [value_abs, value_abs, hpassed]
    | square => exact (value_pow_abs_two _).trans (value_mul_congr hpassed hpassed)
    | reciprocal => exact (value_pow_neg_one _).trans (value_div_passed rfl ha (hquotient rfl))
    | identity | add | subtract | divide | multiply => cases harity
  · obtain ⟨a', b', rfl, ha, hb⟩ := exists_pair hargs
    have hleft : value (passed a') = value a := (value_passed a').trans ha
    have hright : value (passed b') = value b := (value_passed b').trans hb
    cases op with
    | add => exact value_add_congr hleft ((value_one_mul b').trans hb)
    | subtract => exact (value_add_neg_one_mul _ _).trans (value_sub_congr hleft hb)
    | multiply => exact value_mul_congr hleft hright
    | divide => exact value_div_passed hleft hb (hquotient rfl)
    | identity | exp | log | abs | sqrt | reciprocal | square => cases harity

/-- On a division by the negative zero an operator and its chain answer opposite infinities. -/
theorem value_lowered_of_dividesByNegativeZero (hargs : args'.map value = args.map value)
    (h : op.DividesByNegativeZero args) :
    ∃ n, value (op.value args) = infinite n ∧ value (op.lowered args') = infinite !n := by
  obtain ⟨a, hquotient, hnan, hzero⟩ := dividesByNegativeZero_iff.1 h
  unfold Operator.quotient? at hquotient
  split at hquotient
  case h_1 b =>
    cases hquotient
    obtain ⟨b', rfl, hb⟩ := List.map_eq_singleton_iff.1 hargs
    obtain ⟨n, hvalue, hlowered⟩ := value_div_passed_neg_zero rfl hb hnan hzero
    exact ⟨n, hvalue, (value_pow_neg_one _).trans hlowered⟩
  case h_2 a b =>
    cases hquotient
    obtain ⟨a', b', rfl, ha, hb⟩ := exists_pair hargs
    exact value_div_passed_neg_zero ((value_passed a').trans ha) hb hnan hzero
  case h_3 => cases hquotient

end SignedZeros

end FeatureGraph
