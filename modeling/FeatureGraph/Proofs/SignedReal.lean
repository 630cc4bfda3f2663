import FeatureGraph.Proofs.SignedZeros

/-!
# Real numbers with two zeros

The extended real numbers, where a zero has a sign.  Signs of results are those of floating-point
arithmetic; nothing is rounded.
-/

namespace FeatureGraph

open ExtendedReal (finite infinite nan)

/-- A real number, an infinity or a value that is not a number.  A zero may be negative. -/
@[ext] structure SignedReal where
  value : ExtendedReal
  minus : Bool
  value_of_minus : minus = true → value = finite 0

namespace SignedReal

noncomputable section

open Classical in
/-- A value with a sign, which is kept for a zero only. -/
def signed (value : ExtendedReal) (minus : Bool) : SignedReal where
  value := value
  minus := minus && decide (value = finite 0)
  value_of_minus h := by
    simp only [Bool.and_eq_true, decide_eq_true_eq] at h
    exact h.2

/-- Whether the value has the negative sign. -/
def isNegative (a : SignedReal) : Bool := a.minus || a.value.lt (finite 0)

/-- Whether an exponent is an odd integer, so that a power keeps the sign of its base. -/
def isOdd : ExtendedReal → Bool
  | finite p => decide ((⌊p⌋ : ℝ) = p ∧ Odd ⌊p⌋)
  | _ => false

def neg (a : SignedReal) : SignedReal := signed a.value.neg !a.minus

/-- A sum of zeros is negative if both are. -/
def add (a b : SignedReal) : SignedReal := signed (a.value.add b.value) (a.minus && b.minus)

def mul (a b : SignedReal) : SignedReal :=
  signed (a.value.mul b.value) (a.isNegative != b.isNegative)

/-- A quotient by the negative zero is the opposite of the one by the positive zero. -/
def div (a b : SignedReal) : SignedReal :=
  let quotient := a.value.div b.value
  signed (if b.minus then quotient.neg else quotient) (a.isNegative != b.isNegative)

/-- An odd power of the negative zero is the opposite of that of the positive zero. -/
def pow (a p : SignedReal) : SignedReal :=
  let power := a.value.pow p.value
  signed (if a.minus && isOdd p.value then power.neg else power) (a.isNegative && isOdd p.value)

instance : Arith SignedReal where
  zero := signed 0 false
  one := signed 1 false
  add := add
  sub a b := add a (neg b)
  mul := mul
  div := div
  neg := neg
  natCast n := signed n false
  ofScientific m s e := signed (OfScientific.ofScientific m s e) false
  abs a := signed a.value.abs false
  exp a := signed a.value.exp false
  log a := signed a.value.log false
  sqrt a := signed a.value.sqrt a.minus
  pow := pow
  inf := signed Arith.inf false
  nan := signed Arith.nan false
  epsilon := signed Arith.epsilon false
  lt a b := a.value.lt b.value
  eqv a b := a.value.eqv b.value
  floor a := Arith.floor a.value

end

/-! ## Laws -/

noncomputable instance : HasValue SignedReal where
  value := SignedReal.value
  lt_eq _ _ := rfl
  eqv_eq _ _ := rfl
  value_zero := rfl
  value_inf := rfl
  value_neg _ := rfl
  value_abs _ := rfl
  value_sub _ _ _ := rfl

theorem minus_eq_false {a : SignedReal} (ha : a.value ≠ finite 0) : a.minus = false := by
  simpa using mt a.value_of_minus ha

theorem neg_zero_eq : (-0 : SignedReal) = signed (finite 0) true := by
  show signed (finite (-0)) true = signed (finite 0) true
  rw [neg_zero]

theorem isOdd_neg_one : isOdd (finite (-1)) = true := by
  have hfloor : ⌊(-1 : ℝ)⌋ = -1 := by norm_num
  simp [isOdd, hfloor]

noncomputable instance : SignedZeros SignedReal where
  value_one := rfl
  value_exp_congr h := congrArg ExtendedReal.exp h
  value_log_congr h := congrArg ExtendedReal.log h
  value_add_congr ha hb := congrArg₂ ExtendedReal.add ha hb
  value_sub_congr ha hb := congrArg₂ ExtendedReal.add ha (congrArg ExtendedReal.neg hb)
  value_mul_congr ha hb := congrArg₂ ExtendedReal.mul ha hb
  value_div_congr {a a' b b'} ha hb hne := by
    have ha : a.value = a'.value := ha
    have hb : b.value = b'.value := hb
    have hminus : b.minus = false := minus_eq_false hne
    have hminus' : b'.minus = false := minus_eq_false (hb ▸ hne)
    show (div a b).value = (div a' b').value
    simp [div, signed, ha, hb, hminus, hminus']
  value_div_zero a := rfl
  value_div_neg_zero a := by
    have hminus : (signed (finite 0) true).minus = true := by simp [signed]
    rw [neg_zero_eq]
    show (div a (signed (finite 0) true)).value = (a.value.div (finite 0)).neg
    rw [div, hminus, if_pos rfl]
    rfl
  eq_zero_or_eq_neg_zero {a} ha := by
    obtain ⟨v, minus, hminus⟩ := a
    obtain rfl : v = finite 0 := ha
    cases minus with
    | false => exact .inl rfl
    | true =>
      right
      rw [neg_zero_eq]
      simp [signed]
  value_zero_add a := LoweringLaws.zero_add a.value
  zero_add_of_value_eq_zero {a} ha := by
    have ha : a.value = finite 0 := ha
    show signed ((finite 0).add a.value) false = signed (finite 0) false
    rw [ha]
    simp [ExtendedReal.add]
  value_one_mul a := LoweringLaws.one_mul a.value
  value_add_neg_one_mul a b := LoweringLaws.add_neg_one_mul a.value b.value
  value_sub_self {a b x} ha hb := by
    have ha : a.value = finite x := ha
    have hb : b.value = finite x := hb
    show a.value.add b.value.neg = finite 0
    rw [ha, hb]
    simp [ExtendedReal.add, ExtendedReal.neg]
  value_pow_neg_one a := by
    have hpow : a.value.pow (finite (-1)) = (finite 1).div a.value :=
      LoweringLaws.pow_neg_one a.value
    show (if a.minus && isOdd (finite (-1)) then (a.value.pow (finite (-1))).neg
        else a.value.pow (finite (-1))) =
      if a.minus then ((finite 1).div a.value).neg else (finite 1).div a.value
    rw [isOdd_neg_one, Bool.and_true, hpow]
  value_pow_abs_two a := LoweringLaws.pow_abs_two a.value

/-- One is neutral, also for the sign of a zero. -/
theorem one_mul (a : SignedReal) : 1 * a = a := by
  have hone : (1 : SignedReal).isNegative = false := by
    show (false || decide ((1 : ℝ) < 0)) = false
    simp
  have hvalue : (finite 1).mul a.value = a.value := LoweringLaws.one_mul a.value
  show signed ((finite 1).mul a.value) ((1 : SignedReal).isNegative != a.isNegative) = a
  rw [hone, hvalue]
  refine SignedReal.ext rfl ?_
  by_cases hzero : a.value = finite 0
  · simp [signed, isNegative, hzero, ExtendedReal.lt]
  · simp [signed, hzero, minus_eq_false hzero]

end SignedReal

end FeatureGraph
