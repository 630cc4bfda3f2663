import FeatureGraph.Proofs.Laws

/-!
# Real numbers with infinities

The laws of lowering hold of the real numbers with two infinities and a value that is not a
number.  The conventions are the usual ones of floating-point arithmetic, except that there
is one zero and nothing is rounded.
-/

namespace FeatureGraph

inductive ExtendedReal where
  | finite (a : ℝ)
  | infinite (negative : Bool)
  | nan

namespace ExtendedReal

noncomputable section

/-- An infinity times a finite value: the sign of the value decides. -/
def scale (negative : Bool) (a : ℝ) : ExtendedReal :=
  if a = 0 then nan else infinite (negative != decide (a < 0))

def neg : ExtendedReal → ExtendedReal
  | finite a => finite (-a)
  | infinite negative => infinite !negative
  | nan => nan

def add : ExtendedReal → ExtendedReal → ExtendedReal
  | finite a, finite b => finite (a + b)
  | finite _, infinite n | infinite n, finite _ => infinite n
  | infinite m, infinite n => if m = n then infinite m else nan
  | nan, _ | _, nan => nan

def mul : ExtendedReal → ExtendedReal → ExtendedReal
  | finite a, finite b => finite (a * b)
  | finite a, infinite n | infinite n, finite a => scale n a
  | infinite m, infinite n => infinite (m != n)
  | nan, _ | _, nan => nan

def div : ExtendedReal → ExtendedReal → ExtendedReal
  | finite a, finite b => if b = 0 then scale false a else finite (a * b⁻¹)
  | finite _, infinite _ => finite 0
  | infinite n, finite b => infinite (n != decide (b < 0))
  | infinite _, infinite _ => nan
  | nan, _ | _, nan => nan

/-- Powers with finite exponents.  A negative base has powers with integer exponents only. -/
def pow : ExtendedReal → ExtendedReal → ExtendedReal
  | finite a, finite p =>
    if a = 0 ∧ p < 0 then infinite false
    else if a < 0 ∧ (⌊p⌋ : ℝ) ≠ p then nan
    else finite (a ^ p)
  | infinite n, finite p =>
    if p = 0 then finite 1
    else if p < 0 then finite 0
    else infinite (n && decide ((⌊p⌋ : ℝ) = p ∧ Odd ⌊p⌋))
  | nan, finite p => if p = 0 then finite 1 else nan
  | _, _ => nan

def abs : ExtendedReal → ExtendedReal
  | finite a => finite |a|
  | infinite _ => infinite false
  | nan => nan

def exp : ExtendedReal → ExtendedReal
  | finite a => finite (Real.exp a)
  | infinite n => if n then finite 0 else infinite false
  | nan => nan

def log : ExtendedReal → ExtendedReal
  | finite a => if a < 0 then nan else if a = 0 then infinite true else finite (Real.log a)
  | infinite n => if n then nan else infinite false
  | nan => nan

def sqrt : ExtendedReal → ExtendedReal
  | finite a => if a < 0 then nan else finite √a
  | infinite n => if n then nan else infinite false
  | nan => nan

def lt : ExtendedReal → ExtendedReal → Bool
  | finite a, finite b => decide (a < b)
  | finite _, infinite n => !n
  | infinite n, finite _ => n
  | infinite m, infinite n => m && !n
  | nan, _ | _, nan => false

def eqv : ExtendedReal → ExtendedReal → Bool
  | finite a, finite b => decide (a = b)
  | infinite m, infinite n => m == n
  | _, _ => false

instance : Arith ExtendedReal where
  zero := finite 0
  one := finite 1
  add := add
  sub a b := add a (neg b)
  mul := mul
  div := div
  neg := neg
  natCast n := finite n
  ofScientific m s e := finite (OfScientific.ofScientific m s e : ℚ)
  abs := abs
  exp := exp
  log := log
  sqrt := sqrt
  pow := pow
  inf := infinite false
  nan := nan
  epsilon := finite 0
  lt := lt
  eqv := eqv
  floor a := match a with
    | finite a => ⌊a⌋₊
    | _ => 0

end

/-! ## Laws -/

theorem two_eq : (2.0 : ExtendedReal) = finite 2 := by
  show finite ((2.0 : ℚ) : ℝ) = finite 2
  norm_num

theorem half_eq : (0.5 : ExtendedReal) = finite 2⁻¹ := by
  show finite ((0.5 : ℚ) : ℝ) = finite 2⁻¹
  norm_num

theorem isNaN_iff {a : ExtendedReal} : Arith.isNaN a = true ↔ a = nan := by
  show (!eqv a a) = true ↔ a = nan
  cases a <;> simp [eqv]

theorem isFinite_iff {a : ExtendedReal} : Arith.isFinite a = true ↔ ∃ b, a = finite b := by
  show lt (abs a) (infinite false) = true ↔ _
  cases a <;> simp [abs, lt]

instance : SpecialValues ExtendedReal where
  isNaN_or_isInfinite_or_isFinite a := by
    cases a with
    | finite a => exact .inr (.inr (isFinite_iff.2 ⟨a, rfl⟩))
    | infinite n =>
      right
      left
      show (eqv (infinite n) (infinite false) || eqv (infinite n) (infinite true)) = true
      cases n <;> rfl
    | nan => exact .inl (isNaN_iff.2 rfl)
  eqv_of_isNaN a b ha := by
    rw [isNaN_iff.1 ha]
    rfl
  lt_of_isNaN a b ha := by
    rw [isNaN_iff.1 ha]
    rfl
  isNaN_sub a b ha := by
    rw [isNaN_iff.1 ha]
    exact isNaN_iff.2 rfl
  isNaN_abs a ha := by
    rw [isNaN_iff.1 ha]
    exact isNaN_iff.2 rfl
  isFinite_zero := isFinite_iff.2 ⟨0, rfl⟩
  abs_zero := by
    show finite |0| = finite 0
    rw [abs_zero]
  lt_inf a ha := by
    obtain ⟨b, rfl⟩ := isFinite_iff.1 ha
    rfl
  lt_of_le a b h := by
    have h : (lt a b || eqv a b) = true := h
    show lt b a = false
    cases a with
    | finite a =>
      cases b with
      | finite b =>
        simp only [lt, eqv, Bool.or_eq_true, decide_eq_true_eq] at h
        simp only [lt, decide_eq_false_iff_not, not_lt]
        exact le_of_lt_or_eq h
      | infinite n => simpa [lt, eqv] using h
      | nan => rfl
    | infinite m =>
      cases b with
      | finite b => simpa [lt, eqv] using h
      | infinite n => cases m <;> cases n <;> simp_all [lt, eqv]
      | nan => rfl
    | nan => cases b <;> rfl

instance : LoweringLaws ExtendedReal where
  zero_add a := by
    show add (finite 0) a = a
    cases a <;> simp [add]
  one_mul a := by
    show mul (finite 1) a = a
    have hone : ¬(1 : ℝ) < 0 := by norm_num
    cases a <;> simp [mul, scale, hone]
  add_neg_one_mul a b := by
    show add a (mul (finite (-1)) b) = add a (neg b)
    cases b <;> simp [mul, neg, scale]
  sub_self a ha := by
    obtain ⟨b, rfl⟩ := isFinite_iff.1 ha
    show finite (b + -b) = finite 0
    rw [add_neg_cancel]
  pow_abs_two a := by
    rw [two_eq]
    show pow (abs a) (finite 2) = mul a a
    cases a with
    | finite a =>
      have hneg : ¬|a| < 0 := not_lt.2 (abs_nonneg a)
      simp [abs, pow, mul, hneg, sq]
    | infinite n => cases n <;> simp [abs, pow, mul]
    | nan => simp [abs, pow, mul]
  pow_neg_one a := by
    show pow a (finite (-1)) = div (finite 1) a
    cases a with
    | finite a =>
      by_cases ha : a = 0
      · simp [pow, div, scale, ha]
      · have hinteger : (⌊(-1 : ℝ)⌋ : ℝ) = -1 := by norm_num
        simp [pow, div, ha, hinteger, Real.rpow_neg_one]
    | infinite n => simp [pow, div]
    | nan => simp [pow, div]
  pow_abs_half a ha := by
    rw [half_eq]
    have ha : lt a (finite 0) = false := ha
    show pow (abs a) (finite 2⁻¹) = sqrt a
    cases a with
    | finite a =>
      have hneg : ¬a < 0 := by simpa [lt] using ha
      simp [abs, pow, sqrt, hneg, abs_of_nonneg (not_lt.1 hneg), Real.sqrt_eq_rpow]
    | infinite n =>
      have hn : n = false := ha
      simp [abs, pow, sqrt, hn]
    | nan => simp [abs, pow, sqrt]
  isNaN_sqrt a ha := by
    have ha : lt a (finite 0) = true := ha
    refine isNaN_iff.2 ?_
    show sqrt a = nan
    cases a with
    | finite a =>
      have hneg : a < 0 := by simpa [lt] using ha
      simp [sqrt, hneg]
    | infinite n =>
      have hn : n = true := ha
      simp [sqrt, hn]
    | nan => rfl
  isNaN_pow_abs_half a ha := by
    have ha : lt a (finite 0) = true := ha
    rw [← Bool.not_eq_true, isNaN_iff, half_eq]
    show ¬pow (abs a) (finite 2⁻¹) = nan
    have htwo : ¬(2 : ℝ) < 0 := by norm_num
    cases a with
    | finite a =>
      have hneg : ¬|a| < 0 := not_lt.2 (abs_nonneg a)
      simp [abs, pow, hneg, htwo]
    | infinite n => simp [abs, pow, htwo]
    | nan => cases ha

instance : PredictionLaws ExtendedReal where
  natCast_one := by
    show finite ((1 : ℕ) : ℝ) = finite 1
    rw [Nat.cast_one]
  div_one a := by
    show div a (finite 1) = a
    have hone : ¬(1 : ℝ) < 0 := by norm_num
    cases a <;> simp [div, hone]

theorem one_le_one : Arith.le (1 : ExtendedReal) 1 = true := by
  show (lt (finite 1) (finite 1) || eqv (finite 1) (finite 1)) = true
  simp [lt, eqv]

theorem not_zero_lt_zero : Arith.lt (0 : ExtendedReal) 0 = false := by
  show decide ((0 : ℝ) < 0) = false
  simp

theorem zero_le_iff {a : ExtendedReal} :
    Arith.le 0 a = true ↔ (∃ r, 0 ≤ r ∧ a = finite r) ∨ a = infinite false := by
  show (lt (finite 0) a || eqv (finite 0) a) = true ↔ _
  cases a with
  | finite r => simp [lt, eqv, le_iff_lt_or_eq]
  | infinite n => cases n <;> simp [lt, eqv]
  | nan => simp [lt, eqv]

instance : ComparisonLaws ExtendedReal where
  isNaN_inf := by
    rw [← Bool.not_eq_true, isNaN_iff]
    exact nofun
  isNaN_right_of_le a b h := by
    have h : (lt a b || eqv a b) = true := h
    rw [← Bool.not_eq_true, isNaN_iff]
    rintro rfl
    cases a <;> cases h
  le_of_not_lt a b ha hb h := by
    have h : lt a b = false := h
    rw [← Bool.not_eq_true, isNaN_iff] at ha hb
    show (lt b a || eqv b a) = true
    cases a with
    | finite a =>
      cases b with
      | finite b =>
        have h : b ≤ a := by simpa [lt] using h
        simpa [lt, eqv] using h.lt_or_eq
      | infinite n => simpa [lt, eqv] using h
      | nan => exact absurd rfl hb
    | infinite m =>
      cases b with
      | finite b => simpa [lt, eqv] using h
      | infinite n => cases m <;> cases n <;> simp_all [lt, eqv]
      | nan => exact absurd rfl hb
    | nan => exact absurd rfl ha
  le_trans a b c hab hbc := by
    have hab : (lt a b || eqv a b) = true := hab
    have hbc : (lt b c || eqv b c) = true := hbc
    show (lt a c || eqv a c) = true
    cases a <;> cases b <;> cases c <;> simp_all [lt, eqv] <;> grind
  lt_of_le_of_lt a b c hab hbc := by
    have hab : (lt a b || eqv a b) = true := hab
    have hbc : lt b c = true := hbc
    show lt a c = true
    cases a <;> cases b <;> cases c <;> simp_all [lt, eqv]
    grind
  zero_le_epsilon := zero_le_iff.2 (.inl ⟨0, le_refl 0, rfl⟩)
  zero_le_one := zero_le_iff.2 (.inl ⟨1, zero_le_one, rfl⟩)
  mul_nonneg a b ha hb h := by
    have hscale : ∀ r : ℝ, 0 ≤ r → Arith.isNaN (scale false r) = false →
        Arith.le 0 (scale false r) = true := by
      intro r hr hnumber
      have hne : r ≠ 0 := by
        rintro rfl
        have hnan : scale false 0 = nan := if_pos rfl
        rw [isNaN_iff.2 hnan] at hnumber
        cases hnumber
      refine zero_le_iff.2 (.inr ?_)
      simp [scale, hne, not_lt.2 hr]
    rcases zero_le_iff.1 ha with ⟨r, hr, rfl⟩ | rfl
    · rcases zero_le_iff.1 hb with ⟨s, hs, rfl⟩ | rfl
      · exact zero_le_iff.2 (.inl ⟨r * s, mul_nonneg hr hs, rfl⟩)
      · exact hscale r hr h
    · rcases zero_le_iff.1 hb with ⟨s, hs, rfl⟩ | rfl
      · exact hscale s hs h
      · exact zero_le_iff.2 (.inr rfl)
  isNaN_div a b ha hb := by
    obtain ⟨a, rfl⟩ := isFinite_iff.1 ha
    have hb : lt (finite 0) b = true := hb
    rw [← Bool.not_eq_true, isNaN_iff]
    show ¬div (finite a) b = nan
    cases b with
    | finite b =>
      have hne : b ≠ 0 := fun heq => by simp [lt, heq] at hb
      simp [div, hne]
    | infinite n => simp [div]
    | nan => cases hb

end ExtendedReal

end FeatureGraph
