import FeatureGraph.Proofs.DoubleFormat

/-!
# Rounding to doubles

The nearest double to a real number, the one with the even significand halfway between two, and an
infinity beyond the largest double.

There are three groups.

* Magnitudes.  `Rounds v k E` says that `v` is rounded to `k` units of `2 ^ E`.  Rounding does not
  cross a double (`Rounds.le_of_le`), and it moves a number by little (`Rounds.error_le`).
* Numbers with signs.  `RoundsTo r result` is the rounding of any real number.
* The laws.  `DoubleLaws` are the scalars whose basic operations round their exact results.
-/

namespace FeatureGraph.Double

open Float.Model Float.Model.UnpackedFloat

/-! ## Magnitudes -/

/-- The nearest integer, the even one halfway between two. -/
structure IsNearest (k : ℕ) (x : ℝ) : Prop where
  near : |k - x| ≤ 1 / 2
  even : |k - x| = 1 / 2 → Even k

namespace IsNearest

variable {k : ℕ} {x : ℝ}

theorem of_lt (h : |k - x| < 1 / 2) : IsNearest k x := ⟨h.le, fun heq => absurd heq h.ne⟩

theorem le_of_le (h : IsNearest k x) {n : ℕ} (hn : (n : ℝ) ≤ x) : n ≤ k := by
  have hnear := (abs_le.1 h.near).1
  have hlt : (n : ℝ) < k + 1 := by linarith
  exact Nat.lt_succ_iff.1 (by exact_mod_cast hlt)

theorem le_of_ge (h : IsNearest k x) {n : ℕ} (hn : x ≤ n) : k ≤ n := by
  have hnear := (abs_le.1 h.near).2
  have hlt : (k : ℝ) < n + 1 := by linarith
  exact Nat.lt_succ_iff.1 (by exact_mod_cast hlt)

/-- Everything from halfway below an even number on is rounded to that number or above. -/
theorem lt_iff (h : IsNearest k x) {n : ℕ} (hn : Even n) : k < n ↔ x < n - 1 / 2 := by
  obtain ⟨hlow, hhigh⟩ := abs_le.1 h.near
  constructor
  · intro hlt
    have hle : (k : ℝ) + 1 ≤ n := by exact_mod_cast hlt
    refine lt_of_le_of_ne (by linarith) fun heq => ?_
    -- halfway between `k` and the next number, which is even
    obtain rfl : n = k + 1 := by
      have hge : (n : ℝ) ≤ k + 1 := by linarith
      exact le_antisymm (by exact_mod_cast hge) hlt
    have heven : Even k := h.even (by rw [abs_sub_comm, abs_of_nonneg] <;> linarith)
    exact (Nat.even_add_one.1 hn) heven
  · intro hlt
    have hlt' : (k : ℝ) < n := by linarith
    exact_mod_cast hlt'

end IsNearest

/-- `v` is rounded to `k` units of `2 ^ E`, the largest units in which `v` has 53 bits. -/
structure Rounds (v : ℝ) (k : ℕ) (E : ℤ) : Prop where
  nonneg : 0 ≤ v
  ge : -1074 ≤ E
  lt : v / 2 ^ E < 2 ^ 53
  normal : 2 ^ 52 ≤ v / 2 ^ E ∨ E = -1074
  nearest : IsNearest k (v / 2 ^ E)

/-- Numbers from `2 ^ 1024 - 2 ^ 970` on, halfway between the largest double and the next power of
two, are rounded to infinity. -/
noncomputable def overflow : ℝ := (2 ^ 54 - 1) * 2 ^ (970 : ℤ)

theorem overflow_pos : 0 < overflow := mul_pos (by norm_num) (by positivity)

theorem scaled_shift (m : ℕ) (e : ℤ) (d : ℕ) :
    (m * 2 ^ (e + d : ℤ) : ℝ) = (m * 2 ^ d : ℕ) * 2 ^ e := by
  rw [zpow_add₀ two_ne_zero, zpow_natCast]
  push_cast
  ring

/-- A number with a larger exponent is a number of units. -/
theorem exists_units (m : ℕ) {e E : ℤ} (he : E ≤ e) : ∃ n : ℕ, (m * 2 ^ e : ℝ) = n * 2 ^ E := by
  obtain ⟨d, rfl⟩ := Int.le.dest he
  exact ⟨m * 2 ^ d, scaled_shift m E d⟩

namespace Rounds

variable {v : ℝ} {k : ℕ} {E : ℤ}

theorem zero : Rounds 0 0 (-1074) :=
  ⟨le_rfl, le_rfl, by norm_num, .inr rfl, .of_lt (by norm_num)⟩

/-- A double is rounded to itself. -/
theorem of_canonical {m : ℕ} {e : ℤ} (h : Canonical m e) : Rounds (m * 2 ^ e) m e := by
  have hunits : (m * 2 ^ e / 2 ^ e : ℝ) = m := mul_div_cancel_right₀ _ (by positivity)
  refine ⟨by positivity, h.ge, ?_, ?_, ?_⟩ <;> rw [hunits]
  · exact_mod_cast h.lt
  · exact h.normal.imp_left fun hm => by exact_mod_cast hm
  · exact .of_lt (by norm_num)

theorem le (h : Rounds v k E) : k ≤ 2 ^ 53 := h.nearest.le_of_ge (by exact_mod_cast h.lt.le)

theorem scaled_lt (h : Rounds v k E) : v < 2 ^ 53 * 2 ^ E :=
  (div_lt_iff₀ (by positivity)).1 h.lt

theorem le_scaled (h : Rounds v k E) (hE : E ≠ -1074) : 2 ^ 52 * 2 ^ E ≤ v :=
  (le_div_iff₀ (by positivity)).1 (h.normal.resolve_right hE)

theorem le_of_normal (h : Rounds v k E) (hE : E ≠ -1074) : 2 ^ 52 ≤ k :=
  h.nearest.le_of_le (by exact_mod_cast h.normal.resolve_right hE)

theorem canonical (h : Rounds v k E) (hpos : 0 < k) (hk : k < 2 ^ 53) : Canonical k E := by
  refine ⟨hpos, hk, h.ge, ?_⟩
  by_cases hE : E = -1074
  · exact .inr hE
  · exact .inl (h.le_of_normal hE)

/-! ### The overflow -/

theorem lt_overflow (h : Rounds v k E) (hE : E ≤ 970) : v < overflow := by
  calc v < 2 ^ 53 * 2 ^ E := h.scaled_lt
    _ ≤ 2 ^ 53 * 2 ^ (970 : ℤ) := by gcongr; exact one_le_two
    _ ≤ overflow := mul_le_mul_of_nonneg_right (by norm_num) (by positivity)

theorem overflow_le (h : Rounds v k E) (hE : 972 ≤ E) : overflow ≤ v := by
  calc overflow ≤ 2 ^ 54 * 2 ^ (970 : ℤ) :=
        mul_le_mul_of_nonneg_right (by norm_num) (by positivity)
    _ = 2 ^ 52 * 2 ^ (970 + 2 : ℤ) := by
        rw [zpow_add₀ two_ne_zero]
        ring
    _ ≤ 2 ^ 52 * 2 ^ E := by gcongr; exacts [one_le_two, hE]
    _ ≤ v := h.le_scaled (by omega)

/-- With the largest exponent the significand decides. -/
theorem lt_overflow_iff (h : Rounds v k 971) : v < overflow ↔ k < 2 ^ 53 := by
  have hoverflow : overflow = (2 ^ 53 - 1 / 2) * 2 ^ (970 + 1 : ℤ) := by
    rw [overflow, zpow_add_one₀ two_ne_zero]
    ring
  rw [h.nearest.lt_iff (n := 2 ^ 53) (by decide), hoverflow, div_lt_iff₀ (by positivity)]
  norm_num

/-! ### Errors -/

theorem error_le (h : Rounds v k E) : |k * 2 ^ E - v| ≤ 2 ^ E / 2 := by
  have hpos : (0 : ℝ) < 2 ^ E := by positivity
  have hunits : k * 2 ^ E - v = (k - v / 2 ^ E) * 2 ^ E := by
    rw [sub_mul, div_mul_cancel₀ _ hpos.ne']
  calc |k * 2 ^ E - v| = |k - v / 2 ^ E| * 2 ^ E := by rw [hunits, abs_mul, abs_of_pos hpos]
    _ ≤ 1 / 2 * 2 ^ E := mul_le_mul_of_nonneg_right h.nearest.near hpos.le
    _ = 2 ^ E / 2 := by ring

/-- The relative error, if the smallest exponent is not used. -/
theorem error_le_of_normal (h : Rounds v k E) (hE : E ≠ -1074) :
    |k * 2 ^ E - v| ≤ 2 ^ (-53 : ℤ) * v := by
  have hnormal := h.le_scaled hE
  refine h.error_le.trans ?_
  calc (2 ^ E / 2 : ℝ) = 2 ^ (-53 : ℤ) * (2 ^ 52 * 2 ^ E) := by
        rw [zpow_neg, ← mul_assoc]
        norm_num
        ring
    _ ≤ 2 ^ (-53 : ℤ) * v := by gcongr

/-- A whole number of units is kept. -/
theorem eq_of_units (h : Rounds v k E) {n : ℕ} (hv : v = n * 2 ^ E) : k * 2 ^ E = v := by
  have hunits : v / 2 ^ E = n := by rw [hv, mul_div_cancel_right₀ _ (by positivity)]
  have hk : k = n := le_antisymm (h.nearest.le_of_ge hunits.le) (h.nearest.le_of_le hunits.ge)
  rw [hk, hv]

/-- Rounding does not cross a double from below. -/
theorem le_of_le (h : Rounds v k E) {m : ℕ} {e : ℤ} (hm : Canonical m e) (hle : v ≤ m * 2 ^ e) :
    (k * 2 ^ E : ℝ) ≤ m * 2 ^ e := by
  rcases lt_or_ge e E with hlt | hge
  · have hmin := hm.ge
    exact absurd (hm.lt_of_lt hlt) ((h.le_scaled (by omega)).trans hle).not_gt
  · obtain ⟨n, hn⟩ := exists_units m hge
    rw [hn] at hle ⊢
    gcongr
    exact h.nearest.le_of_ge ((div_le_iff₀ (by positivity)).2 hle)

/-- Nor from above. -/
theorem ge_of_ge (h : Rounds v k E) {m : ℕ} {e : ℤ} (hm : Canonical m e) (hge : m * 2 ^ e ≤ v) :
    (m * 2 ^ e : ℝ) ≤ k * 2 ^ E := by
  rcases lt_or_ge e E with hlt | hge'
  · have hmin := hm.ge
    have hnormal := h.le_of_normal (by omega)
    refine (hm.lt_of_lt hlt).le.trans ?_
    gcongr
    exact_mod_cast hnormal
  · obtain ⟨n, hn⟩ := exists_units m hge'
    rw [hn] at hge ⊢
    gcongr
    exact h.nearest.le_of_le ((le_div_iff₀ (by positivity)).2 hge)

end Rounds

/-! ## Numbers with signs -/

/-- The finite values of doubles. -/
def IsDouble (x : ℝ) : Prop :=
  x = 0 ∨ ∃ s m e, Canonical m e ∧ e ≤ 971 ∧ x = signed s (m * 2 ^ e)

/-- A real number is rounded to the nearest double. -/
def RoundsTo (r : ℝ) (result : ExtendedReal) : Prop :=
  ∃ s v k E, r = signed s v ∧ Rounds v k E ∧
    result = if v < overflow then .finite (signed s (k * 2 ^ E)) else .infinite (s == .negative)

theorem isDouble_of_packable {f : UnpackedFloat} {x : ℝ} (hf : Packable f)
    (hx : valueOf f = .finite x) : IsDouble x := by
  rcases f with s | _ | s | ⟨s, m, e, hm⟩ <;> cases hx
  · exact .inl rfl
  · exact .inr ⟨s, m, e, hf.1, hf.2, rfl⟩

namespace IsDouble

variable {x y : ℝ}

theorem neg (h : IsDouble x) : IsDouble (-x) := by
  rcases h with rfl | ⟨s, m, e, hm, he, rfl⟩
  · exact .inl neg_zero
  · exact .inr ⟨-s, m, e, hm, he, (signed_neg s _).symm⟩

theorem one : IsDouble 1 :=
  .inr ⟨.positive, 2 ^ 52, -52, ⟨by decide, by decide, by decide, .inl le_rfl⟩, by decide, by
    norm_num [signed]⟩

theorem max (hx : IsDouble x) (hy : IsDouble y) : IsDouble (max x y) := by
  rcases max_choice x y with hmax | hmax <;> rw [hmax]
  · exact hx
  · exact hy

/-- Doubles are multiples of the smallest one. -/
theorem exists_units (h : IsDouble x) : ∃ n : ℤ, x = n * 2 ^ (-1074 : ℤ) := by
  rcases h with rfl | ⟨s, m, e, hm, _, rfl⟩
  · exact ⟨0, by simp⟩
  · obtain ⟨n, hn⟩ := Double.exists_units m hm.ge
    cases s
    · exact ⟨-n, by simp [signed, hn]⟩
    · exact ⟨n, by simp [signed, hn]⟩

theorem abs_lt_overflow (h : IsDouble x) : |x| < overflow := by
  rcases h with rfl | ⟨s, m, e, hm, he, rfl⟩
  · rw [abs_zero]
    exact overflow_pos
  · have hlt := hm.lt
    have hm' : (m : ℝ) ≤ 2 ^ 53 - 1 := by
      have hle : m + 1 ≤ 2 ^ 53 := hlt
      have hle' : (m + 1 : ℝ) ≤ 2 ^ 53 := by exact_mod_cast hle
      linarith
    rw [abs_signed, abs_of_pos (scaled_pos hm.pos e)]
    calc (m * 2 ^ e : ℝ) ≤ (2 ^ 53 - 1) * 2 ^ (970 + 1 : ℤ) := by
          gcongr
          exacts [one_le_two, he]
      _ = (2 ^ 54 - 2) * 2 ^ (970 : ℤ) := by
          rw [zpow_add_one₀ two_ne_zero]
          ring
      _ < overflow := mul_lt_mul_of_pos_right (by norm_num) (by positivity)

/-- Scaling a number that is not small by a power of two keeps its significand. -/
theorem epsilon_mul (h : IsDouble x) (hx : 1 ≤ x) : IsDouble (2 ^ (-52 : ℤ) * x) := by
  rcases h with rfl | ⟨s, m, e, hm, he, rfl⟩
  · norm_num at hx
  have hpos := scaled_pos hm.pos e
  obtain rfl : s = .positive := by
    cases s with
    | negative =>
      have hneg : 1 ≤ -(m * 2 ^ e : ℝ) := hx
      linarith
    | positive => rfl
  have hlarge : -53 < e := by
    by_contra hsmall
    have hlt := hm.lt_of_lt (E := -52) (by omega)
    have hone : (2 ^ 52 * 2 ^ (-52 : ℤ) : ℝ) = 1 := by norm_num
    exact absurd hx (hone ▸ hlt).not_ge
  have hnormal : 2 ^ 52 ≤ m := hm.normal.resolve_right (by omega)
  refine .inr ⟨.positive, m, e - 52, ⟨hm.pos, hm.lt, by omega, .inl hnormal⟩, by omega, ?_⟩
  simp only [signed]
  rw [sub_eq_add_neg, zpow_add₀ two_ne_zero]
  ring

end IsDouble

namespace RoundsTo

variable {r w z : ℝ} {result : ExtendedReal}

theorem neg (h : RoundsTo r result) : RoundsTo (-r) result.neg := by
  obtain ⟨s, v, k, E, rfl, hrounds, rfl⟩ := h
  refine ⟨-s, v, k, E, (signed_neg s v).symm, hrounds, ?_⟩
  split_ifs
  · exact congrArg ExtendedReal.finite (signed_neg s _).symm
  · cases s <;> rfl

theorem exists_finite (h : RoundsTo r result) (hr : |r| < overflow) :
    ∃ w, result = .finite w := by
  obtain ⟨s, v, k, E, rfl, hrounds, rfl⟩ := h
  rw [abs_signed, abs_of_nonneg hrounds.nonneg] at hr
  exact ⟨_, if_pos hr⟩

theorem eq_infinite (h : RoundsTo r result) (hr : overflow ≤ r) : result = .infinite false := by
  obtain ⟨s, v, k, E, rfl, hrounds, rfl⟩ := h
  have hnonneg := hrounds.nonneg
  have hpos := overflow_pos
  cases s with
  | negative =>
    have hle : overflow ≤ -v := hr
    linarith
  | positive => exact if_neg (not_lt.2 hr)

/-- A finite result is the rounded magnitude with its sign. -/
theorem of_finite (h : RoundsTo r (.finite w)) :
    ∃ s v k E, r = signed s v ∧ Rounds v k E ∧ w = signed s (k * 2 ^ E) := by
  obtain ⟨s, v, k, E, hr, hrounds, hresult⟩ := h
  refine ⟨s, v, k, E, hr, hrounds, ?_⟩
  split_ifs at hresult
  exact ExtendedReal.finite.inj hresult

theorem error_le (h : RoundsTo r (.finite w)) :
    |w - r| ≤ 2 ^ (-53 : ℤ) * |r| ∨ |w - r| ≤ 2 ^ (-1075 : ℤ) := by
  obtain ⟨s, v, k, E, rfl, hrounds, rfl⟩ := h.of_finite
  rw [← signed_sub, abs_signed, abs_signed, abs_of_nonneg hrounds.nonneg]
  by_cases hE : E = -1074
  · right
    refine hrounds.error_le.trans_eq ?_
    rw [hE, div_eq_mul_inv, ← zpow_sub_one₀ two_ne_zero]
    norm_num
  · exact .inl (hrounds.error_le_of_normal hE)

/-- There is no absolute error for numbers of the smallest units. -/
theorem error_le_of_units (h : RoundsTo r (.finite w)) {n : ℤ} (hn : r = n * 2 ^ (-1074 : ℤ)) :
    |w - r| ≤ 2 ^ (-53 : ℤ) * |r| := by
  obtain ⟨s, v, k, E, rfl, hrounds, rfl⟩ := h.of_finite
  rw [← signed_sub, abs_signed, abs_signed, abs_of_nonneg hrounds.nonneg]
  by_cases hE : E = -1074
  · have hv : v = n.natAbs * 2 ^ E := by
      rw [← abs_of_nonneg hrounds.nonneg, ← abs_signed s v, hn, abs_mul, hE, Nat.cast_natAbs,
        Int.cast_abs, abs_of_pos (by positivity : (0 : ℝ) < 2 ^ (-1074 : ℤ))]
    rw [hrounds.eq_of_units hv, sub_self, abs_zero]
    have hnonneg := hrounds.nonneg
    positivity
  · exact hrounds.error_le_of_normal hE

/-- Rounding does not cross a double from below. -/
theorem le_of_le (h : RoundsTo r (.finite w)) (hz : IsDouble z) (hle : r ≤ z) : w ≤ z := by
  obtain ⟨s, v, k, E, rfl, hrounds, rfl⟩ := h.of_finite
  have hnonneg := hrounds.nonneg
  have hk : (0 : ℝ) ≤ k * 2 ^ E := by positivity
  rcases hz with rfl | ⟨t, m, e, hm, he, rfl⟩
  · cases s with
    | negative => exact neg_nonpos.2 hk
    | positive =>
      have hv : v = 0 := le_antisymm hle hnonneg
      have hzero : k = 0 := Nat.le_zero.1 (hrounds.nearest.le_of_ge (by simp [hv]))
      simp [signed, hzero]
  · have hpos := scaled_pos hm.pos e
    cases s <;> cases t <;> simp only [signed] at hle ⊢
    · exact neg_le_neg (hrounds.ge_of_ge hm (neg_le_neg_iff.1 hle))
    · linarith
    · linarith
    · exact hrounds.le_of_le hm hle

/-- Nor from above. -/
theorem ge_of_ge (h : RoundsTo r (.finite w)) (hz : IsDouble z) (hge : z ≤ r) : z ≤ w :=
  neg_le_neg_iff.1 (h.neg.le_of_le hz.neg (neg_le_neg hge))

/-- Doubles are rounded to themselves. -/
theorem eq_of_isDouble (h : RoundsTo r result) (hr : IsDouble r) : result = .finite r := by
  obtain ⟨w, rfl⟩ := h.exists_finite hr.abs_lt_overflow
  exact congrArg _ (le_antisymm (h.le_of_le hr le_rfl) (h.ge_of_ge hr le_rfl))

/-- What is not negative is rounded to an infinity or to a number that is not negative. -/
theorem of_nonneg (h : RoundsTo r result) (hr : 0 ≤ r) :
    result = .infinite false ∨ ∃ w, 0 ≤ w ∧ result = .finite w := by
  rcases lt_or_ge r overflow with hlt | hge
  · obtain ⟨w, rfl⟩ := h.exists_finite (by rwa [abs_of_nonneg hr])
    exact .inr ⟨w, h.ge_of_ge (.inl rfl) hr, rfl⟩
  · exact .inl (h.eq_infinite hge)

end RoundsTo

/-! ## The laws -/

/-- Arithmetic of doubles: each basic operation rounds its exact result. -/
class DoubleLaws (α : Type) [Arith α] extends HasValue α where
  isDouble : ∀ {a : α} {x}, HasValue.value a = .finite x → IsDouble x
  value_one : HasValue.value (1 : α) = .finite 1
  value_epsilon : HasValue.value (Arith.epsilon : α) = .finite (2 ^ (-52 : ℤ))
  sub_rounds : ∀ {a b : α} {x y}, HasValue.value a = .finite x → HasValue.value b = .finite y →
    RoundsTo (x - y) (HasValue.value (a - b))
  mul_rounds : ∀ {a b : α} {x y}, HasValue.value a = .finite x → HasValue.value b = .finite y →
    RoundsTo (x * y) (HasValue.value (a * b))
  div_rounds : ∀ {a b : α} {x y}, HasValue.value a = .finite x → HasValue.value b = .finite y →
    y ≠ 0 → RoundsTo (x / y) (HasValue.value (a / b))
  div_infinite : ∀ {a b : α} {x n}, HasValue.value a = .finite x →
    HasValue.value b = .infinite n → HasValue.value (a / b) = .finite 0

end FeatureGraph.Double
