import FeatureGraph.Proofs.DoubleRounding

/-!
# Arithmetic of doubles

Subtraction, multiplication and division of doubles round their exact results.

There are three groups.

* Rounding bit by bit.  `Holds` says which number a significand with a round bit and a sticky bit
  stands for, `Holds.shiftRightOne` keeps it through a shift, and `exists_rounds` rounds it.
* The operations, each of which comes down to `exists_rounds`.
* Doubles satisfy `DoubleLaws`.
-/

namespace FeatureGraph.Double

open Float.Model Float.Model.UnpackedFloat

/-! ## Rounding bit by bit -/

/-- An extended mantissa stands for `x`, in units of its last bit: the round bit is a half, and the
sticky bit tells whether there is less than another half. -/
def Holds (em : ExtendedMantissa) (x : ℝ) : Prop :=
  ∃ rest : ℝ, x = em.mantissa + (if em.roundBit then 1 / 2 else 0) + rest ∧
    if em.stickyBit then 0 < rest ∧ rest < 1 / 2 else rest = 0

namespace Holds

variable {em : ExtendedMantissa} {x : ℝ}

theorem exact (m : ℕ) : Holds (.ofMantissaAndAccuracy m .exact) m :=
  ⟨0, by simp [ExtendedMantissa.ofMantissaAndAccuracy], rfl⟩

theorem mantissa_le (h : Holds em x) : em.mantissa ≤ x := by
  obtain ⟨m, r, s⟩ := em
  obtain ⟨rest, rfl, hrest⟩ := h
  cases r <;> cases s <;> simp at hrest ⊢ <;> linarith

theorem lt_mantissa_add_one (h : Holds em x) : x < em.mantissa + 1 := by
  obtain ⟨m, r, s⟩ := em
  obtain ⟨rest, rfl, hrest⟩ := h
  cases r <;> cases s <;> simp at hrest ⊢ <;> linarith

/-- The last bit becomes the round bit, and the old round bit sticks. -/
theorem shiftRightOne (h : Holds em x) : Holds em.shiftRightOne (x / 2) := by
  obtain ⟨m, r, s⟩ := em
  obtain ⟨rest, rfl, hrest⟩ := h
  have hm : (m : ℝ) = 2 * (m / 2 : ℕ) + (m % 2 : ℕ) := by
    exact_mod_cast (Nat.div_add_mod m 2).symm
  refine ⟨(if r then 1 / 4 else 0) + rest / 2, ?_, ?_⟩
  · rcases Nat.mod_two_eq_zero_or_one m with hmod | hmod <;> cases r <;>
      simp only [ExtendedMantissa.shiftRightOne, hm, hmod] <;> norm_num <;> ring
  · cases r <;> cases s <;>
      simp only [ExtendedMantissa.shiftRightOne, Bool.or_false, Bool.or_true, if_true,
        Bool.false_eq_true, if_false] at hrest ⊢ <;>
      first | (constructor <;> linarith) | linarith

theorem shiftRight (h : Holds em x) (n : ℕ) : Holds (em >>> n) (x / 2 ^ n) := by
  induction n with
  | zero =>
    have hzero : em >>> 0 = em := rfl
    rwa [hzero, pow_zero, div_one]
  | succ n ih =>
    have hsucc : em >>> (n + 1) = (em >>> n).shiftRightOne := rfl
    rw [hsucc, pow_succ, ← div_div]
    exact ih.shiftRightOne

theorem isNearest (h : Holds em x) : IsNearest em.roundedMantissa x := by
  obtain ⟨m, r, s⟩ := em
  obtain ⟨rest, rfl, hrest⟩ := h
  cases r <;> cases s <;> simp only [Bool.false_eq_true, if_true, if_false] at hrest ⊢
  · -- nothing has been cut off
    subst hrest
    refine .of_lt ?_
    show |(m : ℝ) - (m + 0 + 0)| < 1 / 2
    norm_num
  · refine .of_lt ?_
    show |(m : ℝ) - (m + 0 + rest)| < 1 / 2
    rw [abs_lt]
    constructor <;> linarith
  · -- halfway, so that the last bit decides
    subst hrest
    have heven : Even (m + m % 2) := by
      rw [Nat.even_iff]
      omega
    refine ⟨?_, fun _ => heven⟩
    show |((m + m % 2 : ℕ) : ℝ) - (m + 1 / 2 + 0)| ≤ 1 / 2
    rcases Nat.mod_two_eq_zero_or_one m with hmod | hmod <;> rw [hmod, abs_le] <;> push_cast <;>
      constructor <;> linarith
  · refine .of_lt ?_
    show |((m + 1 : ℕ) : ℝ) - (m + 1 / 2 + rest)| < 1 / 2
    push_cast
    rw [abs_lt]
    constructor <;> linarith

end Holds

theorem targetExponent_eq (t : ℤ) : Format.binary64.targetExponent t = max (t - 53) (-1074) :=
  rfl

theorem shiftToTargetExponent_eq (m : ℕ) (e : ℤ) (acc : Accuracy) {E : ℤ}
    (hE : Format.binary64.targetExponent (totalExponent m e) = E) (he : e ≤ E) :
    shiftToTargetExponent .binary64 m e acc =
      (ExtendedMantissa.ofMantissaAndAccuracy m acc >>> (E - e).toNat, E) := by
  rw [shiftToTargetExponent, shiftToExponent, hE]
  simp only [Prod.mk.injEq, true_and]
  omega

/-- A significand that fits is not shifted. -/
theorem shiftToTargetExponent_of_lt {k : ℕ} {E : ℤ} (hk : k < 2 ^ 53) (hE : -1074 ≤ E) :
    shiftToTargetExponent .binary64 k E .exact = (⟨k, false, false⟩, E) := by
  have hbits : k.log2 ≤ 52 := by
    rcases Nat.eq_zero_or_pos k with rfl | hpos
    · decide
    · exact Nat.lt_succ_iff.1 ((Nat.log2_lt hpos.ne').2 hk)
  have hshift : (Format.binary64.targetExponent (totalExponent k E) - E).toNat = 0 := by
    rw [targetExponent_eq, totalExponent]
    omega
  rw [shiftToTargetExponent, shiftToExponent]
  simp only [hshift]
  rw [Int.natCast_zero, add_zero]
  rfl

/-- One that has been rounded up to the next power of two is halved. -/
theorem shiftToTargetExponent_of_eq {E : ℤ} (hE : -1074 ≤ E) :
    shiftToTargetExponent .binary64 (2 ^ 53) E .exact = (⟨2 ^ 52, false, false⟩, E + 1) := by
  have htarget : Format.binary64.targetExponent (totalExponent (2 ^ 53) E) = E + 1 := by
    rw [targetExponent_eq, totalExponent, Nat.log2_two_pow]
    omega
  have hshift : (E + 1 - E).toNat = 1 := by omega
  rw [shiftToTargetExponent_eq _ _ _ htarget (by omega), hshift]
  rfl

/-- The number with a rounded significand. -/
def ofRounded (s : Sign) (k : ℕ) (E : ℤ) : UnpackedFloat :=
  if h : k = 0 then .zero s
  else if k < 2 ^ 53 then .finite s k E (Nat.pos_of_ne_zero h)
  else .finite s (2 ^ 52) (E + 1) (by decide)

theorem roundWithAccuracy_eq (s : Sign) {m : ℕ} {e E : ℤ} {acc : Accuracy} {em : ExtendedMantissa}
    (hshift : shiftToTargetExponent .binary64 m e acc = (em, E)) (hE : -1074 ≤ E)
    (hk : em.roundedMantissa ≤ 2 ^ 53) :
    roundWithAccuracy .binary64 s m e acc = ofRounded s em.roundedMantissa E := by
  rw [roundWithAccuracy, hshift]
  dsimp only
  generalize em.roundedMantissa = k at *
  rcases lt_or_eq_of_le hk with hlt | rfl
  · simp only [shiftToTargetExponent_of_lt hlt hE, ofRounded, hlt, if_true]
  · simp only [shiftToTargetExponent_of_eq hE]
    rfl

theorem div_lt_of_log2_le {m n : ℕ} {x : ℝ} (hx : x < m + 1) (hbits : m.log2 ≤ 52 + n) :
    x / 2 ^ n < 2 ^ 53 := by
  have hm : m + 1 ≤ 2 ^ (53 + n) := calc
    m + 1 ≤ 2 ^ (m.log2 + 1) := Nat.lt_log2_self
    _ ≤ 2 ^ (53 + n) := Nat.pow_le_pow_right (by decide) (by omega)
  rw [div_lt_iff₀ (by positivity), ← pow_add]
  exact hx.trans_le (by exact_mod_cast hm)

theorem le_div_of_log2_eq {m n : ℕ} {x : ℝ} (hx : m ≤ x) (hm : m ≠ 0) (hbits : m.log2 = 52 + n) :
    2 ^ 52 ≤ x / 2 ^ n := by
  have hpow : 2 ^ (52 + n) ≤ m := hbits ▸ Nat.log2_self_le hm
  rw [le_div_iff₀ (by positivity), ← pow_add]
  exact hx.trans' (by exact_mod_cast hpow)

/-- A significand with enough bits is rounded to the nearest double. -/
theorem exists_rounds (s : Sign) {m : ℕ} {e : ℤ} {acc : Accuracy} {x : ℝ}
    (hx : Holds (.ofMantissaAndAccuracy m acc) x) (hbits : 52 ≤ m.log2 ∨ e ≤ -1074) :
    ∃ k E, Rounds (x * 2 ^ e) k E ∧ roundWithAccuracy .binary64 s m e acc = ofRounded s k E := by
  obtain ⟨E, hE⟩ : ∃ E, Format.binary64.targetExponent (totalExponent m e) = E := ⟨_, rfl⟩
  have htarget : max (m.log2 + 1 + e - 53) (-1074) = E := hE
  obtain ⟨n, hn⟩ : ∃ n : ℕ, E = e + n := ⟨(E - e).toNat, by omega⟩
  have hshift : shiftToTargetExponent .binary64 m e acc =
      (ExtendedMantissa.ofMantissaAndAccuracy m acc >>> n, E) := by
    rw [shiftToTargetExponent_eq m e acc hE (by omega), show (E - e).toNat = n by omega]
  have hunits : x * 2 ^ e / 2 ^ E = x / 2 ^ n := by
    rw [hn, zpow_add₀ two_ne_zero, zpow_natCast]
    field_simp
  have hmantissa : (ExtendedMantissa.ofMantissaAndAccuracy m acc).mantissa = m := by
    rcases acc with _ | (_ | _ | _) <;> rfl
  have hlow := hx.mantissa_le
  have hhigh := hx.lt_mantissa_add_one
  rw [hmantissa] at hlow hhigh
  have hnormal : 2 ^ 52 ≤ x / 2 ^ n ∨ E = -1074 := by
    refine or_iff_not_imp_right.2 fun hmin => le_div_of_log2_eq hlow ?_ (by omega)
    rintro rfl
    rw [Nat.log2_zero] at *
    omega
  have hrounds : Rounds (x * 2 ^ e)
      (ExtendedMantissa.ofMantissaAndAccuracy m acc >>> n).roundedMantissa E := by
    have hnonneg : 0 ≤ x := hlow.trans' (by positivity)
    refine ⟨by positivity, by omega, ?_, ?_, ?_⟩ <;> rw [hunits]
    · exact div_lt_of_log2_le hhigh (by omega)
    · exact hnormal
    · exact (hx.shiftRight n).isNearest
  exact ⟨_, E, hrounds, roundWithAccuracy_eq s hshift hrounds.ge hrounds.le⟩

/-! ## Operations -/

/-- A number is what an exact result has been rounded to. -/
def IsRounded (r : ℝ) (f : UnpackedFloat) : Prop :=
  ∃ s v k E, r = signed s v ∧ Rounds v k E ∧ f = ofRounded s k E

theorem isRounded_zero (s : Sign) : IsRounded 0 (.zero s) :=
  ⟨s, 0, 0, -1074, (signed_zero s).symm, Rounds.zero, rfl⟩

theorem isRounded_finite (s : Sign) {m : ℕ} {e : ℤ} (h : Canonical m e) :
    IsRounded (signed s (m * 2 ^ e)) (.finite s m e h.pos) := by
  refine ⟨s, _, m, e, rfl, Rounds.of_canonical h, ?_⟩
  rw [ofRounded, dif_neg h.pos.ne', if_pos h.lt]

theorem decreaseExponent_eq (m : ℕ) (t : ℤ) (d : ℕ) :
    decreaseExponent m (t + d) t = (m * 2 ^ d, t) := by
  have hshift : (t + d - t).toNat = d := by omega
  rw [decreaseExponent, hshift, Nat.shiftLeft_eq]
  simp

theorem add_le_log2_mul {m n a b : ℕ} (hm : 2 ^ a ≤ m) (hn : 2 ^ b ≤ n) :
    a + b ≤ (m * n).log2 := by
  have hmul : 2 ^ (a + b) ≤ m * n := pow_add 2 a b ▸ Nat.mul_le_mul hm hn
  have hpos : 0 < 2 ^ (a + b) := by positivity
  exact (Nat.le_log2 (by omega)).2 hmul

theorem isRounded_round (s : Sign) {m : ℕ} (hm : 0 < m) (e : ℤ) :
    IsRounded (signed s (m * 2 ^ e)) (UnpackedFloat.round .binary64 s m e) := by
  obtain ⟨t, ht⟩ : ∃ t, Format.binary64.targetExponent (totalExponent m e) = t := ⟨_, rfl⟩
  have htarget : max (m.log2 + 1 + e - 53) (-1074) = t := ht
  obtain ⟨n, f, hdecrease, hvalue, hbits⟩ : ∃ n f, decreaseExponent m e t = (n, f) ∧
      (m * 2 ^ e : ℝ) = n * 2 ^ f ∧ (52 ≤ n.log2 ∨ f ≤ -1074) := by
    rcases le_total t e with hle | hle
    · obtain ⟨d, rfl⟩ := Int.le.dest hle
      refine ⟨m * 2 ^ d, t, decreaseExponent_eq m t d, scaled_shift m t d, ?_⟩
      have hlog := add_le_log2_mul (Nat.log2_self_le hm.ne') (le_refl (2 ^ d))
      omega
    · refine ⟨m, e, ?_, rfl, by omega⟩
      rw [decreaseExponent, Int.toNat_of_nonpos (by omega)]
      simp
  obtain ⟨k, E, hrounds, heq⟩ := exists_rounds s (Holds.exact n) hbits
  refine ⟨s, _, k, E, rfl, hvalue ▸ hrounds, ?_⟩
  rw [UnpackedFloat.round, ht, hdecrease]
  exact heq

theorem isRounded_normalize (M e : ℤ) (t : Sign) :
    IsRounded (M * 2 ^ e) (UnpackedFloat.normalize .binary64 M e t) := by
  rw [UnpackedFloat.normalize]
  rcases lt_trichotomy M 0 with hneg | rfl | hpos
  · obtain ⟨m, rfl⟩ : ∃ m : ℕ, M = -m := ⟨(-M).toNat, by omega⟩
    have hvalue : (((-m : ℤ) : ℝ) * 2 ^ e) = signed .negative (m * 2 ^ e) := by
      simp [signed]
    rw [compare_lt_iff_lt.2 hneg, hvalue, neg_neg, Int.toNat_natCast]
    exact isRounded_round .negative (by omega) e
  · rw [compare_eq_iff_eq.2 rfl, Int.cast_zero, zero_mul]
    exact isRounded_zero t
  · obtain ⟨m, rfl⟩ : ∃ m : ℕ, M = m := ⟨M.toNat, by omega⟩
    have hvalue : ((m : ℤ) : ℝ) * 2 ^ e = signed .positive (m * 2 ^ e) := by simp [signed]
    rw [compare_gt_iff_gt.2 hpos, hvalue, Int.toNat_natCast]
    exact isRounded_round .positive (by omega) e

theorem cast_apply (s : Sign) (n : ℕ) : ((s.apply n : ℤ) : ℝ) = signed s n := by
  cases s <;> simp [Sign.apply, signed]

theorem signed_mul (s : Sign) (x y : ℝ) : signed s (x * y) = signed s x * y := by
  cases s
  · exact (neg_mul x y).symm
  · rfl

section Finite

variable {f g : UnpackedFloat} {x y : ℝ}

theorem isRounded_sub (hf : Packable f) (hg : Packable g) (hx : valueOf f = .finite x)
    (hy : valueOf g = .finite y) : IsRounded (x - y) (f.sub .binary64 g) := by
  rcases f with s | _ | s | ⟨s, m, e, hm⟩ <;> cases hx <;>
    rcases g with t | _ | t | ⟨t, n, d, hn⟩ <;> cases hy
  · rw [sub_zero]
    cases s <;> cases t <;> exact isRounded_zero _
  · rw [zero_sub, ← signed_neg]
    exact isRounded_finite _ hg.1
  · rw [sub_zero]
    exact isRounded_finite _ hf.1
  · -- both significands are brought to the smaller exponent
    obtain ⟨c, hc⟩ : ∃ c, min e d = c := ⟨_, rfl⟩
    obtain ⟨a, rfl⟩ := Int.le.dest (hc ▸ min_le_left e d)
    obtain ⟨b, rfl⟩ := Int.le.dest (hc ▸ min_le_right (c + a) d)
    have hvalue : signed s (m * 2 ^ (c + a : ℤ)) - signed t (n * 2 ^ (c + b : ℤ)) =
        ((s.apply (m * 2 ^ a : ℕ) - t.apply (n * 2 ^ b : ℕ) : ℤ) : ℝ) * 2 ^ c := by
      rw [scaled_shift, scaled_shift, signed_mul, signed_mul, Int.cast_sub, cast_apply, cast_apply,
        sub_mul]
    rw [UnpackedFloat.sub, hc, decreaseExponent_eq, decreaseExponent_eq, hvalue]
    exact isRounded_normalize _ _ _

theorem signed_mul_signed (s t : Sign) (x y : ℝ) :
    signed s x * signed t y = signed (s * t) (x * y) := by
  cases s <;> cases t
  · exact neg_mul_neg x y
  · exact neg_mul x y
  · exact mul_neg x y
  · rfl

theorem isRounded_mul (hf : Packable f) (hg : Packable g) (hx : valueOf f = .finite x)
    (hy : valueOf g = .finite y) : IsRounded (x * y) (f.mul .binary64 g) := by
  rcases f with s | _ | s | ⟨s, m, e, hm⟩ <;> cases hx <;>
    rcases g with t | _ | t | ⟨t, n, d, hn⟩ <;> cases hy
  · rw [mul_zero]
    exact isRounded_zero _
  · rw [zero_mul]
    exact isRounded_zero _
  · rw [mul_zero]
    exact isRounded_zero _
  · have hbits : 52 ≤ (m * n).log2 ∨ e + d ≤ -1074 := by
      rcases hf.1.normal with hm' | rfl
      · exact .inl (add_le_log2_mul (b := 0) hm' hn)
      rcases hg.1.normal with hn' | rfl
      · exact .inl (mul_comm m n ▸ add_le_log2_mul (b := 0) hn' hm)
      · exact .inr (by decide)
    obtain ⟨k, E, hrounds, heq⟩ := exists_rounds (s * t) (Holds.exact (m * n)) hbits
    refine ⟨s * t, _, k, E, ?_, hrounds, heq⟩
    rw [signed_mul_signed, zpow_add₀ two_ne_zero]
    push_cast
    congr 1
    ring

/-- A quotient of natural numbers, with the accuracy that its remainder gives it. -/
theorem Holds.div (m : ℕ) {n : ℕ} (hn : 0 < n) :
    Holds (.ofMantissaAndAccuracy (m / n) (accuracyOfFraction (m % n) n)) (m / n : ℝ) := by
  have hpos : (0 : ℝ) < n := by exact_mod_cast hn
  have hquotient : (m / n : ℝ) = (m / n : ℕ) + (m % n : ℕ) / n := by
    have hm : (m : ℝ) = (m / n : ℕ) * n + (m % n : ℕ) := by
      exact_mod_cast (Nat.div_add_mod' m n).symm
    rw [div_eq_iff hpos.ne', add_mul, div_mul_cancel₀ _ hpos.ne']
    exact hm
  have hone : ((m % n : ℕ) / n : ℝ) < 1 := by
    rw [div_lt_one hpos]
    exact_mod_cast Nat.mod_lt m hn
  rw [hquotient, accuracyOfFraction]
  generalize m % n = r at *
  split_ifs with hzero
  · exact ⟨0, by simp [hzero, ExtendedMantissa.ofMantissaAndAccuracy], rfl⟩
  have hr : (0 : ℝ) < r / n := by positivity
  rcases lt_trichotomy (2 * r) n with hlt | heq | hgt
  · have hhalf : (r / n : ℝ) < 1 / 2 := by
      rw [div_lt_div_iff₀ hpos two_pos, one_mul, mul_comm]
      exact_mod_cast hlt
    rw [compare_lt_iff_lt.2 hlt]
    exact ⟨r / n, by simp [ExtendedMantissa.ofMantissaAndAccuracy], hr, hhalf⟩
  · have hhalf : (r / n : ℝ) = 1 / 2 := by
      rw [div_eq_div_iff hpos.ne' two_ne_zero, one_mul, mul_comm]
      exact_mod_cast heq
    rw [compare_eq_iff_eq.2 heq, hhalf]
    exact ⟨0, by simp [ExtendedMantissa.ofMantissaAndAccuracy], rfl⟩
  · have hhalf : 1 / 2 < (r / n : ℝ) := by
      rw [div_lt_div_iff₀ two_pos hpos, one_mul, mul_comm]
      exact_mod_cast hgt
    rw [compare_gt_iff_gt.2 hgt]
    refine ⟨r / n - 1 / 2, ?_, by linarith, by linarith⟩
    simp only [ExtendedMantissa.ofMantissaAndAccuracy, if_true]
    ring

theorem signed_div_signed (s t : Sign) (x y : ℝ) :
    signed s x / signed t y = signed (s / t) (x / y) := by
  cases s <;> cases t
  · exact neg_div_neg_eq x y
  · exact neg_div y x
  · exact div_neg x
  · rfl

/-- A dividend that has been shifted far enough gives a quotient that fills a significand. -/
theorem le_log2_div {m n a : ℕ} (hm : m ≠ 0) (hn : 0 < n) (ha : 52 + (n.log2 + 1) ≤ m.log2 + a) :
    52 ≤ (m * 2 ^ a / n).log2 := by
  have hlow : 2 ^ (m.log2 + a) ≤ m * 2 ^ a :=
    pow_add 2 m.log2 a ▸ Nat.mul_le_mul_right _ (Nat.log2_self_le hm)
  have hhigh : 2 ^ 52 * n ≤ 2 ^ (m.log2 + a) := calc
    2 ^ 52 * n ≤ 2 ^ 52 * 2 ^ (n.log2 + 1) := Nat.mul_le_mul_left _ Nat.lt_log2_self.le
    _ = 2 ^ (52 + (n.log2 + 1)) := (pow_add ..).symm
    _ ≤ 2 ^ (m.log2 + a) := Nat.pow_le_pow_right (by decide) ha
  have hquotient : 2 ^ 52 ≤ m * 2 ^ a / n := (Nat.le_div_iff_mul_le hn).2 (hhigh.trans hlow)
  exact (Nat.le_log2 (by omega)).2 hquotient

theorem isRounded_div (hx : valueOf f = .finite x) (hy : valueOf g = .finite y) (hne : y ≠ 0) :
    IsRounded (x / y) (f.div .binary64 g) := by
  rcases f with s | _ | s | ⟨s, m, e, hm⟩ <;> cases hx <;>
    rcases g with t | _ | t | ⟨t, n, d, hn⟩ <;> cases hy
  · exact absurd rfl hne
  · rw [zero_div]
    exact isRounded_zero _
  · exact absurd rfl hne
  · obtain ⟨c, hc⟩ : ∃ c, min (e - d)
        (Format.binary64.targetExponent (totalExponent m e - totalExponent n d)) = c := ⟨_, rfl⟩
    obtain ⟨a, ha⟩ := Int.le.dest (hc ▸ min_le_left _ _ : c ≤ e - d)
    have hshift : (e - d - c).toNat = a := by omega
    have hbits : 52 ≤ (m * 2 ^ a / n).log2 ∨ c ≤ -1074 := by
      refine or_iff_not_imp_right.2 fun hnormal => le_log2_div hm.ne' hn ?_
      have htarget : c ≤ (totalExponent m e - totalExponent n d) - 53 := by
        rw [targetExponent_eq] at hc
        omega
      rw [totalExponent, totalExponent] at htarget
      omega
    obtain ⟨k, E, hrounds, heq⟩ := exists_rounds (s / t) (Holds.div (m * 2 ^ a) hn) hbits
    refine ⟨s / t, _, k, E, ?_, hrounds, ?_⟩
    · have he : e = c + a + d := by omega
      rw [signed_div_signed, he, zpow_add₀ two_ne_zero, zpow_add₀ two_ne_zero, zpow_natCast]
      push_cast
      congr 1
      field_simp
    · rw [UnpackedFloat.div, divCore, hc, hshift, Nat.shiftLeft_eq]
      exact heq

end Finite

/-! ## The laws -/

theorem valueOf_pack_of_lt (s : Sign) {v : ℝ} {k : ℕ} {E : ℤ} (h : Rounds v k E)
    (hv : v < overflow) :
    valueOf (Float.Model.pack (ofRounded s k E)).unpack = .finite (signed s (k * 2 ^ E)) := by
  have hE : E ≤ 971 := not_lt.1 fun hE => hv.not_ge (h.overflow_le hE)
  rw [ofRounded]
  split_ifs with hzero hk
  · rw [unpack_pack (f := .zero s) trivial, hzero, Nat.cast_zero, zero_mul, signed_zero]
    rfl
  · rw [unpack_pack_finite s (h.canonical (Nat.pos_of_ne_zero hzero) hk) hE]
    rfl
  · obtain rfl : k = 2 ^ 53 := le_antisymm h.le (not_lt.1 hk)
    have hne : E ≠ 971 := by
      rintro rfl
      exact hk (h.lt_overflow_iff.1 hv)
    have hge := h.ge
    rw [unpack_pack_finite s ⟨by decide, by decide, by omega, .inl le_rfl⟩ (by omega), valueOf,
      zpow_add_one₀ two_ne_zero]
    congr 2
    push_cast
    ring

theorem valueOf_pack_of_ge (s : Sign) {v : ℝ} {k : ℕ} {E : ℤ} (h : Rounds v k E)
    (hv : overflow ≤ v) :
    valueOf (Float.Model.pack (ofRounded s k E)).unpack = .infinite (s == .negative) := by
  have hE : 970 < E := not_le.1 fun hE => hv.not_gt (h.lt_overflow hE)
  have hk : E = 971 → ¬k < 2 ^ 53 := by
    rintro rfl
    exact fun hk => hv.not_gt (h.lt_overflow_iff.2 hk)
  have hnormal := h.le_of_normal (by omega)
  rw [ofRounded, dif_neg (by omega)]
  split_ifs with hlt
  · rw [unpack_pack_of_lt (lt_of_le_of_ne hE fun heq => hk heq.symm hlt)]
    rfl
  · rw [unpack_pack_of_lt (by omega)]
    rfl

theorem IsRounded.roundsTo {r : ℝ} {f : UnpackedFloat} (h : IsRounded r f) :
    RoundsTo r (valueOf (Float.Model.pack f).unpack) := by
  obtain ⟨s, v, k, E, hr, hrounds, rfl⟩ := h
  refine ⟨s, v, k, E, hr, hrounds, ?_⟩
  split_ifs with hv
  · exact valueOf_pack_of_lt s hrounds hv
  · exact valueOf_pack_of_ge s hrounds (not_lt.1 hv)

theorem value_div_of_infinite {f g : UnpackedFloat} {x : ℝ} {n : Bool}
    (hx : valueOf f = .finite x) (hy : valueOf g = .infinite n) :
    valueOf (Float.Model.pack (f.div .binary64 g)).unpack = .finite 0 := by
  rcases f with s | _ | s | ⟨s, m, e, hm⟩ <;> cases hx <;>
    rcases g with t | _ | t | ⟨t, n, d, hn⟩ <;> cases hy
  · exact congrArg valueOf (unpack_pack (f := .zero (s / t)) trivial)
  · exact congrArg valueOf (unpack_pack (f := .zero (s / t)) trivial)

noncomputable instance : DoubleLaws Float where
  isDouble hx := isDouble_of_packable (packable_unpack _) hx
  value_one := by
    have hunpack : (1 : Float).toModel.unpack = .finite .positive (2 ^ 52) (-52) (by decide) := rfl
    show valueOf (1 : Float).toModel.unpack = _
    rw [hunpack]
    norm_num [valueOf, signed]
  value_epsilon := by
    have hunpack : (Arith.epsilon : Float).toModel.unpack =
      .finite .positive (2 ^ 52) (-104) (by decide) := rfl
    show valueOf (Arith.epsilon : Float).toModel.unpack = _
    rw [hunpack]
    norm_num [valueOf, signed]
  sub_rounds hx hy := (isRounded_sub (packable_unpack _) (packable_unpack _) hx hy).roundsTo
  mul_rounds hx hy := (isRounded_mul (packable_unpack _) (packable_unpack _) hx hy).roundsTo
  div_rounds hx hy hne := (isRounded_div hx hy hne).roundsTo
  div_infinite hx hy := value_div_of_infinite hx hy

end FeatureGraph.Double
