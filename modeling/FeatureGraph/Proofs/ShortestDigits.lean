import FeatureGraph.Proofs.Rounding

/-!
# Shortest digits round to their double

The digits that are chosen for a double name a number that rounds to the double.

* `contains_around_iff` says which points an interval contains, and `rounds_of_gridPoint` that the
  point that is taken from a grid is one of them.
* A grid that is fine enough has such a point (`exists_gridPoint`), and the last of the grids
  that are tried is fine enough (`fine_grid`), since `leadingExponent` is the exponent of the first
  digit.
* `exists_shortest` puts this together, with a bound on the number of digits.
-/

namespace FeatureGraph.Decimal

variable {m c : Nat} {q e : Int} {tie : Tie}

/-! ## Grids -/

/-- Multiples of equal quotients. -/
theorem compare_ratio {n d p t : ℚ} (hd : 0 < d) (ht : 0 < t) (h : n * t = p * d) (a b : ℚ) :
    (a * n ≤ b * d ↔ a * p ≤ b * t) ∧ (b * d ≤ a * n ↔ b * t ≤ a * p) := by
  have hleft : a * n * t = a * p * d := by rw [mul_assoc, h, mul_assoc]
  have hright : b * d * t = b * t * d := by ring
  rw [← mul_le_mul_iff_of_pos_right ht, ← mul_le_mul_iff_of_pos_right (b := b * d) ht, hleft,
    hright, mul_le_mul_iff_of_pos_right hd, mul_le_mul_iff_of_pos_right hd]
  exact ⟨Iff.rfl, Iff.rfl⟩

/-- Multiples of a power of two against points of a grid. -/
theorem compare_scaled (a b : Nat) (q e : Int) :
    (a * (scaledRatio 1 q e).1 ≤ b * (scaledRatio 1 q e).2 ↔ (a : ℚ) * 2 ^ q ≤ b * 10 ^ e) ∧
      (b * (scaledRatio 1 q e).2 ≤ a * (scaledRatio 1 q e).1 ↔ (b : ℚ) * 10 ^ e ≤ a * 2 ^ q) := by
  have hden : (0 : ℚ) < (scaledRatio 1 q e).2 := by exact_mod_cast scaledRatio_pos 1 q e
  have hten : (0 : ℚ) < 10 ^ e := by positivity
  have hratio := scaledRatio_eq 1 q e
  rw [Nat.cast_one, one_mul, div_eq_div_iff hden.ne' hten.ne'] at hratio
  have hboth := compare_ratio hden hten hratio a b
  exact_mod_cast hboth

/-- An interval contains the numbers that round to its double. -/
theorem contains_around_iff (hm : 0 < m) (k : Nat) (q e : Int) :
    (Interval.around m q).contains (k * (scaledRatio 1 (q - 2) e).2) (scaledRatio 1 (q - 2) e).1 =
      true ↔ Rounds m q (k * 10 ^ e) := by
  have hbelow : (Interval.around m q).below ≤ 4 * m := by
    have := Rounds.below_le m q
    omega
  have hmid : (Interval.around m q).mid = 4 * m := rfl
  obtain ⟨hlow, hlow'⟩ := compare_scaled (4 * m - (Interval.around m q).below) k (q - 2) e
  obtain ⟨hhigh', hhigh⟩ := compare_scaled (4 * m + 2) k (q - 2) e
  push_cast [hbelow] at hlow hlow' hhigh hhigh'
  unfold Interval.contains
  by_cases heven : m % 2 = 0
  · have hclosed : (Interval.around m q).closed = true := by simp [Interval.around, heven]
    rw [if_pos hclosed, Bool.and_eq_true, decide_eq_true_eq, decide_eq_true_eq, hmid, hlow, hhigh]
    exact ⟨fun h => ⟨h.1, h.2, fun hodd => by omega⟩, fun h => ⟨h.low, h.high⟩⟩
  · have hclosed : (Interval.around m q).closed ≠ true := by simp [Interval.around, heven]
    rw [if_neg hclosed, Bool.and_eq_true, decide_eq_true_eq, decide_eq_true_eq, hmid,
      ← not_le, ← not_le, hlow', hhigh', not_le, not_le]
    exact ⟨fun h => ⟨h.1.le, h.2.le, fun _ => h⟩, fun h => h.odd (by omega)⟩

/-- The point that is taken from a grid rounds to the double. -/
theorem rounds_of_gridPoint (hm : 0 < m) (h : gridPoint tie (.around m q) q e = some c) :
    Rounds m q (c * 10 ^ e) := by
  rw [← contains_around_iff hm]
  unfold gridPoint at h
  dsimp only at h
  split at h
  · rename_i hboth
    rw [Bool.and_eq_true] at hboth
    split at h
    · exact Option.some.inj h ▸ hboth.1
    · split at h
      · exact Option.some.inj h ▸ hboth.2
      · cases tie with
        | toEven =>
          rw [← Option.some.inj h]
          split
          · exact hboth.1
          · exact hboth.2
        | up => exact Option.some.inj h ▸ hboth.2
  · split at h
    · rename_i hlow
      exact Option.some.inj h ▸ hlow
    · split at h
      · rename_i hhigh
        exact Option.some.inj h ▸ hhigh
      · cases h

/-- Where no point is taken, neither of the two neighbours lies in the interval. -/
theorem of_gridPoint_eq_none {i : Interval} (h : gridPoint tie i q e = none) :
    i.contains (i.mid * (scaledRatio 1 (q - 2) e).1 / (scaledRatio 1 (q - 2) e).2 *
        (scaledRatio 1 (q - 2) e).2) (scaledRatio 1 (q - 2) e).1 = false ∧
      i.contains ((i.mid * (scaledRatio 1 (q - 2) e).1 / (scaledRatio 1 (q - 2) e).2 + 1) *
        (scaledRatio 1 (q - 2) e).2) (scaledRatio 1 (q - 2) e).1 = false := by
  unfold gridPoint at h
  dsimp only at h
  split at h
  · split at h
    · cases h
    · split at h
      · cases h
      · cases tie <;> cases h
  · split at h
    · cases h
    · split at h
      · cases h
      · rename_i hlow hhigh
        exact ⟨Bool.eq_false_iff.2 hlow, Bool.eq_false_iff.2 hhigh⟩

/-- A grid that is finer than the interval is wide has a point in it. -/
theorem exists_gridPoint (hm : 0 < m)
    (hfine : (10 : ℚ) ^ e < (2 + (Interval.around m q).below) * 2 ^ (q - 2)) (tie : Tie) :
    ∃ c, gridPoint tie (.around m q) q e = some c := by
  by_contra hnone
  have hnone : gridPoint tie (.around m q) q e = none :=
    Option.eq_none_iff_forall_ne_some.2 fun c hc => hnone ⟨c, hc⟩
  obtain ⟨hlow, hhigh⟩ := of_gridPoint_eq_none hnone
  rw [← Bool.not_eq_true, contains_around_iff hm] at hlow hhigh
  have hmid : (Interval.around m q).mid = 4 * m := rfl
  rw [hmid] at hlow hhigh
  have hden := scaledRatio_pos 1 (q - 2) e
  have hfloor : 4 * m * (scaledRatio 1 (q - 2) e).1 / (scaledRatio 1 (q - 2) e).2 *
      (scaledRatio 1 (q - 2) e).2 ≤ 4 * m * (scaledRatio 1 (q - 2) e).1 := Nat.div_mul_le_self _ _
  have hceil : 4 * m * (scaledRatio 1 (q - 2) e).1 <
      (4 * m * (scaledRatio 1 (q - 2) e).1 / (scaledRatio 1 (q - 2) e).2 + 1) *
        (scaledRatio 1 (q - 2) e).2 := (Nat.div_lt_iff_lt_mul hden).1 (Nat.lt_succ_self _)
  generalize 4 * m * (scaledRatio 1 (q - 2) e).1 / (scaledRatio 1 (q - 2) e).2 = k at *
  rw [(compare_scaled _ _ _ _).2] at hfloor
  rw [← not_le, (compare_scaled _ _ _ _).2, not_le] at hceil
  push_cast at hfloor hceil hhigh
  have hunit : (0 : ℚ) < 2 ^ (q - 2) := by positivity
  have hbelow : (0 : ℚ) ≤ (Interval.around m q).below := Nat.cast_nonneg _
  -- the neighbours lie outside of the interval on both sides of the value
  have hleft : (k : ℚ) * 10 ^ e ≤ (4 * m - (Interval.around m q).below) * 2 ^ (q - 2) := by
    by_contra hlt
    exact hlow (.of_lt (lt_of_not_ge hlt) (by linarith))
  have hright : (4 * m + 2) * (2 : ℚ) ^ (q - 2) ≤ (k + 1) * 10 ^ e := by
    by_contra hlt
    exact hhigh (.of_lt (by nlinarith) (lt_of_not_ge hlt))
  linarith

/-! ## The first digit -/

theorem leadingExponent_bounds {num den : Nat} (hnum : 0 < num) (hden : 0 < den) :
    (10 : ℚ) ^ leadingExponent num den ≤ (num : ℚ) / den ∧
      (num : ℚ) / den < 10 ^ (leadingExponent num den + 1) := by
  have hnumpos : (0 : ℚ) < num := by exact_mod_cast hnum
  have hdenpos : (0 : ℚ) < den := by exact_mod_cast hden
  rw [le_div_iff₀ hdenpos, div_lt_iff₀ hdenpos]
  unfold leadingExponent
  split
  · rename_i hlarge
    have hpos : 0 < num / den := Nat.div_pos hlarge hden
    have hcount : 0 < digitCount (num / den) := Nat.length_toDigits_pos
    have hlow : 10 ^ (digitCount (num / den) - 1) * den ≤ num :=
      (Nat.le_div_iff_mul_le hden).1 (pow_digitCount_le hpos)
    have hhigh : num < 10 ^ digitCount (num / den) * den :=
      (Nat.div_lt_iff_lt_mul hden).1 (lt_pow_digitCount _)
    have hexp : (digitCount (num / den) : Int) - 1 = (digitCount (num / den) - 1 : Nat) := by omega
    rw [Int.sub_add_cancel, hexp, zpow_natCast, zpow_natCast]
    exact ⟨by exact_mod_cast hlow, by exact_mod_cast hhigh⟩
  · rename_i hsmall
    have hpos : 0 < (den - 1) / num := Nat.div_pos (by omega) hnum
    have hcount : 0 < digitCount ((den - 1) / num) := Nat.length_toDigits_pos
    have hlow : 10 ^ (digitCount ((den - 1) / num) - 1) * num ≤ den - 1 :=
      (Nat.le_div_iff_mul_le hnum).1 (pow_digitCount_le hpos)
    have hhigh : den - 1 < 10 ^ digitCount ((den - 1) / num) * num :=
      (Nat.div_lt_iff_lt_mul hnum).1 (lt_pow_digitCount _)
    generalize digitCount ((den - 1) / num) = d at hcount hlow hhigh ⊢
    have hexp : -(d : Int) + 1 = -((d - 1 : Nat) : Int) := by omega
    rw [hexp, zpow_neg, zpow_neg, zpow_natCast, zpow_natCast, inv_mul_le_iff₀ (by positivity),
      lt_inv_mul_iff₀ (by positivity)]
    exact ⟨by exact_mod_cast (by omega : den ≤ 10 ^ d * num),
      by exact_mod_cast (by omega : 10 ^ (d - 1) * num < den)⟩

/-! ## The grids that are tried -/

theorem exists_firstGridPoint {i : Interval} {n : Nat}
    (h : ∃ c, gridPoint tie i q (e - n) = some c) :
    ∃ c e', firstGridPoint tie i q (n + 1) e = (c, e') ∧ gridPoint tie i q e' = some c ∧
      e - n ≤ e' := by
  induction n generalizing e with
  | zero =>
    obtain ⟨c, hc⟩ := h
    rw [Nat.cast_zero, Int.sub_zero] at hc
    exact ⟨c, e, by rw [firstGridPoint, hc], hc, by omega⟩
  | succ n ih =>
    rw [firstGridPoint]
    cases hpoint : gridPoint tie i q e with
    | some c => exact ⟨c, e, rfl, hpoint, by omega⟩
    | none =>
      have hexp : e - 1 - (n : Int) = e - (n + 1 : Nat) := by omega
      obtain ⟨c, e', hfirst, hc, hle⟩ := ih (e := e - 1) (hexp ▸ h)
      exact ⟨c, e', hfirst, hc, by omega⟩

/-- With seventeen digits a grid is finer than an interval is wide. -/
theorem fine_grid (hmq : Representable m q) {lead : Int} (hlead : (10 : ℚ) ^ lead ≤ m * 2 ^ q) :
    (10 : ℚ) ^ (lead - (16 : Nat)) < (2 + (Interval.around m q).below) * 2 ^ (q - 2) := by
  have hwidth : 4 * m < (2 + (Interval.around m q).below) * 10 ^ 16 := by
    have hlt := hmq.below
    unfold Interval.around
    dsimp only
    split
    · rename_i hmid
      rw [hmid.1]
      decide
    · omega
  have hcast : (4 * m : ℚ) < (2 + (Interval.around m q).below) * 10 ^ 16 := by
    exact_mod_cast hwidth
  have hunit : (0 : ℚ) < 2 ^ (q - 2) := by positivity
  have hsplit : (2 : ℚ) ^ q = 4 * 2 ^ (q - 2) := by
    rw [zpow_sub₀ (by norm_num)]
    norm_num
    ring
  rw [zpow_sub₀ (by norm_num), zpow_natCast, div_lt_iff₀ (by norm_num)]
  calc (10 : ℚ) ^ lead ≤ 4 * m * 2 ^ (q - 2) := by
        rw [hsplit] at hlead
        linarith
    _ < (2 + (Interval.around m q).below) * 10 ^ 16 * 2 ^ (q - 2) :=
        mul_lt_mul_of_pos_right hcast hunit
    _ = (2 + (Interval.around m q).below) * 2 ^ (q - 2) * 10 ^ 16 := by ring

/-- A number that rounds to a double is less than twice as large. -/
theorem Rounds.le_double {v : ℚ} (h : Rounds m q v) (hm : 0 < m) : v ≤ 2 * (m * 2 ^ q) := by
  have hpow : (0 : ℚ) < 2 ^ q := by positivity
  have hone : (1 : ℚ) ≤ m := by exact_mod_cast hm
  have hhigh := (div_le_iff₀ hpow).1 h.in_units.2.1
  nlinarith

/-- The digits that are chosen for a double round to it, and there are not many of them. -/
theorem exists_shortest (hmq : Representable m q) (hm : 0 < m) (tie : Tie) :
    ∃ c e, shortest tie m q = .ofScaled c e ∧ Rounds m q (c * 10 ^ e) ∧ digitCount c ≤ 18 := by
  have hden := scaledRatio_pos m q 0
  have htwo := powRatio_pos (b := 2) (by decide) q
  have hten := powRatio_pos (b := 10) (by decide) 0
  have hnum : 0 < (scaledRatio m q 0).1 := Nat.mul_pos (Nat.mul_pos hm htwo.1) hten.2
  obtain ⟨hlow, hhigh⟩ := leadingExponent_bounds hnum hden
  rw [scaledRatio_eq, zpow_zero, div_one] at hlow hhigh
  unfold shortest
  rw [if_neg (Nat.ne_of_gt hm)]
  dsimp only
  generalize leadingExponent (scaledRatio m q 0).1 (scaledRatio m q 0).2 = lead at hlow hhigh ⊢
  obtain ⟨c, e, hfirst, hpoint, hle⟩ :=
    exists_firstGridPoint (exists_gridPoint hm (fine_grid hmq hlow) tie)
  have hrounds := rounds_of_gridPoint hm hpoint
  refine ⟨c, e, by rw [hfirst], hrounds, ?_⟩
  rw [digitCount, digitsOf, Nat.length_toDigits_le_iff (by decide) (by decide)]
  have hpow : (0 : ℚ) < 10 ^ e := by positivity
  have hgrid : (10 : ℚ) ^ (lead + 1) ≤ 10 ^ 17 * 10 ^ e := by
    rw [← zpow_natCast, ← zpow_add₀ (by norm_num)]
    exact zpow_le_zpow_right₀ (by norm_num) (by push_cast at hle ⊢; omega)
  have hsmall : (c : ℚ) * 10 ^ e < 10 ^ 18 * 10 ^ e := by
    have hdouble := hrounds.le_double hm
    linarith
  exact_mod_cast lt_of_mul_lt_mul_right hsmall hpow.le

end FeatureGraph.Decimal
