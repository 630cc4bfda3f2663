import Mathlib
import FeatureGraph.Decimal.Nearest
import FeatureGraph.Decimal.Shortest

/-!
# Decimals that round to a double

All number texts are computed with natural numbers.  This module says over the rationals what is
computed when a decimal is read.

* `powRatio_eq` and `scaledRatio_eq` say which rationals the pairs of natural numbers stand for,
  and `roundDiv_eq` which integer a quotient is rounded to.
* `Representable` are the significands and exponents of finite doubles, and `Rounds` are the
  numbers that round to one of them.
* `Fits` is the exponent that a number has as a double.  It is unique, and the exponent that
  `nearest` tries first is not far from it.
* `nearest_eq_some` puts this together: a decimal that rounds to a double is read as that double,
  in whatever form it is written.
-/

namespace FeatureGraph.Decimal

/-! ## Quotients of natural numbers -/

section Ratios

variable {b : Nat}

theorem powRatio_pos (hb : 0 < b) (e : Int) :
    0 < (powRatio b e).1 ∧ 0 < (powRatio b e).2 :=
  ⟨Nat.pow_pos hb, Nat.pow_pos hb⟩

theorem powRatio_eq (hb : 0 < b) (e : Int) :
    ((powRatio b e).1 : ℚ) / (powRatio b e).2 = (b : ℚ) ^ e := by
  have hne : (b : ℚ) ≠ 0 := by positivity
  have hsplit : e = e.toNat - (-e).toNat := by omega
  conv_rhs => rw [hsplit, zpow_sub₀ hne, zpow_natCast, zpow_natCast]
  simp [powRatio]

theorem scaledRatio_pos (m : Nat) (q e : Int) : 0 < (scaledRatio m q e).2 :=
  Nat.mul_pos (powRatio_pos (by decide) q).2 (powRatio_pos (by decide) e).1

theorem scaledRatio_eq (m : Nat) (q e : Int) :
    ((scaledRatio m q e).1 : ℚ) / (scaledRatio m q e).2 = m * 2 ^ q / 10 ^ e := by
  have htwo := powRatio_eq (b := 2) (by decide) q
  have hten := powRatio_eq (b := 10) (by decide) e
  push_cast at htwo hten
  rw [← htwo, ← hten]
  simp only [scaledRatio]
  push_cast
  field_simp

end Ratios

/-- The nearest integer to a quotient.  A quotient halfway between two integers is rounded to the
even one. -/
theorem roundDiv_eq {num den m : Nat} (hden : 0 < den) (hlow : 2 * m * den ≤ 2 * num + den)
    (hhigh : 2 * num ≤ 2 * m * den + den)
    (hodd : m % 2 = 1 → 2 * m * den < 2 * num + den ∧ 2 * num < 2 * m * den + den) :
    roundDiv num den = m := by
  have hsplit : den * (num / den) + num % den = num := Nat.div_add_mod num den
  have hrest : num % den < den := Nat.mod_lt num hden
  unfold roundDiv
  dsimp only
  generalize num / den = f at hsplit ⊢
  generalize num % den = r at hsplit hrest ⊢
  subst hsplit
  have hfloor : f ≤ m := by
    by_contra hlt
    have hle : (m + 1) * den ≤ f * den := Nat.mul_le_mul_right den (by omega)
    nlinarith
  have hceil : m ≤ f + 1 := by
    by_contra hlt
    have hle : (f + 2) * den ≤ m * den := Nat.mul_le_mul_right den (by omega)
    nlinarith
  rcases (by omega : m = f ∨ m = f + 1) with rfl | rfl
  · have hhalf : 2 * r ≤ den := by nlinarith
    have hstrict : m % 2 = 1 → 2 * r < den := fun h => by nlinarith [(hodd h).2]
    split
    · rfl
    · split
      · omega
      · split
        · rfl
        · exact absurd (hstrict (by omega)) (by omega)
  · have hhalf : den ≤ 2 * r := by nlinarith
    have hstrict : (f + 1) % 2 = 1 → den < 2 * r := fun h => by nlinarith [(hodd h).1]
    split
    · omega
    · split
      · rfl
      · split
        · exact absurd (hstrict (by omega)) (by omega)
        · rfl

/-- The same, for what the pair stands for. -/
theorem roundDiv_eq_of_ratio {num den m : Nat} (hden : 0 < den)
    (hlow : (m : ℚ) - 1 / 2 ≤ (num : ℚ) / den) (hhigh : (num : ℚ) / den ≤ m + 1 / 2)
    (hodd : m % 2 = 1 → (m : ℚ) - 1 / 2 < (num : ℚ) / den ∧ (num : ℚ) / den < m + 1 / 2) :
    roundDiv num den = m := by
  have hpos : (0 : ℚ) < den := by exact_mod_cast hden
  refine roundDiv_eq hden ?_ ?_ fun h => ⟨?_, ?_⟩
  · rw [le_div_iff₀ hpos] at hlow
    have hcast : (2 * m * den : ℚ) ≤ 2 * num + den := by linarith
    exact_mod_cast hcast
  · rw [div_le_iff₀ hpos] at hhigh
    have hcast : (2 * num : ℚ) ≤ 2 * m * den + den := by linarith
    exact_mod_cast hcast
  · have hstrict := (lt_div_iff₀ hpos).1 (hodd h).1
    have hcast : (2 * m * den : ℚ) < 2 * num + den := by linarith
    exact_mod_cast hcast
  · have hstrict := (div_lt_iff₀ hpos).1 (hodd h).2
    have hcast : (2 * num : ℚ) < 2 * m * den + den := by linarith
    exact_mod_cast hcast

/-- A quotient in units of `2 ^ q`. -/
theorem ratio_in_units (num : Nat) {den : Nat} (hden : 0 < den) (q : Int) :
    0 < den * (powRatio 2 q).1 ∧
      ((num * (powRatio 2 q).2 : Nat) : ℚ) / (den * (powRatio 2 q).1 : Nat) =
        (num : ℚ) / den / 2 ^ q := by
  have hpos := powRatio_pos (b := 2) (by decide) q
  have htwo := powRatio_eq (b := 2) (by decide) q
  push_cast at htwo
  refine ⟨Nat.mul_pos hden hpos.1, ?_⟩
  rw [← htwo]
  push_cast
  field_simp

/-! ## Digits -/

theorem lt_pow_digitCount (n : Nat) : n < 10 ^ digitCount n :=
  (Nat.length_toDigits_le_iff (by decide) Nat.length_toDigits_pos).1 (Nat.le_refl _)

theorem pow_digitCount_le {n : Nat} (hn : 0 < n) : 10 ^ (digitCount n - 1) ≤ n := by
  rcases Nat.eq_zero_or_pos (digitCount n - 1) with hone | hmore
  · rw [hone]
    exact hn
  · by_contra hlt
    have hlength := (Nat.length_toDigits_le_iff (by decide) hmore).2 (Nat.lt_of_not_le hlt)
    exact absurd hlength (by change ¬digitCount n ≤ _; omega)

/-- The number of digits tells the size of a decimal. -/
theorem decimal_bounds {c : Nat} (hc : 0 < c) (e : Int) :
    (10 : ℚ) ^ ((digitCount c : Int) + e - 1) ≤ c * 10 ^ e ∧
      (c : ℚ) * 10 ^ e < 10 ^ ((digitCount c : Int) + e) := by
  have hcount : 0 < digitCount c := Nat.length_toDigits_pos
  have hlow : (10 : ℚ) ^ (digitCount c - 1) ≤ c := by exact_mod_cast pow_digitCount_le hc
  have hhigh : (c : ℚ) < 10 ^ digitCount c := by exact_mod_cast lt_pow_digitCount c
  have hpos : (0 : ℚ) < 10 ^ e := by positivity
  constructor
  · have hexp : (digitCount c : Int) + e - 1 = ((digitCount c - 1 : Nat) : Int) + e := by omega
    rw [hexp, zpow_add₀ (by norm_num), zpow_natCast]
    exact mul_le_mul_of_nonneg_right hlow hpos.le
  · rw [zpow_add₀ (by norm_num), zpow_natCast]
    exact mul_lt_mul_of_pos_right hhigh hpos

/-! ## Doubles -/

/-- Significand and exponent of a finite double: the significand has 53 bits, and fewer only with
the least exponent. -/
structure Representable (m : Nat) (q : Int) : Prop where
  below : m < 2 ^ 53
  least : -1074 ≤ q
  greatest : q ≤ 971
  full : 2 ^ 52 ≤ m ∨ q = -1074

/-- The numbers that round to `m * 2 ^ q`. -/
structure Rounds (m : Nat) (q : Int) (v : ℚ) : Prop where
  low : (4 * m - (Interval.around m q).below) * (2 : ℚ) ^ (q - 2) ≤ v
  high : v ≤ (4 * m + 2) * (2 : ℚ) ^ (q - 2)
  odd : m % 2 = 1 → (4 * m - (Interval.around m q).below) * (2 : ℚ) ^ (q - 2) < v ∧
    v < (4 * m + 2) * (2 : ℚ) ^ (q - 2)

/-- The exponent that a number has as a double. -/
structure Fits (q : Int) (v : ℚ) : Prop where
  least : -1074 ≤ q
  below : v < 2 ^ 53 * (2 : ℚ) ^ q
  full : q = -1074 ∨ 2 ^ 52 * (2 : ℚ) ^ q ≤ v

theorem Fits.le {q q' : Int} {v : ℚ} (h : Fits q v) (h' : Fits q' v) : q' ≤ q := by
  by_contra hlt
  rcases h'.full with hleast | hfull
  · exact absurd h.least (by omega)
  · have hpow : (2 : ℚ) ^ (q + 1) ≤ 2 ^ q' := zpow_le_zpow_right₀ (by norm_num) (by omega)
    rw [zpow_add_one₀ (by norm_num)] at hpow
    have hbelow := h.below
    linarith

theorem Fits.unique {q q' : Int} {v : ℚ} (h : Fits q v) (h' : Fits q' v) : q' = q :=
  Int.le_antisymm (h.le h') (h'.le h)

/-- The numbers of binary digits tell the size of a quotient. -/
theorem quotient_bounds {num den : Nat} (hnum : 0 < num) (hden : 0 < den) :
    (2 : ℚ) ^ ((num.log2 : Int) - den.log2 - 1) < (num : ℚ) / den ∧
      (num : ℚ) / den < 2 ^ ((num.log2 : Int) - den.log2 + 1) := by
  have hdenpos : (0 : ℚ) < den := by exact_mod_cast hden
  have hnumlow : (2 : ℚ) ^ num.log2 ≤ num := by
    exact_mod_cast Nat.log2_self_le (Nat.ne_of_gt hnum)
  have hnumhigh : (num : ℚ) < 2 ^ (num.log2 + 1) := by exact_mod_cast Nat.lt_log2_self
  have hdenlow : (2 : ℚ) ^ den.log2 ≤ den := by
    exact_mod_cast Nat.log2_self_le (Nat.ne_of_gt hden)
  have hdenhigh : (den : ℚ) < 2 ^ (den.log2 + 1) := by exact_mod_cast Nat.lt_log2_self
  constructor
  · rw [lt_div_iff₀ hdenpos]
    calc (2 : ℚ) ^ ((num.log2 : Int) - den.log2 - 1) * den
        < 2 ^ ((num.log2 : Int) - den.log2 - 1) * 2 ^ (den.log2 + 1) :=
          mul_lt_mul_of_pos_left hdenhigh (by positivity)
      _ = 2 ^ num.log2 := by
          rw [← zpow_natCast, ← zpow_natCast, ← zpow_add₀ (by norm_num)]
          congr 1
          push_cast
          ring
      _ ≤ num := hnumlow
  · rw [div_lt_iff₀ hdenpos]
    calc (num : ℚ) < 2 ^ (num.log2 + 1) := hnumhigh
      _ = 2 ^ ((num.log2 : Int) - den.log2 + 1) * 2 ^ den.log2 := by
          rw [← zpow_natCast, ← zpow_natCast, ← zpow_add₀ (by norm_num)]
          congr 1
          push_cast
          ring
      _ ≤ 2 ^ ((num.log2 : Int) - den.log2 + 1) * den :=
          mul_le_mul_of_nonneg_left hdenlow (by positivity)

/-- The exponent that is tried first, or the next one. -/
theorem fits_guess {num den : Nat} (hnum : 0 < num) (hden : 0 < den) {guess : Int}
    (hguess : guess = max (-1074) ((num.log2 : Int) - den.log2 - 53)) :
    Fits (if 1 <<< 53 ≤ num * (powRatio 2 guess).2 / (den * (powRatio 2 guess).1) then guess + 1
      else guess) ((num : ℚ) / den) := by
  obtain ⟨hunit, hratio⟩ := ratio_in_units num hden guess
  have hpow : (0 : ℚ) < 2 ^ guess := by positivity
  have hfloor : 1 <<< 53 ≤ num * (powRatio 2 guess).2 / (den * (powRatio 2 guess).1) ↔
      2 ^ 53 * (2 : ℚ) ^ guess ≤ (num : ℚ) / den := by
    rw [Nat.le_div_iff_mul_le hunit, ← le_div_iff₀ hpow, ← hratio,
      le_div_iff₀ (by exact_mod_cast hunit)]
    norm_cast
  obtain ⟨hlow, hhigh⟩ := quotient_bounds hnum hden
  have hcases : guess = -1074 ∨ guess = (num.log2 : Int) - den.log2 - 53 := by omega
  split
  · rename_i hlarge
    have hshift : (2 : ℚ) ^ (guess + 1) = 2 ^ guess * 2 := zpow_add_one₀ (by norm_num) guess
    have hmore : (2 : ℚ) ^ ((num.log2 : Int) - den.log2 + 1) ≤ 2 ^ (53 + (guess + 1)) :=
      zpow_le_zpow_right₀ (by norm_num) (by omega)
    have hsplit : (2 : ℚ) ^ (53 + (guess + 1)) = 2 ^ 53 * 2 ^ (guess + 1) :=
      zpow_add₀ (by norm_num) 53 (guess + 1)
    refine ⟨by omega, ?_, .inr ?_⟩
    · exact lt_of_lt_of_le hhigh (hsplit ▸ hmore)
    · have hfull := hfloor.1 hlarge
      rw [hshift]
      linarith
  · rename_i hsmall
    refine ⟨by omega, lt_of_not_ge fun hge => hsmall (hfloor.2 hge), ?_⟩
    rcases hcases with hleast | hguess
    · exact .inl hleast
    · right
      have hexp : (num.log2 : Int) - den.log2 - 1 = 52 + guess := by omega
      rw [hexp, zpow_add₀ (by norm_num)] at hlow
      exact_mod_cast hlow.le

namespace Rounds

variable {m : Nat} {q : Int} {v : ℚ}

/-- What lies inside of the interval rounds, whether the ends do or not. -/
theorem of_lt (hlow : (4 * m - (Interval.around m q).below) * (2 : ℚ) ^ (q - 2) < v)
    (hhigh : v < (4 * m + 2) * (2 : ℚ) ^ (q - 2)) : Rounds m q v :=
  ⟨hlow.le, hhigh.le, fun _ => ⟨hlow, hhigh⟩⟩

theorem below_le (m : Nat) (q : Int) : (Interval.around m q).below ≤ 2 := by
  unfold Interval.around
  dsimp only
  split <;> omega

/-- The same in units of `2 ^ q`. -/
theorem in_units (h : Rounds m q v) :
    (m - (Interval.around m q).below / 4 : ℚ) ≤ v / 2 ^ q ∧ v / 2 ^ q ≤ m + 1 / 2 ∧
      (m % 2 = 1 →
        (m - (Interval.around m q).below / 4 : ℚ) < v / 2 ^ q ∧ v / 2 ^ q < m + 1 / 2) := by
  have hpow : (0 : ℚ) < 2 ^ q := by positivity
  have hquarter : (2 : ℚ) ^ (q - 2) = 2 ^ q / 4 := by
    rw [zpow_sub₀ (by norm_num)]
    norm_num
  have hlow := h.low
  have hhigh := h.high
  have hodd := h.odd
  rw [hquarter] at hlow hhigh hodd
  rw [le_div_iff₀ hpow, div_le_iff₀ hpow, lt_div_iff₀ hpow, div_lt_iff₀ hpow]
  refine ⟨by linarith, by linarith, fun hm => ⟨?_, ?_⟩⟩
  · linarith [(hodd hm).1]
  · linarith [(hodd hm).2]

/-- A number that rounds to a double has the exponent of the double, unless it lies below the
least significand with 53 bits. -/
theorem fits (h : Rounds m q v) (hmq : Representable m q) :
    Fits q v ∨ m = 2 ^ 52 ∧ Fits (q - 1) v ∧ (m - 1 / 4 : ℚ) ≤ v / 2 ^ q ∧ v / 2 ^ q < m := by
  obtain ⟨hlow, hhigh, _⟩ := h.in_units
  have hpow : (0 : ℚ) < 2 ^ q := by positivity
  have hbelow : ((Interval.around m q).below : ℚ) ≤ 2 := by exact_mod_cast below_le m q
  have hm : (m : ℚ) ≤ 2 ^ 53 - 1 := by
    have hlt : m + 1 ≤ 2 ^ 53 := hmq.below
    have hcast : (m : ℚ) + 1 ≤ 2 ^ 53 := by exact_mod_cast hlt
    linarith
  by_cases hfull : q = -1074 ∨ (2 : ℚ) ^ 52 ≤ v / 2 ^ q
  · left
    refine ⟨hmq.least, ?_, hfull.imp_right fun hle => (le_div_iff₀ hpow).1 hle⟩
    rw [← div_lt_iff₀ hpow]
    linarith
  · right
    obtain ⟨hleast, hsmall⟩ := not_or.1 hfull
    have hsmall : v / 2 ^ q < 2 ^ 52 := lt_of_not_ge hsmall
    have hq := hmq.least
    have hge : 2 ^ 52 ≤ m := hmq.full.resolve_right hleast
    have hmid : m = 2 ^ 52 := by
      by_contra hne
      have hmore : 2 ^ 52 + 1 ≤ m := by omega
      have hcast : (2 : ℚ) ^ 52 + 1 ≤ m := by exact_mod_cast hmore
      linarith
    have hone : (Interval.around m q).below = 1 := if_pos ⟨hmid, by omega⟩
    rw [hone] at hlow
    have hcast : (m : ℚ) = 2 ^ 52 := by exact_mod_cast hmid
    have hhalf : (2 : ℚ) ^ q = 2 ^ (q - 1) * 2 := by
      rw [← zpow_add_one₀ (by norm_num), Int.sub_add_cancel]
    refine ⟨hmid, ⟨by omega, ?_, .inr ?_⟩, by exact_mod_cast hlow, by linarith⟩
    · rw [div_lt_iff₀ hpow, hhalf] at hsmall
      linarith
    · rw [le_div_iff₀ hpow, hhalf, hcast] at hlow
      have hpos : (0 : ℚ) < 2 ^ (q - 1) := by positivity
      push_cast at hlow
      linarith

/-- No number that rounds to a positive double is out of range. -/
theorem range (h : Rounds m q v) (hmq : Representable m q) (hm : 0 < m) :
    (2 : ℚ) ^ (-1075 : Int) ≤ v ∧ v < 2 ^ (1024 : Int) := by
  obtain ⟨hlow, hhigh, _⟩ := h.in_units
  have hpow : (0 : ℚ) < 2 ^ q := by positivity
  have hbelow : ((Interval.around m q).below : ℚ) ≤ 2 := by exact_mod_cast below_le m q
  have hone : (1 : ℚ) ≤ m := by exact_mod_cast hm
  have hlt : (m : ℚ) + 1 ≤ 2 ^ 53 := by exact_mod_cast hmq.below
  rw [le_div_iff₀ hpow] at hlow
  rw [div_le_iff₀ hpow] at hhigh
  constructor
  · have hleast : (2 : ℚ) ^ (-1074 : Int) ≤ 2 ^ q := zpow_le_zpow_right₀ (by norm_num) hmq.least
    have hhalf : (2 : ℚ) ^ (-1074 : Int) = 2 ^ (-1075 : Int) * 2 := by
      rw [← zpow_add_one₀ (by norm_num)]
      norm_num
    nlinarith
  · have hgreatest : (2 : ℚ) ^ q ≤ 2 ^ (971 : Int) :=
      zpow_le_zpow_right₀ (by norm_num) hmq.greatest
    have hsplit : (2 : ℚ) ^ (1024 : Int) = 2 ^ 53 * 2 ^ (971 : Int) := by
      rw [← zpow_natCast, ← zpow_add₀ (by norm_num)]
      norm_num
    calc v ≤ (m + 1 / 2) * 2 ^ q := hhigh
      _ < 2 ^ 53 * 2 ^ q := mul_lt_mul_of_pos_right (by linarith) hpow
      _ ≤ 2 ^ 53 * 2 ^ (971 : Int) := mul_le_mul_of_nonneg_left hgreatest (by norm_num)
      _ = 2 ^ (1024 : Int) := hsplit.symm

/-- Zero does not round to a positive double. -/
theorem factor_pos {c : Nat} {e : Int} (h : Rounds m q (c * 10 ^ e)) (hmq : Representable m q)
    (hm : 0 < m) : 0 < c := by
  by_contra hzero
  obtain rfl : c = 0 := by omega
  have hleast := (h.range hmq hm).1
  rw [Nat.cast_zero, zero_mul] at hleast
  exact absurd hleast (not_le.2 (by positivity))

end Rounds

/-! ## Reading -/

/-- Less than half of the least double. -/
theorem tenth_lt : (10 : ℚ) ^ (-341 : Int) < 2 ^ (-1075 : Int) := by
  have hnat : 2 ^ 1075 < 10 ^ 341 := by decide +kernel
  have hcast : (2 : ℚ) ^ 1075 < 10 ^ 341 := by exact_mod_cast hnat
  rw [zpow_neg, zpow_neg]
  exact inv_strictAnti₀ (by positivity) hcast

/-- More than the greatest double. -/
theorem lt_ten : (2 : ℚ) ^ (1024 : Int) < 10 ^ (310 : Int) := by
  have hnat : 2 ^ 1024 < 10 ^ 310 := by decide +kernel
  have hcast : (2 : ℚ) ^ 1024 < 10 ^ 310 := by exact_mod_cast hnat
  exact hcast

/-- The size of a decimal that rounds to a double. -/
theorem lead_bounds {m c : Nat} {q e : Int} (hmq : Representable m q) (hm : 0 < m)
    (hv : Rounds m q (c * 10 ^ e)) (hc : 0 < c) :
    -340 ≤ (digitCount c : Int) + e ∧ (digitCount c : Int) + e ≤ 310 := by
  obtain ⟨hleast, hgreatest⟩ := hv.range hmq hm
  obtain ⟨hlow, hhigh⟩ := decimal_bounds hc e
  constructor
  · by_contra hlt
    have hpow : (10 : ℚ) ^ ((digitCount c : Int) + e) ≤ 10 ^ (-341 : Int) :=
      zpow_le_zpow_right₀ (by norm_num) (by omega)
    exact absurd (hleast.trans (hhigh.le.trans hpow)) (not_le.2 tenth_lt)
  · by_contra hlt
    have hpow : (10 : ℚ) ^ (310 : Int) ≤ 10 ^ ((digitCount c : Int) + e - 1) :=
      zpow_le_zpow_right₀ (by norm_num) (by omega)
    exact absurd (hpow.trans hlow) (not_le.2 (hgreatest.trans lt_ten))

/-- A decimal is rounded to a multiple of the power of two that it has as a double; a significand
that is too large by one belongs to the next power. -/
theorem exists_nearest {c : Nat} {e : Int} (hc : 0 < c) (hmore : -340 ≤ (digitCount c : Int) + e)
    (hless : (digitCount c : Int) + e ≤ 310) :
    ∃ (q : Int) (num den : Nat), Fits q (c * 10 ^ e) ∧ 0 < den ∧
      (num : ℚ) / den = c * 10 ^ e / 2 ^ q ∧
      nearest c e =
        if roundDiv num den = 1 <<< 53 then
          if 971 < q + 1 then none else some (1 <<< 52, q + 1)
        else if 971 < q then none else some (roundDiv num den, q) := by
  have hten := powRatio_pos (b := 10) (by decide) e
  have hratio : ((c * (powRatio 10 e).1 : Nat) : ℚ) / (powRatio 10 e).2 = c * 10 ^ e := by
    have hpow := powRatio_eq (b := 10) (by decide) e
    push_cast at hpow ⊢
    rw [← hpow, mul_div_assoc]
  have hfits := fits_guess (Nat.mul_pos hc hten.1) hten.2 rfl
  obtain ⟨hpos, hunits⟩ := ratio_in_units (c * (powRatio 10 e).1) hten.2 _
  rw [hratio] at hfits hunits
  refine ⟨_, _, _, hfits, hpos, hunits, ?_⟩
  unfold nearest
  dsimp only
  rw [if_neg (by omega), if_neg (by omega)]
  exact apply_ite (fun r : Nat × Int => if 971 < r.2 then none else some r) _ _ _

/-- A decimal that rounds to a positive double is read as that double. -/
theorem nearest_eq_some {m c : Nat} {q e : Int} (hmq : Representable m q) (hm : 0 < m)
    (hv : Rounds m q (c * 10 ^ e)) : nearest c e = some (m, q) := by
  have hc := hv.factor_pos hmq hm
  obtain ⟨hmore, hless⟩ := lead_bounds hmq hm hv hc
  obtain ⟨q', num, den, hfits, hden, hunits, hnearest⟩ := exists_nearest hc hmore hless
  rw [hnearest]
  rcases hv.fits hmq with hown | ⟨hmid, hprev, hlow, hhigh⟩
  · obtain rfl := hown.unique hfits
    obtain ⟨hlow, hhigh, hodd⟩ := hv.in_units
    have hbelow : ((Interval.around m q').below : ℚ) ≤ 2 := by exact_mod_cast Rounds.below_le m q'
    have hround : roundDiv num den = m := by
      rw [← hunits] at hlow hhigh hodd
      refine roundDiv_eq_of_ratio hden (by linarith) hhigh fun h => ?_
      exact ⟨by linarith [(hodd h).1], (hodd h).2⟩
    have hne : m ≠ 1 <<< 53 := Nat.ne_of_lt hmq.below
    have hq := hmq.greatest
    rw [hround, if_neg hne, if_neg (by omega)]
  · -- the number lies below a power of two, and is rounded up to it
    obtain rfl := hprev.unique hfits
    have hdouble : (c * 10 ^ e : ℚ) / 2 ^ (q - 1) = c * 10 ^ e / 2 ^ q * 2 := by
      rw [zpow_sub_one₀ (by norm_num)]
      field_simp
    have hcast : (m : ℚ) = 2 ^ 52 := by exact_mod_cast hmid
    have hround : roundDiv num den = 2 ^ 53 := by
      rw [hcast] at hlow hhigh
      refine roundDiv_eq_of_ratio hden ?_ ?_ fun h => absurd h (by decide)
      · rw [hunits, hdouble]
        push_cast
        linarith
      · rw [hunits, hdouble]
        push_cast
        linarith
    have hq := hmq.greatest
    rw [hround, if_pos (by decide), if_neg (by omega), hmid, Int.sub_add_cancel]
    rfl

end FeatureGraph.Decimal
