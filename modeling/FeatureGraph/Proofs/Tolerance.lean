import FeatureGraph.Proofs.DoubleArithmetic

/-!
# What a tolerance says about doubles

Over doubles the range of a column is a rounded difference.  A column that is accepted within a
tolerance is close to the symbolic one, unless the range overflows: a finite difference divided by
an infinite range vanishes, and any column is accepted.

* Single rows.  A rounded difference is not much smaller than the exact one.
* The spread.  `normalized_cases` splits on what becomes of the range.
* `accepted_within` is what an accepted column satisfies, and `accepted_overflow` is a column that
  is accepted although it is nowhere near.
-/

namespace FeatureGraph.Agreement

open ExtendedReal (finite infinite nan)
open HasValue Double

variable {α : Type} [Arith α] [DoubleLaws α]

/-! ## Single rows -/

/-- The difference of two doubles is a multiple of the smallest one, so that it has a relative
error only. -/
theorem error_of_sub {a b : α} {x y w : ℝ} (ha : value a = finite x) (hb : value b = finite y)
    (hw : value (a - b) = finite w) : |w - (x - y)| ≤ 2 ^ (-53 : ℤ) * |x - y| := by
  obtain ⟨m, hm⟩ := (DoubleLaws.isDouble ha).exists_units
  obtain ⟨n, hn⟩ := (DoubleLaws.isDouble hb).exists_units
  have hrounds := DoubleLaws.sub_rounds ha hb
  rw [hw] at hrounds
  refine hrounds.error_le_of_units (n := m - n) ?_
  rw [hm, hn]
  push_cast
  ring

section Row

variable {row : α × α} {x y : ℝ}

theorem comparable_of_lt_overflow (hx : value row.1 = finite x) (hy : value row.2 = finite y)
    (hlt : |x - y| < overflow) : Comparable row := by
  obtain ⟨w, hw⟩ := (DoubleLaws.sub_rounds hx hy).exists_finite hlt
  exact .inr ⟨|w|, by rw [value_abs, hw]; rfl⟩

theorem exists_difference (hrow : Comparable row) (hx : value row.1 = finite x)
    (hy : value row.2 = finite y) :
    ∃ d, value (Arith.abs (row.1 - row.2)) = finite d ∧ 15 / 16 * |x - y| ≤ d := by
  obtain ⟨d, hd⟩ := hrow.resolve_left fun hagree => hagree.2 x hx
  refine ⟨d, hd, ?_⟩
  rw [value_abs] at hd
  cases hw : value (row.1 - row.2) with
  | finite w =>
    rw [hw] at hd
    obtain rfl : |w| = d := ExtendedReal.finite.inj hd
    have hsmall : (2 ^ (-53 : ℤ) : ℝ) * |x - y| ≤ 1 / 16 * |x - y| := by
      gcongr
      norm_num
    have herror := (error_of_sub hx hy hw).trans hsmall
    have hcancel : |x - y| - |w| ≤ |w - (x - y)| :=
      abs_sub_comm w (x - y) ▸ abs_sub_abs_le_abs_sub _ _
    linarith
  | infinite n =>
    rw [hw] at hd
    cases hd
  | nan =>
    rw [hw] at hd
    cases hd

end Row

/-! ## The spread -/

/-- Ranges up to here are not divided by. -/
noncomputable def threshold (hi : ℝ) : ℝ := 2 ^ (-52 : ℤ) * max 1 |hi|

theorem threshold_pos (hi : ℝ) : 0 < threshold hi := by
  unfold threshold
  positivity

variable {w : Spread α} {d lo hi : ℝ}

theorem value_threshold (hhi : value w.highest = finite hi) :
    value (Arith.epsilon * Arith.max (Arith.abs w.highest) 1) = finite (threshold hi) ∧
      IsDouble (threshold hi) := by
  have habs : value (Arith.abs w.highest) = finite |hi| := by
    rw [value_abs, hhi]
    rfl
  have hmax := value_max_abs_one DoubleLaws.value_one hhi
  have hdouble : IsDouble (threshold hi) :=
    (IsDouble.one.max (DoubleLaws.isDouble habs)).epsilon_mul (le_max_left _ _)
  exact ⟨(DoubleLaws.mul_rounds DoubleLaws.value_epsilon hmax).eq_of_isDouble hdouble, hdouble⟩

/-- A number is not much above what it has been rounded to. -/
theorem le_of_rounded {u exact rounded bound : ℝ} (hu : 0 ≤ u) (hhalf : u ≤ 1 / 2)
    (hexact : 0 ≤ exact) (hbound : rounded ≤ bound) (herror : -(u * exact) ≤ rounded - exact) :
    exact ≤ (1 + 2 * u) * bound := by
  have hslack : 0 ≤ u * (1 - 2 * u) * exact :=
    mul_nonneg (mul_nonneg hu (by linarith)) hexact
  calc exact ≤ (1 + 2 * u) * (exact - u * exact) := by linarith
    _ ≤ (1 + 2 * u) * bound := by
        gcongr
        linarith

/-- What becomes of a difference: it vanishes if the range overflows, it is kept if the range is
small, and it is divided by the rounded range otherwise. -/
theorem normalized_cases (hd : value w.difference = finite d) (hpos : 0 < d)
    (hlo : value w.lowest = finite lo) (hhi : value w.highest = finite hi) (hle : lo ≤ hi) :
    overflow ≤ hi - lo ∧ value w.normalized = finite 0 ∨
      hi - lo < overflow ∧ hi - lo ≤ (1 + 2 ^ (-52 : ℤ)) * threshold hi ∧
        value w.normalized = finite d ∨
      hi - lo < overflow ∧ threshold hi < hi - lo ∧ ∃ range, 0 < range ∧
        range ≤ 17 / 16 * (hi - lo) ∧ RoundsTo (d / range) (value w.normalized) := by
  obtain ⟨hthreshold, hdouble⟩ := value_threshold hhi
  have hrange := DoubleLaws.sub_rounds hhi hlo
  rw [normalized_of_ne_zero hd hpos.ne']
  simp only [lt_eq, hthreshold]
  rcases lt_or_ge (hi - lo) overflow with hfits | hoverflow
  · right
    obtain ⟨range, hvalue⟩ := hrange.exists_finite (by rwa [abs_of_nonneg (sub_nonneg.2 hle)])
    have herror := abs_le.1 (error_of_sub hhi hlo hvalue)
    rw [abs_of_nonneg (sub_nonneg.2 hle)] at herror
    rw [hvalue] at hrange ⊢
    simp only [ExtendedReal.lt, decide_eq_true_eq]
    split_ifs with hwide
    · right
      -- rounding does not cross the threshold
      have hlarge : threshold hi < hi - lo :=
        not_le.1 fun hsmall => hwide.not_ge (hrange.le_of_le hdouble hsmall)
      have hrange_pos : 0 < range := (threshold_pos hi).trans hwide
      refine ⟨hfits, hlarge, range, hrange_pos, ?_, ?_⟩
      · have hsmall : (2 ^ (-53 : ℤ) : ℝ) * (hi - lo) ≤ 1 / 16 * (hi - lo) := by
          gcongr
          norm_num
        linarith [herror.2.trans hsmall]
      · exact DoubleLaws.div_rounds hd hvalue hrange_pos.ne'
    · left
      refine ⟨hfits, ?_, hd⟩
      have htwice : (1 + 2 ^ (-52 : ℤ) : ℝ) = 1 + 2 * 2 ^ (-53 : ℤ) := by norm_num
      rw [htwice]
      exact le_of_rounded (by positivity) (by norm_num) (sub_nonneg.2 hle) (not_lt.1 hwide) herror.1
  · left
    have hinfinite := hrange.eq_infinite hoverflow
    have hlt : (finite (threshold hi)).lt (infinite false) = true := rfl
    refine ⟨hoverflow, ?_⟩
    rw [hinfinite, if_pos hlt]
    exact DoubleLaws.div_infinite hd hinfinite

/-- A quotient that is rounded to a number within a tolerance is not much above it. -/
theorem le_of_roundsTo {a t : α} {q τ : ℝ} (hq : 0 ≤ q) (h : RoundsTo q (value a))
    (ht : value t = finite τ) (hτ : 2 ^ (-1022 : ℤ) ≤ τ) (hle : Arith.le a t = true) :
    15 / 16 * q ≤ τ := by
  obtain ⟨r, -, hr⟩ := (h.of_nonneg hq).resolve_left (ne_infinite_of_le hle ht)
  have hbelow : r ≤ τ := (le_iff hr ht).1 hle
  rw [hr] at h
  have hsmall : |r - q| ≤ 1 / 16 * q ∨ |r - q| ≤ 1 / 16 * τ := by
    refine h.error_le.imp (fun herror => herror.trans ?_) fun herror => herror.trans ?_
    · rw [abs_of_nonneg hq]
      gcongr
      norm_num
    · calc (2 ^ (-1075 : ℤ) : ℝ) = 2 ^ (-53 : ℤ) * 2 ^ (-1022 : ℤ) := by
            rw [← zpow_add₀ two_ne_zero]
            norm_num
        _ ≤ 1 / 16 * τ := by
            gcongr
            norm_num
  rcases hsmall with hsmall | hsmall
  · linarith [(abs_le.1 hsmall).1]
  · linarith [(abs_le.1 hsmall).1]

section Columns

variable {symbolic compiled : List α} {t : α} {τ lo hi : ℝ}

/-- What becomes of the rows of a column with the extremes `lo` and `hi`. -/
theorem measured_cases {rows : List (α × α)} (h : Measured rows w)
    (hrows : ∀ row ∈ rows, Comparable row) (hlo : IsLeast (finiteEntries (rows.map Prod.fst)) lo)
    (hhi : IsGreatest (finiteEntries (rows.map Prod.fst)) hi) :
    ∃ d, 0 ≤ d ∧ (∀ row ∈ rows, ∀ x y, value row.1 = finite x → value row.2 = finite y →
        15 / 16 * |x - y| ≤ d) ∧
      (d = 0 ∧ value w.normalized = finite 0 ∨
        overflow ≤ hi - lo ∧ value w.normalized = finite 0 ∨
        hi - lo < overflow ∧ hi - lo ≤ (1 + 2 ^ (-52 : ℤ)) * threshold hi ∧
          value w.normalized = finite d ∨
        hi - lo < overflow ∧ threshold hi < hi - lo ∧ ∃ range, 0 < range ∧
          range ≤ 17 / 16 * (hi - lo) ∧ RoundsTo (d / range) (value w.normalized)) := by
  obtain ⟨d, hd, hgreatest⟩ := h.difference
  have hnonneg : 0 ≤ d := hgreatest.2 (Set.mem_insert 0 _)
  refine ⟨d, hnonneg, fun row hrow x y hx hy => ?_, ?_⟩
  · obtain ⟨e, he, hle⟩ := exists_difference (hrows row hrow) hx hy
    exact hle.trans (hgreatest.2 (.inr ⟨row, hrow, he⟩))
  · obtain rfl | hpos := hnonneg.eq_or_lt
    · exact .inl ⟨rfl, by rw [normalized_of_eq_zero hd, value_zero]⟩
    · obtain ⟨lo', hi', hlowest, hleast, hhighest, hgreatest'⟩ :=
        h.exists_extremes (hgreatest.1.resolve_left hpos.ne')
      obtain rfl := hleast.unique hlo
      obtain rfl := hgreatest'.unique hhi
      exact .inr (normalized_cases hd hpos hlowest hhighest (hleast.2 hgreatest'.1))

/-- Where the range overflows, the discrepancy vanishes. -/
theorem value_discrepancy_of_overflow (hlength : symbolic.length = compiled.length)
    (hrows : ∀ row ∈ symbolic.zip compiled, Comparable row)
    (hlo : IsLeast (finiteEntries symbolic) lo) (hhi : IsGreatest (finiteEntries symbolic) hi)
    (hoverflow : overflow ≤ hi - lo) : value (discrepancy symbolic compiled) = finite 0 := by
  have hfst : (symbolic.zip compiled).map Prod.fst = symbolic := List.map_fst_zip hlength.le
  rcases discrepancy_cases symbolic compiled with ⟨hnot, _⟩ | ⟨_, w, hw, hvalue⟩
  · exact absurd (hnot.resolve_left (not_not.2 hlength)) (by simpa using hrows)
  · obtain ⟨d, _, _, ⟨_, hzero⟩ | ⟨_, hzero⟩ | ⟨hfits, _⟩ | ⟨hfits, _⟩⟩ :=
      measured_cases hw hrows (hfst.symm ▸ hlo) (hfst.symm ▸ hhi)
    · rw [hvalue, hzero]
    · rw [hvalue, hzero]
    · exact absurd hfits hoverflow.not_gt
    · exact absurd hfits hoverflow.not_gt

/-- Where it does not, what is accepted is near, absolutely or as a fraction of the range. -/
theorem near_of_le (hlength : symbolic.length = compiled.length) (ht : value t = finite τ)
    (hτ : 2 ^ (-1022 : ℤ) ≤ τ) (hlo : IsLeast (finiteEntries symbolic) lo)
    (hhi : IsGreatest (finiteEntries symbolic) hi) (hfits : hi - lo < overflow)
    (haccept : Arith.le (discrepancy symbolic compiled) t = true) {row : α × α}
    (hrow : row ∈ symbolic.zip compiled) {x y : ℝ} (hx : value row.1 = finite x)
    (hy : value row.2 = finite y) :
    (hi - lo ≤ (1 + 2 ^ (-52 : ℤ)) * threshold hi ∧ |x - y| ≤ 2 * τ) ∨
      |x - y| = 0 ∨ threshold hi < hi - lo ∧ |x - y| ≤ 2 * τ * (hi - lo) := by
  have hfst : (symbolic.zip compiled).map Prod.fst = symbolic := List.map_fst_zip hlength.le
  have hpos : 0 < τ := lt_of_lt_of_le (by positivity) hτ
  have hrange : 0 ≤ hi - lo := sub_nonneg.2 (hlo.2 hhi.1)
  rcases discrepancy_cases symbolic compiled with ⟨_, hinf⟩ | ⟨⟨_, hrows⟩, w, hw, hvalue⟩
  · exact absurd (by rw [hinf, value_inf]) (ne_infinite_of_le haccept ht)
  rw [hvalue] at haccept
  obtain ⟨d, hnonneg, hbound, ⟨rfl, _⟩ | ⟨hoverflow, _⟩ | ⟨_, hsmall, hkept⟩ |
      ⟨_, hlarge, range, hrange_pos, hle, hdivided⟩⟩ :=
    measured_cases hw hrows (hfst.symm ▸ hlo) (hfst.symm ▸ hhi) <;>
    have hrow_bound := hbound row hrow x y hx hy
  · exact .inr (.inl (le_antisymm (by linarith) (abs_nonneg _)))
  · exact absurd hfits hoverflow.not_gt
  · have hd : d ≤ τ := (le_iff hkept ht).1 haccept
    exact .inl ⟨hsmall, by linarith⟩
  · have hquotient : 15 / 16 * (d / range) ≤ τ :=
      le_of_roundsTo (div_nonneg hnonneg hrange_pos.le) hdivided ht hτ haccept
    have hd : d ≤ 16 / 15 * τ * range := by
      rw [← div_le_iff₀ hrange_pos]
      linarith
    have hnear : |x - y| ≤ 2 * τ * (hi - lo) := calc
      |x - y| ≤ 16 / 15 * (16 / 15 * τ * range) := by linarith
      _ ≤ 16 / 15 * (16 / 15 * τ * (17 / 16 * (hi - lo))) := by gcongr
      _ = 272 / 225 * (τ * (hi - lo)) := by ring
      _ ≤ 2 * (τ * (hi - lo)) := by
        gcongr
        norm_num
      _ = 2 * τ * (hi - lo) := by ring
    exact .inr (.inr ⟨hlarge, hnear⟩)

/-- What a tolerance says about columns of finite doubles.  If the range of the symbolic column
overflows, then every compiled column is accepted whose distances do not overflow too.  If it does
not, then an accepted column is within twice the tolerance, as a fraction of the exact range, or
absolutely if the range is small.  Ranges just above the threshold may be rounded down to it. -/
theorem accepted_within (hlength : symbolic.length = compiled.length)
    (hsymbolic : ∀ s ∈ symbolic, Arith.isFinite s = true)
    (hcompiled : ∀ c ∈ compiled, Arith.isFinite c = true) (ht : value t = finite τ)
    (hτ : 2 ^ (-1022 : ℤ) ≤ τ) (hlo : IsLeast (finiteEntries symbolic) lo)
    (hhi : IsGreatest (finiteEntries symbolic) hi) :
    (overflow ≤ hi - lo →
        (∀ row ∈ symbolic.zip compiled, ∀ x y, value row.1 = finite x → value row.2 = finite y →
          |x - y| < overflow) →
        value (discrepancy symbolic compiled) = finite 0) ∧
      (hi - lo < overflow → Arith.le (discrepancy symbolic compiled) t = true →
        ∀ row ∈ symbolic.zip compiled, ∀ x y, value row.1 = finite x → value row.2 = finite y →
          (hi - lo ≤ threshold hi → |x - y| ≤ 2 * τ) ∧
            ((1 + 2 ^ (-52 : ℤ)) * threshold hi < hi - lo → |x - y| ≤ 2 * τ * (hi - lo)) ∧
            (|x - y| ≤ 2 * τ ∨ |x - y| ≤ 2 * τ * (hi - lo))) := by
  have hpos : 0 < τ := lt_of_lt_of_le (by positivity) hτ
  have hrange : 0 ≤ hi - lo := sub_nonneg.2 (hlo.2 hhi.1)
  constructor
  · intro hoverflow hdistances
    refine value_discrepancy_of_overflow hlength ?_ hlo hhi hoverflow
    rintro ⟨s, c⟩ hrow
    obtain ⟨x, hx⟩ := isFinite_iff.1 (hsymbolic s (List.of_mem_zip hrow).1)
    obtain ⟨y, hy⟩ := isFinite_iff.1 (hcompiled c (List.of_mem_zip hrow).2)
    exact comparable_of_lt_overflow hx hy (hdistances _ hrow x y hx hy)
  · intro hfits haccept row hrow x y hx hy
    rcases near_of_le hlength ht hτ hlo hhi hfits haccept hrow hx hy with
      ⟨hsmall, hnear⟩ | hzero | ⟨hlarge, hnear⟩
    · exact ⟨fun _ => hnear, fun hlarge => absurd hsmall hlarge.not_ge, .inl hnear⟩
    · rw [hzero]
      exact ⟨fun _ => by positivity, fun _ => by positivity, .inl (by positivity)⟩
    · exact ⟨fun hsmall => absurd hlarge hsmall.not_gt, fun _ => hnear, .inr hnear⟩

end Columns

section Example

theorem extremes_pair {a b : α} {x y : ℝ} (ha : value a = finite x) (hb : value b = finite y)
    (hle : x ≤ y) : IsLeast (finiteEntries [a, b]) x ∧ IsGreatest (finiteEntries [a, b]) y := by
  have hentries : finiteEntries [a, b] = {x, y} := by
    ext z
    simp [finiteEntries, ha, hb, eq_comm]
  have hleast : IsLeast {x, y} (min x y) := isLeast_pair
  have hgreatest : IsGreatest {x, y} (max x y) := isGreatest_pair
  rw [min_eq_left hle] at hleast
  rw [max_eq_right hle] at hgreatest
  rw [hentries]
  exact ⟨hleast, hgreatest⟩

theorem value_of_unpack {a : Float} {s : Float.Model.UnpackedFloat.Sign} {m : ℕ} {e : ℤ}
    {hm : 0 < m} (ha : a.toModel.unpack = .finite s m e hm) :
    value a = finite (signed s (m * 2 ^ e)) :=
  congrArg valueOf ha

theorem value_eighth : value (0.125 : Float) = finite (1 / 8) := by
  have hunpack : (0.125 : Float).toModel.unpack =
    .finite .positive (2 ^ 52) (-55) (by decide) := rfl
  rw [value_of_unpack hunpack]
  norm_num [signed]

/-- Columns that differ by an eighth of the range. -/
theorem accepted_within_eighth :
    Arith.le (discrepancy [(0 : Float), 1] [0.125, 1]) 0.125 = true ∧
      |(0 : ℝ) - 1 / 8| ≤ 2 * (1 / 8) * (1 - 0) := by
  have haccept : Arith.le (discrepancy [(0 : Float), 1] [0.125, 1]) 0.125 = true := by
    decide +kernel
  obtain ⟨hlo, hhi⟩ := extremes_pair (α := Float) value_zero DoubleLaws.value_one zero_le_one
  have hτ : (2 ^ (-1022 : ℤ) : ℝ) ≤ 1 / 8 := calc
    (2 ^ (-1022 : ℤ) : ℝ) ≤ 2 ^ (-3 : ℤ) := zpow_le_zpow_right₀ one_le_two (by decide)
    _ = 1 / 8 := by norm_num
  have hfits : (1 - 0 : ℝ) < overflow := by
    rw [sub_zero, ← abs_one]
    exact IsDouble.one.abs_lt_overflow
  have hlarge : (1 + 2 ^ (-52 : ℤ)) * threshold 1 < (1 - 0 : ℝ) := by norm_num [threshold]
  have hlength : [(0 : Float), 1].length = [(0.125 : Float), 1].length := rfl
  have hsymbolic : ∀ s ∈ [(0 : Float), 1], Arith.isFinite s = true := by decide +kernel
  have hcompiled : ∀ c ∈ [(0.125 : Float), 1], Arith.isFinite c = true := by decide +kernel
  have hrow : ((0 : Float), (0.125 : Float)) ∈ [(0 : Float), 1].zip [0.125, 1] :=
    List.mem_cons_self
  have hwithin := (accepted_within hlength hsymbolic hcompiled value_eighth hτ hlo hhi).2 hfits
    haccept _ hrow 0 (1 / 8) value_zero value_eighth
  exact ⟨haccept, hwithin.2.1 hlarge⟩

/-- The largest power of two among the doubles. -/
def largestPower : Float := Float.ofBits 0x7fe0000000000000

theorem value_largestPower : value largestPower = finite (2 ^ (1023 : ℤ)) := by
  have hunpack : largestPower.toModel.unpack = .finite .positive (2 ^ 52) 971 (by decide) := rfl
  rw [value_of_unpack hunpack]
  have hpow : ((2 ^ 52 : ℕ) : ℝ) * 2 ^ (971 : ℤ) = 2 ^ (1023 : ℤ) := by
    have hsum : (1023 : ℤ) = 52 + 971 := rfl
    rw [hsum, zpow_add₀ two_ne_zero]
    norm_num
  exact congrArg finite hpow

/-- A column is accepted although an entry is off by half of the range, four times as much as it
may be. -/
theorem accepted_overflow :
    let symbolic := [-largestPower, largestPower]
    let compiled := [-largestPower, 0]
    (∀ a ∈ symbolic ++ compiled, Arith.isFinite a = true) ∧
      value (0.125 : Float) = finite (1 / 8) ∧
      IsLeast (finiteEntries symbolic) (-2 ^ (1023 : ℤ)) ∧
      IsGreatest (finiteEntries symbolic) (2 ^ (1023 : ℤ)) ∧
      threshold (2 ^ (1023 : ℤ)) < 2 ^ (1023 : ℤ) - -2 ^ (1023 : ℤ) ∧
      Arith.le (discrepancy symbolic compiled) 0.125 = true ∧
      ∃ row ∈ symbolic.zip compiled, ∃ x y, value row.1 = finite x ∧ value row.2 = finite y ∧
        2 * (1 / 8) * (2 ^ (1023 : ℤ) - -2 ^ (1023 : ℤ)) < |x - y| := by
  have hneg : value (-largestPower) = finite (-2 ^ (1023 : ℤ)) := by
    rw [value_neg, value_largestPower]
    rfl
  have hone : (1 : ℝ) ≤ 2 ^ (1023 : ℤ) := one_le_zpow₀ one_le_two (by decide)
  have hvalue := value_largestPower
  have hlt : (2 ^ (-52 : ℤ) : ℝ) < 1 := by norm_num
  generalize (2 : ℝ) ^ (1023 : ℤ) = power at *
  have hpos : 0 < power := zero_lt_one.trans_le hone
  obtain ⟨hlo, hhi⟩ := extremes_pair hneg hvalue (by linarith)
  refine ⟨by decide +kernel, value_eighth, hlo, hhi, ?_, by decide +kernel, ?_⟩
  · rw [threshold, abs_of_pos hpos, max_eq_right hone]
    linarith [mul_lt_mul_of_pos_right hlt hpos]
  · refine ⟨(largestPower, 0), by simp, _, _, hvalue, value_zero, ?_⟩
    rw [sub_zero, abs_of_pos hpos]
    linarith

end Example

end FeatureGraph.Agreement
