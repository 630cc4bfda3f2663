import FeatureGraph.Proofs.Spread

/-!
# Discrepancies of exact columns

Over exact numbers a discrepancy is what it is called: the largest difference, as a fraction of the
range of the symbolic column.

`WithEpsilon ε` are the real numbers with infinities and a distance `ε` from one to the next larger
number, which decides when a range is too small to be divided by.  `exact_cases` is the value of a
discrepancy, and `discrepancy_of_exact` adds what follows from it.
-/

namespace FeatureGraph

open ExtendedReal (finite infinite nan)
open scoped NNReal

/-- The extended real numbers, with `ε` as the distance from one to the next larger number. -/
def ExtendedReal.WithEpsilon (_ε : ℝ≥0) : Type := ExtendedReal

namespace Agreement

open ExtendedReal HasValue

variable {ε : ℝ≥0} {symbolic compiled : List (WithEpsilon ε)}

noncomputable instance : Arith (WithEpsilon ε) :=
  { (inferInstance : Arith ExtendedReal) with epsilon := finite ε }

noncomputable instance : HasValue (WithEpsilon ε) where
  value a := a
  lt_eq _ _ := rfl
  eqv_eq _ _ := rfl
  value_zero := rfl
  value_inf := rfl
  value_neg _ := rfl
  value_abs _ := rfl
  value_sub _ _ _ := rfl

theorem value_injective {a b : WithEpsilon ε} (h : value a = value b) : a = b := h

/-! ## Rows and columns -/

/-- The distance in a row whose values are both finite. -/
def IsGap (row : WithEpsilon ε × WithEpsilon ε) (d : ℝ) : Prop :=
  ∃ x y, value row.1 = finite x ∧ value row.2 = finite y ∧ d = |x - y|

/-- Columns of one length, with values in each row that agree without being finite, or are both
finite. -/
def Aligned (symbolic compiled : List (WithEpsilon ε)) : Prop :=
  symbolic.length = compiled.length ∧
    ∀ row ∈ symbolic.zip compiled, AgreeUnmeasured row ∨ ∃ d, IsGap row d

/-- The distances between the columns where both are finite. -/
def gaps (symbolic compiled : List (WithEpsilon ε)) : Set ℝ :=
  {d | ∃ row ∈ symbolic.zip compiled, IsGap row d}

theorem value_sub_of_finite {a b : WithEpsilon ε} {x y : ℝ} (ha : value a = finite x)
    (hb : value b = finite y) : value (a - b) = finite (x - y) := by
  show (value a).add (value b).neg = finite (x - y)
  rw [ha, hb, sub_eq_add_neg]
  rfl

theorem value_abs_sub_iff {row : WithEpsilon ε × WithEpsilon ε} {d : ℝ} :
    value (Arith.abs (row.1 - row.2)) = finite d ↔ IsGap row d := by
  have hgap : ∀ {x y}, value row.1 = finite x → value row.2 = finite y →
      value (Arith.abs (row.1 - row.2)) = finite |x - y| := by
    intro x y hx hy
    rw [value_abs, value_sub_of_finite hx hy]
    rfl
  constructor
  · intro h
    obtain ⟨⟨x, hx⟩, y, hy⟩ := finite_of_value_abs_sub h
    exact ⟨x, y, hx, hy, (ExtendedReal.finite.inj ((hgap hx hy).symm.trans h)).symm⟩
  · rintro ⟨x, y, hx, hy, rfl⟩
    exact hgap hx hy

theorem aligned_iff : Aligned symbolic compiled ↔
    symbolic.length = compiled.length ∧ ∀ row ∈ symbolic.zip compiled, Comparable row := by
  simp only [Aligned, Comparable, value_abs_sub_iff]

theorem differences_zip : differences (symbolic.zip compiled) = gaps symbolic compiled := by
  simp only [differences, gaps, value_abs_sub_iff]

theorem exists_row_of_getElem {i : Nat} (hs : i < symbolic.length) (hc : i < compiled.length) :
    (symbolic[i], compiled[i]) ∈ symbolic.zip compiled := by
  rw [List.mem_iff_getElem]
  exact ⟨i, by simp [hs, hc], by simp⟩

/-- A column is aligned with itself, at no distance. -/
theorem aligned_self (column : List (WithEpsilon ε)) :
    Aligned column column ∧ ∀ d ∈ gaps column column, d = 0 := by
  have hsame : ∀ row ∈ column.zip column, row.1 = row.2 := by
    intro row hrow
    obtain ⟨i, _, rfl⟩ := List.mem_iff_getElem.1 hrow
    rw [List.getElem_zip]
  refine ⟨⟨rfl, fun row hrow => ?_⟩, ?_⟩
  · by_cases hfinite : ∃ x, value row.1 = finite x
    · obtain ⟨x, hx⟩ := hfinite
      exact .inr ⟨_, x, x, hx, hsame row hrow ▸ hx, rfl⟩
    · exact .inl ⟨congrArg value (hsame row hrow), fun x hx => hfinite ⟨x, hx⟩⟩
  · rintro d ⟨row, hrow, x, y, hx, hy, rfl⟩
    rw [hsame row hrow, hy] at hx
    obtain rfl := ExtendedReal.finite.inj hx
    rw [sub_self, abs_zero]

/-- Aligned columns at no distance are one column. -/
theorem Aligned.eq_of_gaps (h : Aligned symbolic compiled)
    (hgaps : ∀ d ∈ gaps symbolic compiled, d = 0) : symbolic = compiled := by
  refine List.ext_getElem h.1 fun i hs hc => value_injective ?_
  have hrow := exists_row_of_getElem hs hc
  rcases h.2 _ hrow with hagree | ⟨d, x, y, hx, hy, hd⟩
  · exact hagree.1
  · have hzero : |x - y| = 0 := hgaps _ ⟨_, hrow, x, y, hx, hy, rfl⟩
    rw [hx, hy, sub_eq_zero.1 (abs_eq_zero.1 hzero)]

/-! ## The value of a discrepancy -/

/-- The value of the discrepancy of a symbolic column, and of a compiled one at the largest
distance `d` from it. -/
def NormalizedBy (symbolic : List (WithEpsilon ε)) (d : ℝ) (discrepancy : WithEpsilon ε) : Prop :=
  d = 0 ∧ value discrepancy = finite 0 ∨
    0 < d ∧ ∃ lo hi, IsLeast (finiteEntries symbolic) lo ∧ IsGreatest (finiteEntries symbolic) hi ∧
      value discrepancy = finite (if ε * max 1 |hi| < hi - lo then d / (hi - lo) else d)

/-- A range above a threshold is positive. -/
theorem range_pos {lo hi : ℝ} (hwide : ε * max 1 |hi| < hi - lo) : 0 < hi - lo := by
  have hnonneg : 0 ≤ ε * max 1 |hi| := by positivity
  exact hnonneg.trans_lt hwide

theorem value_normalized_of_pos {w : Spread (WithEpsilon ε)} {d lo hi : ℝ}
    (hd : value w.difference = finite d) (hpos : 0 < d) (hlo : value w.lowest = finite lo)
    (hhi : value w.highest = finite hi) :
    value w.normalized = finite (if ε * max 1 |hi| < hi - lo then d / (hi - lo) else d) := by
  have hthreshold : value (Arith.epsilon * Arith.max (Arith.abs w.highest) 1) =
      finite (ε * max 1 |hi|) := by
    show (finite ε).mul (value (Arith.max (Arith.abs w.highest) 1)) = _
    rw [value_max_abs_one rfl hhi]
    rfl
  have hrange := value_sub_of_finite hhi hlo
  rw [normalized_of_ne_zero hd hpos.ne']
  simp only [lt_eq, hthreshold, hrange, ExtendedReal.lt, decide_eq_true_eq]
  split_ifs with hwide
  · show (value w.difference).div (value (w.highest - w.lowest)) = _
    rw [hd, hrange, ExtendedReal.div, if_neg (range_pos hwide).ne', div_eq_mul_inv]
  · exact hd

/-- What a spread amounts to. -/
theorem Measured.normalized {rows : List (WithEpsilon ε × WithEpsilon ε)}
    {w : Spread (WithEpsilon ε)} (h : Measured rows w) :
    ∃ d, IsGreatest (insert 0 (differences rows)) d ∧
      NormalizedBy (rows.map Prod.fst) d w.normalized := by
  obtain ⟨d, hd, hgreatest⟩ := h.difference
  refine ⟨d, hgreatest, ?_⟩
  obtain rfl | hpos := (hgreatest.2 (Set.mem_insert 0 _)).eq_or_lt
  · exact .inl ⟨rfl, by rw [normalized_of_eq_zero hd, value_zero]⟩
  · obtain ⟨lo, hi, hlo, hleast, hhi, hhighest⟩ :=
      h.exists_extremes (hgreatest.1.resolve_left hpos.ne')
    exact .inr ⟨hpos, lo, hi, hleast, hhighest, value_normalized_of_pos hd hpos hlo hhi⟩

/-- Columns that are not aligned have an infinite discrepancy; others are normalized by their
largest distance. -/
theorem exact_cases (symbolic compiled : List (WithEpsilon ε)) :
    ¬Aligned symbolic compiled ∧ value (discrepancy symbolic compiled) = infinite false ∨
      Aligned symbolic compiled ∧ ∃ d, IsGreatest (insert 0 (gaps symbolic compiled)) d ∧
        NormalizedBy symbolic d (discrepancy symbolic compiled) := by
  rw [aligned_iff]
  rcases discrepancy_cases symbolic compiled with ⟨hnot, hinf⟩ | ⟨hall, w, hw, hvalue⟩
  · refine .inl ⟨?_, hinf ▸ value_inf⟩
    rintro ⟨hlength, hrows⟩
    obtain hne | ⟨row, hrow, hrefused⟩ := hnot
    · exact hne hlength
    · exact hrefused (hrows row hrow)
  · obtain ⟨d, hgreatest, hnormalized⟩ := hw.normalized
    rw [List.map_fst_zip hall.1.le] at hnormalized
    rw [differences_zip] at hgreatest
    exact .inr ⟨hall, d, hgreatest, hvalue ▸ hnormalized⟩

theorem NormalizedBy.pos {d : ℝ} {discrepancy : WithEpsilon ε}
    (h : NormalizedBy symbolic d discrepancy) (hpos : 0 < d) :
    ∃ v, value discrepancy = finite v ∧ 0 < v := by
  obtain ⟨rfl, _⟩ | ⟨_, lo, hi, _, _, hvalue⟩ := h
  · exact (lt_irrefl _ hpos).elim
  · refine ⟨_, hvalue, ?_⟩
    split_ifs with hwide
    · exact div_pos hpos (range_pos hwide)
    · exact hpos

/-- A discrepancy is infinite, zero or positive. -/
theorem discrepancy_sign (symbolic compiled : List (WithEpsilon ε)) :
    symbolic = compiled ∧ value (discrepancy symbolic compiled) = finite 0 ∨
      symbolic ≠ compiled ∧ (value (discrepancy symbolic compiled) = infinite false ∨
        ∃ v, value (discrepancy symbolic compiled) = finite v ∧ 0 < v) := by
  rcases exact_cases symbolic compiled with ⟨hnot, hvalue⟩ | ⟨haligned, d, hgreatest, hnormalized⟩
  · exact .inr ⟨fun h => hnot (h ▸ (aligned_self symbolic).1), .inl hvalue⟩
  obtain rfl | hpos := (hgreatest.2 (Set.mem_insert 0 _)).eq_or_lt
  · left
    refine ⟨haligned.eq_of_gaps fun d hd => ?_, ?_⟩
    · obtain ⟨row, hrow, x, y, hx, hy, rfl⟩ := hd
      exact le_antisymm (hgreatest.2 (.inr ⟨row, hrow, x, y, hx, hy, rfl⟩)) (abs_nonneg _)
    · exact (hnormalized.resolve_right fun h => lt_irrefl _ h.1).2
  · refine .inr ⟨?_, .inr (hnormalized.pos hpos)⟩
    rintro rfl
    exact hpos.ne' ((aligned_self symbolic).2 d (hgreatest.1.resolve_left hpos.ne'))

/-- The order of the rows does not matter. -/
theorem discrepancy_of_perm {symbolic' compiled' : List (WithEpsilon ε)}
    (hsymbolic : symbolic'.length = symbolic.length)
    (hcompiled : compiled'.length = compiled.length)
    (hperm : (symbolic'.zip compiled').Perm (symbolic.zip compiled)) :
    discrepancy symbolic' compiled' = discrepancy symbolic compiled := by
  have hrows := fun row => hperm.mem_iff (a := row)
  rcases discrepancy_cases symbolic' compiled' with ⟨hnot', hinf'⟩ | ⟨hall', w', hw', hvalue'⟩ <;>
    rcases discrepancy_cases symbolic compiled with ⟨hnot, hinf⟩ | ⟨hall, w, hw, hvalue⟩
  · rw [hinf', hinf]
  · -- the same rows can be compared
    obtain hne | ⟨row, hrow, hrefused⟩ := hnot'
    · exact absurd (by rw [hsymbolic, hall.1, hcompiled]) hne
    · exact absurd (hall.2 row ((hrows row).1 hrow)) hrefused
  · obtain hne | ⟨row, hrow, hrefused⟩ := hnot
    · exact absurd (by rw [← hsymbolic, hall'.1, hcompiled]) hne
    · exact absurd (hall'.2 row ((hrows row).2 hrow)) hrefused
  · obtain ⟨hdifference, hlowest, hhighest⟩ := hw'.unique hw hrows
    have hspread : w' = w := by
      obtain ⟨_, _, _⟩ := w
      exact (Spread.mk.injEq ..).mpr ⟨hdifference, hlowest, hhighest⟩
    rw [hvalue', hvalue, hspread]

/-- Over exact numbers a discrepancy is infinite, if the columns are not aligned, and else it is
the largest distance as a fraction of the range, if that is not small against the highest value.
It is a number that is not negative, it is zero only of a column and itself, and it does not depend
on the order of the rows. -/
theorem discrepancy_of_exact (symbolic compiled : List (WithEpsilon ε)) :
    (¬Aligned symbolic compiled → value (discrepancy symbolic compiled) = infinite false) ∧
      (Aligned symbolic compiled → ∃ d, IsGreatest (insert 0 (gaps symbolic compiled)) d ∧
        NormalizedBy symbolic d (discrepancy symbolic compiled)) ∧
      (Arith.isNaN (discrepancy symbolic compiled) = false ∧
        Arith.le 0 (discrepancy symbolic compiled) = true) ∧
      (value (discrepancy symbolic compiled) = finite 0 ↔ symbolic = compiled) ∧
      ∀ symbolic' compiled' : List (WithEpsilon ε), symbolic'.length = symbolic.length →
        compiled'.length = compiled.length →
        (symbolic'.zip compiled').Perm (symbolic.zip compiled) →
        discrepancy symbolic' compiled' = discrepancy symbolic compiled := by
  refine ⟨fun hnot => ?_, fun haligned => ?_, ?_, ?_, fun _ _ => discrepancy_of_perm⟩
  · exact ((exact_cases symbolic compiled).resolve_right fun h => hnot h.1).2
  · exact ((exact_cases symbolic compiled).resolve_left fun h => h.1 haligned).2
  · rw [Arith.le, lt_eq, eqv_eq, value_zero]
    rcases discrepancy_sign symbolic compiled with ⟨_, hvalue⟩ | ⟨_, hvalue | ⟨v, hvalue, hv⟩⟩
    · exact ⟨isNaN_of_ne_nan (by simp [hvalue]), by simp [hvalue, ExtendedReal.eqv]⟩
    · exact ⟨isNaN_of_ne_nan (by simp [hvalue]), by simp [hvalue, ExtendedReal.lt]⟩
    · exact ⟨isNaN_of_ne_nan (by simp [hvalue]), by simp [hvalue, ExtendedReal.lt, hv]⟩
  · rcases discrepancy_sign symbolic compiled with ⟨heq, hvalue⟩ | ⟨hne, hvalue | ⟨v, hvalue, hv⟩⟩
    · exact iff_of_true hvalue heq
    · exact iff_of_false (by simp [hvalue]) hne
    · exact iff_of_false (by simp [hvalue, hv.ne']) hne

end Agreement

end FeatureGraph
