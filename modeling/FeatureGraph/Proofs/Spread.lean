import FeatureGraph.Proofs.Exact
import FeatureGraph.Proofs.ExtendedReal
import FeatureGraph.Model.Agreement

/-!
# What the rows of a comparison say

A discrepancy is computed in one pass over the rows, with running extremes and an early end.  Here
it is read off the set of rows, so that neither their order nor the place of the row that ends the
pass matters.

`HasValue` are the scalars that stand for real numbers, for infinities and for values that are not
numbers; their arithmetic may round.  `Measured` says what a spread holds of the rows that it has
seen.  `exists_foldlM_row?` carries it through a pass whose rows can all be compared, and
`foldlM_row?_eq_none` ends the pass at a row that cannot.  `discrepancy_cases` puts them together.
The last two lemmas are its ends: no difference, and a row that cannot be compared.
-/

namespace FeatureGraph

open ExtendedReal (finite infinite nan)

/-- Scalars that stand for real numbers, infinities and values that are not numbers, two scalars
perhaps for one number.  They compare as what they stand for.  Of differences only those of finite
scalars may be rounded. -/
class HasValue (α : Type) [Arith α] where
  value : α → ExtendedReal
  lt_eq : ∀ a b : α, Arith.lt a b = (value a).lt (value b)
  eqv_eq : ∀ a b : α, Arith.eqv a b = (value a).eqv (value b)
  value_zero : value (0 : α) = finite 0
  value_inf : value (Arith.inf : α) = infinite false
  value_neg : ∀ a : α, value (-a) = (value a).neg
  value_abs : ∀ a : α, value (Arith.abs a) = (value a).abs
  value_sub : ∀ a b : α, ((∀ x, value a ≠ finite x) ∨ ∀ x, value b ≠ finite x) →
    value (a - b) = (value a).add (value b).neg

namespace HasValue

variable {α : Type} [Arith α] [HasValue α] {a b : α} {x y : ℝ}

theorem isNaN_iff : Arith.isNaN a = true ↔ value a = nan := by
  rw [Arith.isNaN, eqv_eq]
  exact ExtendedReal.isNaN_iff

theorem isFinite_iff : Arith.isFinite a = true ↔ ∃ x, value a = finite x := by
  rw [Arith.isFinite, lt_eq, value_abs, value_inf]
  exact ExtendedReal.isFinite_iff

theorem isInfinite_iff : Arith.isInfinite a = true ↔ ∃ n, value a = infinite n := by
  rw [Arith.isInfinite, eqv_eq, eqv_eq, value_neg, value_inf]
  cases value a with
  | finite x => simp [ExtendedReal.eqv, ExtendedReal.neg]
  | infinite n => cases n <;> simp [ExtendedReal.eqv, ExtendedReal.neg]
  | nan => simp [ExtendedReal.eqv]

theorem isNaN_of_ne_nan (ha : value a ≠ nan) : Arith.isNaN a = false := by
  simpa using mt isNaN_iff.1 ha

theorem le_iff (ha : value a = finite x) (hb : value b = finite y) :
    Arith.le a b = true ↔ x ≤ y := by
  rw [Arith.le, lt_eq, eqv_eq, ha, hb, le_iff_lt_or_eq]
  simp [ExtendedReal.lt, ExtendedReal.eqv]

/-- Nothing infinite is at most a number. -/
theorem ne_infinite_of_le (hle : Arith.le a b = true) (hb : value b = finite y) :
    value a ≠ infinite false := by
  intro ha
  rw [Arith.le, lt_eq, eqv_eq, ha, hb] at hle
  simp [ExtendedReal.lt, ExtendedReal.eqv] at hle

/-! ## Extremes -/

theorem value_max (ha : value a = finite x) (hb : value b = finite y) :
    value (Arith.max a b) = finite (max x y) := by
  rw [Arith.max, isNaN_of_ne_nan (by simp [ha]), isNaN_of_ne_nan (by simp [hb]), lt_eq, ha, hb]
  by_cases hlt : x < y
  · simp [ExtendedReal.lt, hlt, hb, max_eq_right hlt.le]
  · simp [ExtendedReal.lt, hlt, ha, max_eq_left (not_lt.1 hlt)]

theorem value_min (ha : value a = finite x) (hb : value b = finite y) :
    value (Arith.min a b) = finite (min x y) := by
  rw [Arith.min, isNaN_of_ne_nan (by simp [ha]), isNaN_of_ne_nan (by simp [hb]), lt_eq, ha, hb]
  by_cases hlt : y < x
  · simp [ExtendedReal.lt, hlt, hb, min_eq_right hlt.le]
  · simp [ExtendedReal.lt, hlt, ha, min_eq_left (not_lt.1 hlt)]

/-- What a range is compared with. -/
theorem value_max_abs_one (hone : value (1 : α) = finite 1) (ha : value a = finite x) :
    value (Arith.max (Arith.abs a) 1) = finite (max 1 |x|) := by
  have habs : value (Arith.abs a) = finite |x| := by
    rw [value_abs, ha]
    rfl
  exact max_comm 1 |x| ▸ value_max habs hone

/-- The largest of nothing gives way to any finite value. -/
theorem value_max_of_infinite (ha : value a = infinite true) (hb : value b = finite y) :
    value (Arith.max a b) = finite y := by
  rw [Arith.max, isNaN_of_ne_nan (by simp [ha]), isNaN_of_ne_nan (by simp [hb]), lt_eq, ha, hb]
  simp [ExtendedReal.lt, hb]

/-- And so does the smallest of nothing. -/
theorem value_min_of_infinite (ha : value a = infinite false) (hb : value b = finite y) :
    value (Arith.min a b) = finite y := by
  rw [Arith.min, isNaN_of_ne_nan (by simp [ha]), isNaN_of_ne_nan (by simp [hb]), lt_eq, ha, hb]
  simp [ExtendedReal.lt, hb]

end HasValue

namespace Agreement

open HasValue

variable {α : Type} [Arith α] [HasValue α]

/-! ## Rows -/

/-- Neither value is finite, and they are the same infinity or both not numbers. -/
def AgreeUnmeasured (row : α × α) : Prop :=
  value row.1 = value row.2 ∧ ∀ x, value row.1 ≠ finite x

/-- A row whose values agree although their difference says nothing, or differ by a finite
number. -/
def Comparable (row : α × α) : Prop :=
  AgreeUnmeasured row ∨ ∃ d, value (Arith.abs (row.1 - row.2)) = finite d

theorem sameSpecial_iff {s c : α} : sameSpecial s c = true ↔ AgreeUnmeasured (s, c) := by
  rw [sameSpecial, Bool.or_eq_true, Bool.and_eq_true, Bool.and_eq_true, isNaN_iff, isNaN_iff,
    isInfinite_iff, eqv_eq, AgreeUnmeasured]
  dsimp only
  cases value s <;> cases value c <;> simp [ExtendedReal.eqv]

/-- The difference of two values that agree without being finite is not a number. -/
theorem AgreeUnmeasured.value_abs_sub {row : α × α} (h : AgreeUnmeasured row) :
    value (Arith.abs (row.1 - row.2)) = nan := by
  rw [value_abs, value_sub _ _ (.inl h.2), ← h.1]
  have hnot := h.2
  cases hvalue : value row.1 with
  | finite x => exact absurd hvalue (hnot x)
  | infinite n => simp [ExtendedReal.add, ExtendedReal.neg, ExtendedReal.abs]
  | nan => rfl

/-- A finite difference is one of finite values. -/
theorem finite_of_value_abs_sub {s c : α} {d : ℝ} (h : value (Arith.abs (s - c)) = finite d) :
    (∃ x, value s = finite x) ∧ ∃ y, value c = finite y := by
  by_contra hnot
  have hexact : value (s - c) = (value s).add (value c).neg := by
    refine value_sub s c ?_
    simpa only [not_and_or, not_exists] using hnot
  rw [value_abs, hexact] at h
  cases hs : value s with
  | nan => simp [hs, ExtendedReal.add, ExtendedReal.abs] at h
  | finite x =>
    cases hc : value c with
    | finite y => exact hnot ⟨⟨x, hs⟩, y, hc⟩
    | infinite n => simp [hs, hc, ExtendedReal.add, ExtendedReal.neg, ExtendedReal.abs] at h
    | nan => simp [hs, hc, ExtendedReal.add, ExtendedReal.neg, ExtendedReal.abs] at h
  | infinite m =>
    cases hc : value c with
    | finite y => simp [hs, hc, ExtendedReal.add, ExtendedReal.neg, ExtendedReal.abs] at h
    | infinite n =>
      rw [hs, hc] at h
      cases m <;> cases n <;> simp [ExtendedReal.add, ExtendedReal.neg, ExtendedReal.abs] at h
    | nan => simp [hs, hc, ExtendedReal.add, ExtendedReal.neg, ExtendedReal.abs] at h

/-! ## Sets of rows -/

/-- The finite differences. -/
def differences (rows : List (α × α)) : Set ℝ :=
  {d | ∃ row ∈ rows, value (Arith.abs (row.1 - row.2)) = finite d}

/-- The finite entries of a column. -/
def finiteEntries (column : List α) : Set ℝ := {x | ∃ s ∈ column, value s = finite x}

theorem differences_concat {rows : List (α × α)} {row : α × α} {d : ℝ}
    (hd : value (Arith.abs (row.1 - row.2)) = finite d) :
    differences (rows ++ [row]) = insert d (differences rows) := by
  ext e
  simp only [differences, List.mem_append, List.mem_singleton, or_and_right, exists_or,
    exists_eq_left, Set.mem_ofPred_eq, Set.mem_insert_iff, hd, ExtendedReal.finite.injEq]
  rw [or_comm, eq_comm]

theorem differences_concat_of_not {rows : List (α × α)} {row : α × α}
    (hd : ∀ d, value (Arith.abs (row.1 - row.2)) ≠ finite d) :
    differences (rows ++ [row]) = differences rows := by
  ext e
  simp [differences, or_and_right, exists_or, hd e]

theorem finiteEntries_concat {column : List α} {s : α} {x : ℝ} (hs : value s = finite x) :
    finiteEntries (column ++ [s]) = insert x (finiteEntries column) := by
  ext y
  simp only [finiteEntries, List.mem_append, List.mem_singleton, or_and_right, exists_or,
    exists_eq_left, Set.mem_ofPred_eq, Set.mem_insert_iff, hs, ExtendedReal.finite.injEq]
  rw [or_comm, eq_comm]

theorem finiteEntries_concat_of_not {column : List α} {s : α} (hs : ∀ x, value s ≠ finite x) :
    finiteEntries (column ++ [s]) = finiteEntries column := by
  ext y
  simp [finiteEntries, or_and_right, exists_or, hs y]

/-! ## The pass -/

/-- The smallest of a set of numbers; of no numbers it is positive infinity. -/
def IsLowest (numbers : Set ℝ) (lowest : α) : Prop :=
  numbers = ∅ ∧ value lowest = infinite false ∨
    ∃ lo, value lowest = finite lo ∧ IsLeast numbers lo

/-- The largest of a set of numbers; of no numbers it is negative infinity. -/
def IsHighest (numbers : Set ℝ) (highest : α) : Prop :=
  numbers = ∅ ∧ value highest = infinite true ∨
    ∃ hi, value highest = finite hi ∧ IsGreatest numbers hi

theorem IsLowest.insert {numbers : Set ℝ} {lowest s : α} {x : ℝ} (h : IsLowest numbers lowest)
    (hs : value s = finite x) : IsLowest (insert x numbers) (Arith.min lowest s) := by
  right
  rcases h with ⟨rfl, hlowest⟩ | ⟨lo, hlowest, hleast⟩
  · exact ⟨x, value_min_of_infinite hlowest hs, by simp⟩
  · exact ⟨min lo x, value_min hlowest hs, min_comm x lo ▸ hleast.insert x⟩

theorem IsHighest.insert {numbers : Set ℝ} {highest s : α} {x : ℝ}
    (h : IsHighest numbers highest) (hs : value s = finite x) :
    IsHighest (insert x numbers) (Arith.max highest s) := by
  right
  rcases h with ⟨rfl, hhighest⟩ | ⟨hi, hhighest, hgreatest⟩
  · exact ⟨x, value_max_of_infinite hhighest hs, by simp⟩
  · exact ⟨max hi x, value_max hhighest hs, max_comm x hi ▸ hgreatest.insert x⟩

/-- What a spread holds of the rows that it has seen. -/
structure Measured (rows : List (α × α)) (w : Spread α) : Prop where
  difference : ∃ d, value w.difference = finite d ∧ IsGreatest (insert 0 (differences rows)) d
  lowest : IsLowest (finiteEntries (rows.map Prod.fst)) w.lowest
  highest : IsHighest (finiteEntries (rows.map Prod.fst)) w.highest

/-- Rows of which one differs have a lowest and a highest symbolic value. -/
theorem Measured.exists_extremes {rows : List (α × α)} {w : Spread α} (h : Measured rows w)
    {d : ℝ} (hd : d ∈ differences rows) :
    ∃ lo hi, value w.lowest = finite lo ∧ IsLeast (finiteEntries (rows.map Prod.fst)) lo ∧
      value w.highest = finite hi ∧ IsGreatest (finiteEntries (rows.map Prod.fst)) hi := by
  obtain ⟨row, hrow, hvalue⟩ := hd
  obtain ⟨⟨x, hx⟩, _⟩ := finite_of_value_abs_sub hvalue
  have hentry : x ∈ finiteEntries (rows.map Prod.fst) := ⟨row.1, List.mem_map_of_mem hrow, hx⟩
  have hne : finiteEntries (rows.map Prod.fst) ≠ ∅ := Set.nonempty_iff_ne_empty.1 ⟨x, hentry⟩
  obtain ⟨lo, hlowest, hleast⟩ := h.lowest.resolve_left fun hnone => hne hnone.1
  obtain ⟨hi, hhighest, hgreatest⟩ := h.highest.resolve_left fun hnone => hne hnone.1
  exact ⟨lo, hi, hlowest, hleast, hhighest, hgreatest⟩

theorem IsLowest.unique {numbers : Set ℝ} {lowest lowest' : α} (h : IsLowest numbers lowest)
    (h' : IsLowest numbers lowest') : value lowest = value lowest' := by
  rcases h with ⟨rfl, hvalue⟩ | ⟨lo, hvalue, hleast⟩ <;>
    rcases h' with ⟨hnone, hvalue'⟩ | ⟨lo', hvalue', hleast'⟩
  · rw [hvalue, hvalue']
  · exact hleast'.1.elim
  · exact (hnone ▸ hleast.1).elim
  · rw [hvalue, hvalue', hleast.unique hleast']

theorem IsHighest.unique {numbers : Set ℝ} {highest highest' : α} (h : IsHighest numbers highest)
    (h' : IsHighest numbers highest') : value highest = value highest' := by
  rcases h with ⟨rfl, hvalue⟩ | ⟨hi, hvalue, hgreatest⟩ <;>
    rcases h' with ⟨hnone, hvalue'⟩ | ⟨hi', hvalue', hgreatest'⟩
  · rw [hvalue, hvalue']
  · exact hgreatest'.1.elim
  · exact (hnone ▸ hgreatest.1).elim
  · rw [hvalue, hvalue', hgreatest.unique hgreatest']

/-- The same rows in another order measure the same. -/
theorem Measured.unique {rows rows' : List (α × α)} {w w' : Spread α} (h : Measured rows w)
    (h' : Measured rows' w') (hrows : ∀ row, row ∈ rows ↔ row ∈ rows') :
    value w.difference = value w'.difference ∧ value w.lowest = value w'.lowest ∧
      value w.highest = value w'.highest := by
  have hdifferences : differences rows = differences rows' := by simp only [differences, hrows]
  have hentries : finiteEntries (rows.map Prod.fst) = finiteEntries (rows'.map Prod.fst) := by
    simp only [finiteEntries, List.mem_map, hrows]
  obtain ⟨d, hd, hgreatest⟩ := h.difference
  obtain ⟨d', hd', hgreatest'⟩ := h'.difference
  rw [← hdifferences] at hgreatest'
  refine ⟨?_, h.lowest.unique (hentries ▸ h'.lowest), h.highest.unique (hentries ▸ h'.highest)⟩
  rw [hd, hd', hgreatest.unique hgreatest']

theorem measured_nil : Measured [] (⟨0, Arith.inf, -Arith.inf⟩ : Spread α) where
  difference := ⟨0, value_zero, by simp [differences]⟩
  lowest := .inl ⟨by simp [finiteEntries], value_inf⟩
  highest := .inl ⟨by simp [finiteEntries], by rw [value_neg, value_inf]; rfl⟩

/-- The extremes take the symbolic value in, whether the row agrees or not. -/
theorem Measured.widen {rows : List (α × α)} {w : Spread α} (h : Measured rows w) (row : α × α) :
    IsLowest (finiteEntries ((rows ++ [row]).map Prod.fst)) (w.widen row.1).lowest ∧
      IsHighest (finiteEntries ((rows ++ [row]).map Prod.fst)) (w.widen row.1).highest := by
  rw [List.map_append, List.map_singleton, Spread.widen]
  by_cases hfinite : Arith.isFinite row.1 = true
  · obtain ⟨x, hx⟩ := isFinite_iff.1 hfinite
    rw [if_pos hfinite, finiteEntries_concat hx]
    exact ⟨h.lowest.insert hx, h.highest.insert hx⟩
  · have hnot : ∀ x, value row.1 ≠ finite x := fun x hx => hfinite (isFinite_iff.2 ⟨x, hx⟩)
    rw [if_neg hfinite, finiteEntries_concat_of_not hnot]
    exact ⟨h.lowest, h.highest⟩

/-- One more row that can be compared. -/
theorem Measured.row {rows : List (α × α)} {w : Spread α} (h : Measured rows w) {row : α × α}
    (hrow : Comparable row) : ∃ w', w.row? row = some w' ∧ Measured (rows ++ [row]) w' := by
  obtain ⟨hlowest, hhighest⟩ := h.widen row
  obtain ⟨d, hd, hgreatest⟩ := h.difference
  by_cases hsame : sameSpecial row.1 row.2 = true
  · have hagree : AgreeUnmeasured row := sameSpecial_iff.1 hsame
    refine ⟨w.widen row.1, by simp [Spread.row?, hsame], ⟨d, ?_, ?_⟩, hlowest, hhighest⟩
    · rw [Spread.difference_widen, hd]
    · rw [differences_concat_of_not fun e => by simp [hagree.value_abs_sub]]
      exact hgreatest
  · obtain ⟨e, he⟩ := hrow.resolve_left (mt sameSpecial_iff.2 hsame)
    have hfinite : Arith.isFinite (Arith.abs (row.1 - row.2)) = true := isFinite_iff.2 ⟨e, he⟩
    refine ⟨{ w.widen row.1 with
      difference := Arith.max (w.widen row.1).difference (Arith.abs (row.1 - row.2)) },
      by simp [Spread.row?, hsame, hfinite], ⟨max d e, ?_, ?_⟩, hlowest, hhighest⟩
    · exact value_max (by rw [Spread.difference_widen, hd]) he
    · rw [differences_concat he, Set.insert_comm, max_comm]
      exact hgreatest.insert e

/-- A pass over rows that can all be compared measures them. -/
theorem exists_foldlM_row? {seen rows : List (α × α)} {w : Spread α} (h : Measured seen w)
    (hrows : ∀ row ∈ rows, Comparable row) :
    ∃ w', rows.foldlM Spread.row? w = some w' ∧ Measured (seen ++ rows) w' := by
  induction rows generalizing seen w with
  | nil => exact ⟨w, rfl, by simpa using h⟩
  | cons row rows ih =>
    obtain ⟨hrow, hrows⟩ := List.forall_mem_cons.1 hrows
    obtain ⟨v, hv, hseen⟩ := h.row hrow
    obtain ⟨w', hw', hall⟩ := ih hseen hrows
    refine ⟨w', ?_, by simpa using hall⟩
    rw [List.foldlM_cons, hv]
    exact hw'

theorem Spread.row?_eq_none_of_not_comparable (w : Spread α) {row : α × α}
    (hrow : ¬Comparable row) : w.row? row = none := by
  obtain ⟨hagree, hdifference⟩ := not_or.1 hrow
  have hsame : ¬sameSpecial row.1 row.2 = true := mt sameSpecial_iff.1 hagree
  have hfinite : ¬Arith.isFinite (Arith.abs (row.1 - row.2)) = true := mt isFinite_iff.1 hdifference
  simp [row?, hsame, hfinite]

/-- Rows without a difference have a discrepancy of zero. -/
theorem normalized_of_eq_zero {w : Spread α} (hd : value w.difference = finite 0) :
    w.normalized = 0 := by
  have hagrees : Arith.eqv w.difference 0 = true := by
    rw [eqv_eq, hd, value_zero]
    exact decide_eq_true rfl
  rw [Spread.normalized, if_pos hagrees]

/-- Rows with a difference have it divided by their range, if that is not too small. -/
theorem normalized_of_ne_zero {w : Spread α} {d : ℝ} (hd : value w.difference = finite d)
    (hne : d ≠ 0) :
    w.normalized =
      if Arith.lt (Arith.epsilon * Arith.max (Arith.abs w.highest) 1) (w.highest - w.lowest) then
        w.difference / (w.highest - w.lowest)
      else w.difference := by
  have hdiffers : ¬Arith.eqv w.difference 0 = true := by
    rw [eqv_eq, hd, value_zero]
    simpa [ExtendedReal.eqv] using hne
  rw [Spread.normalized, if_neg hdiffers]

/-- A discrepancy is infinite, if the columns cannot be compared row by row, or else it is what the
spread of the rows amounts to. -/
theorem discrepancy_cases (symbolic compiled : List α) :
    (symbolic.length ≠ compiled.length ∨ ∃ row ∈ symbolic.zip compiled, ¬Comparable row) ∧
        discrepancy symbolic compiled = Arith.inf ∨
      (symbolic.length = compiled.length ∧ ∀ row ∈ symbolic.zip compiled, Comparable row) ∧
        ∃ w, Measured (symbolic.zip compiled) w ∧ discrepancy symbolic compiled = w.normalized := by
  by_cases hlength : symbolic.length = compiled.length
  · rw [discrepancy, if_neg (not_not.2 hlength)]
    by_cases hall : ∀ row ∈ symbolic.zip compiled, Comparable row
    · obtain ⟨w, hrun, hw⟩ := exists_foldlM_row? measured_nil hall
      exact .inr ⟨⟨hlength, hall⟩, w, hw, by rw [hrun]⟩
    · push Not at hall
      obtain ⟨row, hrow, hnot⟩ := hall
      refine .inl ⟨.inr ⟨row, hrow, hnot⟩, ?_⟩
      rw [foldlM_row?_eq_none hrow fun w => w.row?_eq_none_of_not_comparable hnot]
  · exact .inl ⟨.inl hlength, by rw [discrepancy, if_pos hlength]⟩

/-- The discrepancy vanishes if no row shows a difference. -/
theorem discrepancy_eq_zero {symbolic compiled : List α}
    (hlength : symbolic.length = compiled.length)
    (hrows : ∀ row ∈ symbolic.zip compiled,
      AgreeUnmeasured row ∨ value (Arith.abs (row.1 - row.2)) = finite 0) :
    discrepancy symbolic compiled = 0 := by
  have hcomparable : ∀ row ∈ symbolic.zip compiled, Comparable row :=
    fun row hrow => (hrows row hrow).imp_right fun hzero => ⟨0, hzero⟩
  rcases discrepancy_cases symbolic compiled with ⟨hnot, _⟩ | ⟨_, w, hw, hvalue⟩
  · rcases hnot with hnot | ⟨row, hrow, hnot⟩
    · exact absurd hlength hnot
    · exact absurd (hcomparable row hrow) hnot
  · obtain ⟨d, hd, hgreatest⟩ := hw.difference
    have hzero : d = 0 := by
      rcases hgreatest.1 with hzero | ⟨row, hrow, hdifference⟩
      · exact hzero
      · rcases hrows row hrow with hagree | hnone
        · rw [hagree.value_abs_sub] at hdifference
          cases hdifference
        · exact ExtendedReal.finite.inj (hdifference.symm.trans hnone)
    rw [hvalue, normalized_of_eq_zero (hzero ▸ hd)]

/-- It is infinite if some row cannot be compared. -/
theorem discrepancy_eq_inf_of_not_comparable {symbolic compiled : List α} {row : α × α}
    (hrow : row ∈ symbolic.zip compiled) (hnot : ¬Comparable row) :
    discrepancy symbolic compiled = Arith.inf := by
  rcases discrepancy_cases symbolic compiled with ⟨_, hinf⟩ | ⟨⟨_, hall⟩, _⟩
  · exact hinf
  · exact absurd (hall row hrow) hnot

end Agreement

end FeatureGraph
