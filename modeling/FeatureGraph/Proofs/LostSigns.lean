import FeatureGraph.Proofs.Agreement
import FeatureGraph.Proofs.SignedReal

/-!
# Lost signs of zeros

In an arithmetic with two zeros the check of a freshly lowered forest raises false alarms.  A
forest without square roots and its graph have the same values up to the first feature that divides
a number other than zero by the negative zero; there they have opposite infinities.

`Lowering.value_node` and `Lowering.opposite_infinities` say this of one row, and
`Forest.negativeZeroDivisor_iff` reads it off the columns.
-/

namespace FeatureGraph

open ExtendedReal (finite infinite nan)
open HasValue

/-! ## One row -/

/-- In this row the feature divides a number other than zero by the negative zero. -/
def Forest.DividesByNegativeZero {α : Type} [Arith α] (f : Forest α) (raw : List α) (i : Nat) :
    Prop :=
  ∃ feature, f.get? i = some feature ∧
    feature.op.DividesByNegativeZero (feature.parents.map (f.valueAt raw))

/-- No feature is a square root. -/
def Forest.WithoutSqrt {α : Type} (f : Forest α) : Prop :=
  ∀ i feature, f.get? i = some feature → feature.op ≠ .sqrt

namespace Lowering

variable {α : Type} [Arith α] [SignedZeros α] {f : Forest α} {g : Graph α} {m : NodeMapping}
  {node : Nat → NodeId}

/-- A node has the value of its feature, as long as no feature up to it divides a number other
than zero by the negative zero. -/
theorem value_node (h : Lowered f f.size g m node) (hf : f.Sound) (hsqrt : f.WithoutSqrt)
    (s : Sample α) {i : Nat} (hi : i < f.size)
    (hnone : ∀ j ≤ i, ¬f.DividesByNegativeZero s.raw j) :
    value (g.table.valueAt s (node i)) = value (f.valueAt s.raw i) := by
  refine h.valueAt_related (R := fun a b => value a = value b) hf s hi
    SignedZeros.value_zero_add ?_
  intro j hj feature hget hroot hbefore
  obtain ⟨hidentity, harity⟩ := hf.operator j feature hget hroot
  refine SignedZeros.value_lowered hidentity (hsqrt j feature hget) (by simpa using harity) ?_
    fun hdivides => hnone j hj ⟨feature, hget, hdivides⟩
  rw [List.map_map, List.map_map]
  exact List.map_congr_left hbefore

/-- At the first feature that does, the node has the opposite infinity. -/
theorem opposite_infinities (h : Lowered f f.size g m node) (hf : f.Sound)
    (hsqrt : f.WithoutSqrt) (s : Sample α) {i : Nat} (hi : i < f.size)
    (hfirst : ∀ j < i, ¬f.DividesByNegativeZero s.raw j)
    (hdivides : f.DividesByNegativeZero s.raw i) :
    ∃ n, value (f.valueAt s.raw i) = infinite n ∧
      value (g.table.valueAt s (node i)) = infinite !n := by
  obtain ⟨feature, hget, hdivides⟩ := hdivides
  have hroot : feature.isRoot = false := by
    by_contra hroot
    exact hdivides.ne_identity (hf.root i feature hget (by simpa using hroot)).1
  rw [h.valueAt_chain s hi hget hroot, hf.valueAt_operator hget hroot]
  refine SignedZeros.value_lowered_of_dividesByNegativeZero ?_ hdivides
  rw [List.map_map, List.map_map]
  refine List.map_congr_left fun p hp => ?_
  have hpi : p < i := hf.earlier i feature hget p hp
  exact value_node h hf hsqrt s (by omega) fun j hj => hfirst j (by omega)

end Lowering

/-! ## Columns -/

namespace Agreement

variable {α : Type} [Arith α] [SignedZeros α] {n : Nat} {s c : Fin n → α}

omit [Arith α] [SignedZeros α] in
theorem zip_ofFn : (List.ofFn s).zip (List.ofFn c) = List.ofFn fun r => (s r, c r) :=
  Column.zipWith_ofFn Prod.mk s c

/-- Columns of the same values do not differ. -/
theorem discrepancy_of_value_eq (h : ∀ r, value (c r) = value (s r)) :
    discrepancy (List.ofFn s) (List.ofFn c) = 0 := by
  refine discrepancy_eq_zero (by simp) fun row hrow => ?_
  rw [zip_ofFn, List.mem_ofFn] at hrow
  obtain ⟨r, rfl⟩ := hrow
  by_cases hfinite : ∃ x, value (s r) = finite x
  · obtain ⟨x, hx⟩ := hfinite
    right
    rw [value_abs, SignedZeros.value_sub_self hx ((h r).trans hx)]
    simp [ExtendedReal.abs]
  · exact .inl ⟨(h r).symm, fun x hx => hfinite ⟨x, hx⟩⟩

/-- Opposite infinities cannot be compared. -/
theorem discrepancy_of_opposite_infinities {r : Fin n} {negative : Bool}
    (hs : value (s r) = infinite negative) (hc : value (c r) = infinite !negative) :
    discrepancy (List.ofFn s) (List.ofFn c) = Arith.inf := by
  have hrow : (s r, c r) ∈ (List.ofFn s).zip (List.ofFn c) := by
    rw [zip_ofFn, List.mem_ofFn]
    exact ⟨r, rfl⟩
  refine discrepancy_eq_inf_of_not_comparable hrow ?_
  rintro (⟨hagree, _⟩ | ⟨d, hd⟩)
  · rw [hs, hc] at hagree
    cases negative <;> cases hagree
  · obtain ⟨⟨x, hx⟩, _⟩ := finite_of_value_abs_sub hd
    rw [hs] at hx
    cases hx

end Agreement

namespace Forest

variable {α : Type} [Arith α] {f : Forest α} {x : Matrix α}

/-- In some row of the given columns, the feature at a position divides a number other than zero
by the negative zero. -/
def NegativeZeroDivisor (f : Forest α) (columns : List (List α)) (i : Nat) : Prop :=
  ∃ feature, f.get? i = some feature ∧ ∃ (r : Nat) (args : List α),
    List.Forall₂ (fun p v => ∃ column, columns[p]? = some column ∧ column[r]? = some v)
      feature.parents args ∧
    feature.op.DividesByNegativeZero args

theorem getElem?_columnAt {p r : Nat} {v : α} :
    (f.columnAt x p)[r]? = some v ↔ ∃ hr : r < x.nRows, f.valueAt (x.row ⟨r, hr⟩) p = v := by
  simp [columnAt, List.getElem?_ofFn]

/-- The arguments that a feature finds in a row of the columns. -/
theorem forall₂_columnsOf_iff {ps : List Nat} {args : List α} (hps : ∀ p ∈ ps, p < f.size)
    (r : Fin x.nRows) :
    List.Forall₂ (fun p v => ∃ column, (f.columnsOf x)[p]? = some column ∧ column[r.val]? = some v)
      ps args ↔ args = ps.map (f.valueAt (x.row r)) := by
  induction ps generalizing args with
  | nil => simp
  | cons p ps ih =>
    obtain ⟨hp, hps⟩ := List.forall_mem_cons.1 hps
    simp [List.forall₂_cons_left_iff, ih hps, getElem?_columnsOf hp, getElem?_columnAt]

theorem negativeZeroDivisor_iff (hf : f.Sound) {i : Nat} :
    f.NegativeZeroDivisor (f.columnsOf x) i ↔
      ∃ r : Fin x.nRows, f.DividesByNegativeZero (x.row r) i := by
  have hinside : ∀ feature, f.get? i = some feature → ∀ p ∈ feature.parents, p < f.size :=
    fun feature hget p hp => Nat.lt_trans (hf.earlier i feature hget p hp) (lt_size_of_get? hget)
  constructor
  · rintro ⟨feature, hget, r, args, hargs, hdivides⟩
    -- there is an argument, so there is a row
    have hr : r < x.nRows := by
      obtain ⟨v, rest, rfl⟩ := List.exists_cons_of_ne_nil hdivides.ne_nil
      obtain ⟨p, ps, ⟨column, hcolumn, hentry⟩, _, hparents⟩ := List.forall₂_cons_right_iff.1 hargs
      rw [getElem?_columnsOf (hinside feature hget p (by simp [hparents])),
        Option.some.injEq] at hcolumn
      rw [← hcolumn, getElem?_columnAt] at hentry
      exact hentry.1
    refine ⟨⟨r, hr⟩, feature, hget, ?_⟩
    rwa [← (forall₂_columnsOf_iff (hinside feature hget) ⟨r, hr⟩).1 hargs]
  · rintro ⟨r, feature, hget, hdivides⟩
    exact ⟨feature, hget, r, _, (forall₂_columnsOf_iff (hinside feature hget) r).2 rfl, hdivides⟩

end Forest

/-! ## The check -/

namespace Agreement

open Lowering

variable {α : Type} [Arith α] [SignedZeros α] {f : Forest α} {g : Graph α} {m : NodeMapping}
  {node : Nat → NodeId} {x : Matrix α} {tolerance : α}

/-- The check of a lowered forest without square roots passes if nothing but zero is divided by
the negative zero.  Otherwise it is refused at the first feature that does so. -/
theorem check_finds_negativeZeroDivisor (h : Lowered f f.size g m node) (hf : f.Sound)
    (hsqrt : f.WithoutSqrt) (hx : f.rootCount ≤ x.nCols)
    (hfinite : Arith.isFinite tolerance = true) (hnonneg : Arith.le 0 tolerance = true) :
    ((∃ a, (check f g m x tolerance).1.outcome = .ok a) ↔
        ∀ i, ¬f.NegativeZeroDivisor (f.columnsOf x) i) ∧
      (∀ a, (check f g m x tolerance).1.outcome = .ok a →
        a.discrepancies = f.features.toList.map (fun feature => (feature.expr, 0)) ∧
          a.skipped = 0) ∧
      ∀ i feature, f.get? i = some feature → f.NegativeZeroDivisor (f.columnsOf x) i →
        (∀ j < i, ¬f.NegativeZeroDivisor (f.columnsOf x) j) →
        (check f g m x tolerance).1.outcome =
          Outcome.fail (.disagreement feature.expr Arith.inf) := by
  obtain ⟨t, ht⟩ := isFinite_iff.1 hfinite
  have hinf : Arith.lt tolerance Arith.inf = true := by
    rw [lt_eq, ht, value_inf]
    rfl
  have htolerance : Arith.lt tolerance 0 = false := by
    rw [lt_eq, ht, value_zero]
    simpa [ExtendedReal.lt] using (le_iff value_zero ht).1 hnonneg
  have hrows : ∀ i, ¬f.NegativeZeroDivisor (f.columnsOf x) i →
      ∀ r : Fin x.nRows, ¬f.DividesByNegativeZero (x.row r) i :=
    fun i hnone r hr => hnone ((Forest.negativeZeroDivisor_iff hf).2 ⟨r, hr⟩)
  refine check_finds_out h hf hx htolerance hinf _ ?_ ?_ ?_
  · rintro i ⟨feature, hget, _⟩
    exact Forest.lt_size_of_get? hget
  · intro i hi hnone
    exact discrepancy_of_value_eq fun r =>
      value_node h hf hsqrt (x.sample none r) hi fun j hj => hrows j (hnone j hj) r
  · intro i hdivides hfirst
    obtain ⟨r, hr⟩ := (Forest.negativeZeroDivisor_iff hf).1 hdivides
    have hi : i < f.size := by
      obtain ⟨_, hget, _⟩ := hr
      exact Forest.lt_size_of_get? hget
    obtain ⟨n, hs, hc⟩ := opposite_infinities h hf hsqrt (x.sample none r) hi
      (fun j hj => hrows j (hfirst j hj) r) hr
    exact discrepancy_of_opposite_infinities hs hc

end Agreement

namespace Forest

/-- In an arithmetic with two zeros, a forest without square roots and the graph it is lowered to
agree exactly where nothing but zero is divided by the negative zero, and the check finds out.  If
no other division is by the negative zero, the check passes every feature with discrepancy zero,
whichever entries are zeros, infinite or not numbers.  If there is one, the freshly lowered graph is
refused at the first of them. -/
theorem lower_agrees_but_for_negative_zeros {α : Type} [Arith α] [SignedZeros α] {f : Forest α}
    {x : Matrix α} (hf : f.Built) (hsqrt : f.WithoutSqrt) (hx : f.rootCount ≤ x.nCols) :
    ∃ g m columns, f.lower.outcome = .ok (g, m) ∧ f.evaluate x = .ok columns ∧
      (g.evaluate x none).1 = .ok () ∧
      ∀ tolerance, Arith.isFinite tolerance = true → Arith.le 0 tolerance = true →
        ((∃ a, (Agreement.check f g m x tolerance).1.outcome = .ok a) ↔
          ∀ i, ¬f.NegativeZeroDivisor columns i) ∧
        (∀ a, (Agreement.check f g m x tolerance).1.outcome = .ok a →
          a.discrepancies = f.features.toList.map (fun feature => (feature.expr, 0)) ∧
            a.skipped = 0) ∧
        ∀ i feature, f.get? i = some feature → f.NegativeZeroDivisor columns i →
          (∀ j < i, ¬f.NegativeZeroDivisor columns j) →
          (Agreement.check f g m x tolerance).1.outcome =
            Outcome.fail (.disagreement feature.expr Arith.inf) := by
  have hsound := hf.sound
  obtain ⟨g, m, node, hlower, h⟩ := hsound.exists_lower
  have hcolumns : g.nextColumn ≤ x.nCols := h.nextColumn ▸ hx
  exact ⟨g, m, f.columnsOf x, hlower, (evaluate_eq_ok_iff hsound).2 ⟨hx, rfl⟩,
    h.intact.evaluate_eq_ok hcolumns, fun tolerance hfinite hnonneg =>
      Agreement.check_finds_negativeZeroDivisor h hsound hsqrt hx hfinite hnonneg⟩

section Example

variable {α : Type} [Arith α]

/-- Two columns and their quotient. -/
def columnsAndQuotient : Forest α :=
  let a : Forest α := Forest.empty.push ⟨"a", .identity, [], true, 1, 1, 0, 0⟩
  let b : Forest α := a.push ⟨"b", .identity, [], true, 1, 1, 0, 0⟩
  b.push ⟨"a/b", .divide, [0, 1], false, 1, 1, 0, 0⟩

theorem built_columnsAndQuotient : (columnsAndQuotient : Forest α).Built := by
  have ha : (Forest.empty.push (⟨"a", .identity, [], true, 1, 1, 0, 0⟩ : Feature α)).Built :=
    Built.empty.pushRoot (by simp [Forest.empty])
  refine (ha.pushRoot ?_).pushOperator ?_ ⟨by decide, rfl⟩ ?_
  · simp [Forest.push, Forest.empty]
  · simp [Forest.push, Forest.empty]
  · simp [Forest.push, Forest.empty, size]

theorem withoutSqrt_columnsAndQuotient : (columnsAndQuotient : Forest α).WithoutSqrt := by
  intro i feature hget hop
  rcases i with _ | _ | _ | i
  · rw [← Option.some.inj hget] at hop
    cases hop
  · rw [← Option.some.inj hget] at hop
    cases hop
  · rw [← Option.some.inj hget] at hop
    cases hop
  · cases hget

theorem dividesByNegativeZero_columnsAndQuotient {raw : List α} {i : Nat} :
    (columnsAndQuotient : Forest α).DividesByNegativeZero raw i ↔
      i = 2 ∧ Operator.divide.DividesByNegativeZero
        [1 * 1 * raw.getD 0 0, 1 * 1 * raw.getD 1 0] := by
  have hparents : [0, 1].map ((columnsAndQuotient : Forest α).valueAt raw) =
      [1 * 1 * raw.getD 0 0, 1 * 1 * raw.getD 1 0] := by
    simp only [List.map_cons, List.map_nil]
    rw [valueAt_root (i := 0) rfl rfl, valueAt_root (i := 1) rfl rfl]
    rfl
  rw [← hparents]
  constructor
  · rintro ⟨feature, hget, hdivides⟩
    have hidentity := hdivides.ne_identity
    rcases i with _ | _ | _ | i
    · exact absurd (congrArg Feature.op (Option.some.inj hget)).symm hidentity
    · exact absurd (congrArg Feature.op (Option.some.inj hget)).symm hidentity
    · rw [← Option.some.inj hget] at hdivides
      exact ⟨rfl, hdivides⟩
    · cases hget
  · rintro ⟨rfl, hdivides⟩
    exact ⟨_, rfl, hdivides⟩

/-- One row with two entries. -/
def oneRow (a b : α) : Matrix α := .ofFn 1 2 fun _ c => if c.val = 0 then a else b

theorem negativeZeroDivisor_oneRow {a b : α} {i : Nat} :
    (columnsAndQuotient : Forest α).NegativeZeroDivisor
        (columnsAndQuotient.columnsOf (oneRow a b)) i ↔
      i = 2 ∧ Operator.divide.DividesByNegativeZero [1 * 1 * a, 1 * 1 * b] := by
  have hrow : ∀ r, (oneRow a b).row r = [a, b] := by
    intro r
    have hentry : (oneRow a b).entry r = fun c : Fin 2 => if c.val = 0 then a else b :=
      funext (Matrix.entry_ofFn 1 2 _ r)
    show List.ofFn (n := 2) ((oneRow a b).entry r) = [a, b]
    rw [hentry]
    rfl
  rw [negativeZeroDivisor_iff built_columnsAndQuotient.sound]
  simp only [dividesByNegativeZero_columnsAndQuotient, hrow]
  exact ⟨fun ⟨_, h⟩ => h, fun h => ⟨⟨0, Nat.zero_lt_one⟩, h⟩⟩

end Example

theorem divide_dividesByNegativeZero_iff {a b : SignedReal} :
    Operator.divide.DividesByNegativeZero [1 * 1 * a, 1 * 1 * b] ↔
      b = -0 ∧ a.value ≠ nan ∧ a.value ≠ finite 0 := by
  rw [SignedZeros.dividesByNegativeZero_iff, SignedReal.one_mul, SignedReal.one_mul,
    SignedReal.one_mul]
  constructor
  · rintro ⟨_, hquotient, hnan, hzero⟩
    cases hquotient
    exact ⟨rfl, hnan, hzero⟩
  · rintro ⟨rfl, hnan, hzero⟩
    exact ⟨a, rfl, hnan, hzero⟩

theorem zero_admissible :
    Arith.isFinite (0 : SignedReal) = true ∧ Arith.le (0 : SignedReal) 0 = true :=
  ⟨isFinite_iff.2 ⟨0, rfl⟩, (le_iff value_zero value_zero).2 le_rfl⟩

/-- A zero may be divided by the negative zero: neither side is a number. -/
theorem lower_agrees_but_for_negative_zeros_zeroByZero :
    (columnsAndQuotient : Forest SignedReal).Built ∧
      (columnsAndQuotient : Forest SignedReal).WithoutSqrt ∧
      (columnsAndQuotient : Forest SignedReal).rootCount ≤ 2 ∧
      ∃ g m a, (columnsAndQuotient : Forest SignedReal).lower.outcome = .ok (g, m) ∧
        (Agreement.check columnsAndQuotient g m (oneRow 0 (-0)) 0).1.outcome = .ok a ∧
        a.discrepancies = [("a", 0), ("b", 0), ("a/b", 0)] := by
  have hbuilt : (columnsAndQuotient : Forest SignedReal).Built := built_columnsAndQuotient
  have hx : (columnsAndQuotient : Forest SignedReal).rootCount ≤ 2 := by decide
  obtain ⟨g, m, columns, hlower, hcolumns, _, hcheck⟩ :=
    lower_agrees_but_for_negative_zeros hbuilt withoutSqrt_columnsAndQuotient
      (x := oneRow 0 (-0)) hx
  obtain ⟨_, rfl⟩ := (evaluate_eq_ok_iff hbuilt.sound).1 hcolumns
  obtain ⟨hiff, hagrees, _⟩ := hcheck 0 zero_admissible.1 zero_admissible.2
  obtain ⟨a, ha⟩ := hiff.2 fun i hdivides => by
    obtain ⟨_, hdivides⟩ := negativeZeroDivisor_oneRow.1 hdivides
    exact (divide_dividesByNegativeZero_iff.1 hdivides).2.2 rfl
  exact ⟨hbuilt, withoutSqrt_columnsAndQuotient, hx, g, m, a, hlower, ha, (hagrees a ha).1⟩

/-- A one may not: its quotient and the node of the quotient are opposite infinities. -/
theorem refused_one_by_negative_zero :
    (columnsAndQuotient : Forest SignedReal).Built ∧
      (columnsAndQuotient : Forest SignedReal).WithoutSqrt ∧
      (columnsAndQuotient : Forest SignedReal).rootCount ≤ 2 ∧
      Arith.isFinite (0 : SignedReal) = true ∧ Arith.le (0 : SignedReal) 0 = true ∧
      ∃ g m, (columnsAndQuotient : Forest SignedReal).lower.outcome = .ok (g, m) ∧
        (Agreement.check columnsAndQuotient g m (oneRow 1 (-0)) 0).1.outcome =
          Outcome.fail (.disagreement "a/b" Arith.inf) := by
  have hbuilt : (columnsAndQuotient : Forest SignedReal).Built := built_columnsAndQuotient
  have hx : (columnsAndQuotient : Forest SignedReal).rootCount ≤ 2 := by decide
  obtain ⟨g, m, node, hlower, h⟩ := hbuilt.sound.exists_lower
  obtain ⟨_, _, hrefused⟩ := Agreement.check_finds_negativeZeroDivisor h hbuilt.sound
    withoutSqrt_columnsAndQuotient (x := oneRow 1 (-0)) hx zero_admissible.1 zero_admissible.2
  refine ⟨hbuilt, withoutSqrt_columnsAndQuotient, hx, zero_admissible.1, zero_admissible.2, g, m,
    hlower, hrefused 2 _ rfl ?_ ?_⟩
  · refine negativeZeroDivisor_oneRow.2 ⟨rfl, divide_dividesByNegativeZero_iff.2 ⟨rfl, ?_, ?_⟩⟩
    · exact nofun
    · exact fun hone => one_ne_zero (ExtendedReal.finite.inj hone)
  · intro j hj hdivides
    have hposition := (negativeZeroDivisor_oneRow.1 hdivides).1
    omega

end Forest

end FeatureGraph
