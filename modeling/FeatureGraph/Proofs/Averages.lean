import FeatureGraph.Proofs.BackwardPass

/-!
# Losses and gradients are averages over the rows

In exact arithmetic a pass over some rows of the data answers the mean of what the single rows
say: the loss is the mean value of the objective, and a gradient its mean tangent.  Neither the
number of rows nor their order enters in any other way.

* `Matrix.pick` are the rows at some places, in any order and with repetitions, as a batch on
  resampled rows has them.  `Matrix.Draws` says that each row of some data is a row of other data,
  and `draws_pick` that picked rows are.
* `Graph.answers_draw` is a pass over drawn rows, in terms of the rows they are drawn from.
* `Arith.mean_map_eq_sum_count` turns a mean over picked rows into a weighted one over all rows.
-/

namespace FeatureGraph

variable {α : Type}

/-! ## Rows of other data -/

namespace Matrix

variable {x : Matrix α} {y : List α}

/-- The rows at some places, of a matrix and of a target. -/
def pick (x : Matrix α) (y : List α) (rows : List (Fin x.nRows)) : Matrix α × List α :=
  let positions := rows.map Fin.val
  (x.selectRows positions, positions.filterMap (y[·]?))

/-- Each row of the data `x'` and `y'` is a row of the data `x` and `y`. -/
structure Draws (x : Matrix α) (y : List α) (x' : Matrix α) (y' : List α)
    (σ : Fin x'.nRows → Fin x.nRows) : Prop where
  nCols : x'.nCols = x.nCols
  length : y'.length = x'.nRows
  sample : ∀ k, x'.sample (some y') k = x.sample (some y) (σ k)

theorem rowsAmong_map_val (x : Matrix α) (rows : List (Fin x.nRows)) :
    x.rowsAmong (rows.map Fin.val) = rows := by
  simp [rowsAmong, List.filterMap_map]

theorem nRows_pick (x : Matrix α) (y : List α) (rows : List (Fin x.nRows)) :
    (x.pick y rows).1.nRows = rows.length := by
  show (x.rowsAmong (rows.map Fin.val)).toArray.size = _
  rw [rowsAmong_map_val, List.size_toArray]

/-- The targets of the picked rows. -/
theorem pick_snd (hy : y.length = x.nRows) (rows : List (Fin x.nRows)) :
    (x.pick y rows).2 = rows.map fun r => y.get (r.cast hy.symm) := by
  show (rows.map Fin.val).filterMap (y[·]?) = _
  rw [List.filterMap_map, List.filterMap_eq_map_iff_forall_eq_some]
  exact fun r _ => List.getElem?_eq_getElem (r.isLt.trans_eq hy.symm)

theorem draws_self (hy : y.length = x.nRows) : x.Draws y x y id := ⟨rfl, hy, fun _ => rfl⟩

/-- Picked rows are rows of the data. -/
theorem draws_pick (hy : y.length = x.nRows) (rows : List (Fin x.nRows)) :
    x.Draws y (x.pick y rows).1 (x.pick y rows).2
      fun k => rows.get (k.cast (nRows_pick x y rows)) where
  nCols := rfl
  length := by rw [pick_snd hy, List.length_map, nRows_pick]
  sample k := by
    have hrow : (x.pick y rows).1.row k = x.row (rows.get (k.cast (nRows_pick x y rows))) := by
      refine congrArg List.ofFn (funext fun c => (entry_ofFn _ _ _ k c).trans ?_)
      exact congrArg (x.entry · c) (List.getElem_of_eq (rowsAmong_map_val x rows) _)
    have hk : k.val < rows.length := nRows_pick x y rows ▸ k.isLt
    rw [Matrix.sample, Matrix.sample, hrow, pick_snd hy]
    simp [hk, hy]

end Matrix

/-! ## Means -/

variable [ExactArith α]

theorem Arith.mean_ofFn_eq_div {n : Nat} (f : Fin n → α) :
    Arith.mean (List.ofFn f) = (∑ r, f r) / (n : α) := by
  rw [Arith.mean, sum_ofFn, List.length_ofFn]

/-- The mean of one entry, if the reciprocal of one is one. -/
theorem Arith.mean_singleton (hone : (1 : α) / 1 = 1) (a : α) : Arith.mean [a] = a := by
  rw [Arith.mean, sum_eq_sum, List.sum_singleton, List.length_singleton, Nat.cast_one,
    ExactArith.div_eq, hone, mul_one]

/-- A mean over picked places weighs each place by how often it has been picked. -/
theorem Arith.mean_map_eq_sum_count {n : Nat} (rows : List (Fin n)) (f : Fin n → α) :
    Arith.mean (rows.map f) = (∑ r, (rows.count r : α) * f r) / (rows.length : α) := by
  have hsum : (rows.map f).sum = ∑ r, (rows.count r : α) * f r := by
    rw [Finset.sum_list_map_count]
    simp only [nsmul_eq_mul]
    refine Finset.sum_subset (Finset.subset_univ _) fun r _ hr => ?_
    rw [List.count_eq_zero_of_not_mem fun h => hr (List.mem_toFinset.2 h), Nat.cast_zero, zero_mul]
  rw [Arith.mean, Arith.sum_eq_sum, hsum, List.length_map]

/-! ## Passes -/

namespace Graph

variable {g : Graph α} {x x' : Matrix α} {y y' : List α} {objective : NodeId}

/-- A gradient pass over some rows answers the given gradients, and leaves the given loss. -/
structure Answers (g : Graph α) (rows : Matrix α × List α) (grads : Gradients α) (loss : α) :
    Prop where
  gradients : (g.gradients rows.1 rows.2).1 = .ok grads
  loss : (g.gradients rows.1 rows.2).2.loss? = some loss

/-- The graph after a gradient pass that could be made. -/
theorem gradients_snd (hg : g.Sound) (hobjective : g.objectives.head? = some objective)
    (hclosed : g.table.Closed) (hdata : g.table.Accepts x (some y)) :
    (g.gradients x y).2 = { g with
      tape := some g.table.straightTape
      values := g.table.computed x (some y) g.table.activeIds.length } := by
  rw [gradients_of_head? hobjective, (runForward_eq_ok_iff hg).2 ⟨hclosed, hdata, rfl⟩]
  rfl

/-- After a gradient pass the loss is the mean value of the objective, if there are rows. -/
theorem loss?_gradients (hg : g.Sound) (hobjective : g.objectives.head? = some objective)
    (hactive : objective ∈ g.table.activeIds) (hclosed : g.table.Closed)
    (hdata : g.table.Accepts x (some y)) :
    (g.gradients x y).2.loss? =
      if x.nRows = 0 then none
      else some (Arith.mean (List.ofFn fun r =>
        g.table.valueAt (x.sample (some y) r) objective)) := by
  rw [gradients_snd hg hobjective hclosed hdata]
  simp only [loss?, Tape.loss?, hobjective, NodeTable.slotOf?_straightTape, if_pos hactive,
    Option.bind_eq_bind, Option.bind_some,
    NodeTable.getElem?_computed hactive (List.idxOf_lt_length_iff.2 hactive)]
  rfl

omit [ExactArith α] in
/-- What a graph accepts, it accepts of drawn rows. -/
theorem accepts_draw {σ : Fin x'.nRows → Fin x.nRows} (hdraws : x.Draws y x' y' σ)
    (hdata : g.table.Accepts x (some y)) : g.table.Accepts x' (some y') where
  target _ h := Option.some.inj h ▸ hdraws.length
  inputs id hid column hop := hdraws.nCols ▸ hdata.inputs id hid column hop

/-- If a gradient pass succeeds, then so does one over drawn rows, and it answers the means of what
the rows say from which they are drawn. -/
theorem answers_draw (hg : g.Sound) {grads : Gradients α}
    (hpass : (g.gradients x y).1 = .ok grads) (hobjective : g.objectives.head? = some objective)
    {σ : Fin x'.nRows → Fin x.nRows} (hdraws : x.Draws y x' y' σ) (hrows : 0 < x'.nRows) :
    ∃ grads', g.Answers (x', y') grads'
        (Arith.mean (List.ofFn fun k => g.table.valueAt (x.sample (some y) (σ k)) objective)) ∧
      ∀ id j, (grads'.get id).getD j 0 =
        Arith.mean (List.ofFn fun k =>
          g.table.tangentAt (x.sample (some y) (σ k)) id j objective) := by
  obtain ⟨first, rest, hobjectives, hclosed, hdata, hactive⟩ := of_gradients_eq_ok hg hpass
  obtain rfl : first = objective := by simpa [hobjectives] using hobjective
  have hdata' := accepts_draw hdraws hdata
  obtain ⟨grads', hgrads', htangent⟩ :=
    exists_gradients_eq_ok hg hobjectives hclosed hdata' hactive
  simp only [hdraws.sample] at htangent
  refine ⟨grads', ⟨hgrads', ?_⟩, htangent⟩
  rw [loss?_gradients hg hobjective hactive hclosed hdata', if_neg (Nat.ne_of_gt hrows)]
  simp only [hdraws.sample]

/-- A pass over picked rows weighs what each row says by how often it has been picked. -/
theorem answers_pick (hg : g.Sound) {grads : Gradients α}
    (hpass : (g.gradients x y).1 = .ok grads) (hobjective : g.objectives.head? = some objective)
    (hy : y.length = x.nRows) {rows : List (Fin x.nRows)} (hrows : rows ≠ []) :
    ∃ grads', g.Answers (x.pick y rows) grads'
        ((∑ r, (rows.count r : α) * g.table.valueAt (x.sample (some y) r) objective) /
          (rows.length : α)) ∧
      ∀ id j, (grads'.get id).getD j 0 =
        (∑ r, (rows.count r : α) * g.table.tangentAt (x.sample (some y) r) id j objective) /
          (rows.length : α) := by
  have hpositive : 0 < (x.pick y rows).1.nRows :=
    x.nRows_pick y rows ▸ List.length_pos_iff.2 hrows
  have hmean : ∀ f : Fin x.nRows → α,
      Arith.mean (List.ofFn fun k => f (rows.get (k.cast (x.nRows_pick y rows)))) =
        (∑ r, (rows.count r : α) * f r) / (rows.length : α) := by
    intro f
    rw [← Arith.mean_map_eq_sum_count]
    refine congrArg Arith.mean (List.ext_getElem (by simp [x.nRows_pick]) fun k _ _ => ?_)
    simp
  obtain ⟨grads', hanswers, hgrads⟩ :=
    answers_draw hg hpass hobjective (x.draws_pick hy rows) hpositive
  refine ⟨grads', ?_, fun id j => ?_⟩
  · rwa [hmean fun r => g.table.valueAt (x.sample (some y) r) objective] at hanswers
  · rw [hgrads, hmean fun r => g.table.tangentAt (x.sample (some y) r) id j objective]

/-- A pass over a single row answers what that row says. -/
theorem answers_row (hone : (1 : α) / 1 = 1) (hg : g.Sound) {grads : Gradients α}
    (hpass : (g.gradients x y).1 = .ok grads) (hobjective : g.objectives.head? = some objective)
    (hy : y.length = x.nRows) (r : Fin x.nRows) :
    ∃ grads', g.Answers (x.pick y [r]) grads'
        (g.table.valueAt (x.sample (some y) r) objective) ∧
      ∀ id j, (grads'.get id).getD j 0 =
        g.table.tangentAt (x.sample (some y) r) id j objective := by
  have hsingle : ∀ f : Fin x.nRows → α,
      (∑ k, ([r].count k : α) * f k) / ([r].length : α) = f r := fun f => by
    rw [← Arith.mean_map_eq_sum_count, List.map_singleton, Arith.mean_singleton hone]
  obtain ⟨grads', hanswers, hgrads⟩ :=
    answers_pick hg hpass hobjective hy (List.cons_ne_nil r [])
  refine ⟨grads', ?_, fun id j => ?_⟩
  · rwa [hsingle fun r => g.table.valueAt (x.sample (some y) r) objective] at hanswers
  · rw [hgrads, hsingle fun r => g.table.tangentAt (x.sample (some y) r) id j objective]

/-- A pass over all rows answers the mean of what the rows say. -/
theorem answers_all (hg : g.Sound) {grads : Gradients α}
    (hpass : (g.gradients x y).1 = .ok grads) (hobjective : g.objectives.head? = some objective)
    (hy : y.length = x.nRows) (hrows : 0 < x.nRows) :
    g.Answers (x, y) grads
        ((∑ r, g.table.valueAt (x.sample (some y) r) objective) / (x.nRows : α)) ∧
      ∀ id j, (grads.get id).getD j 0 =
        (∑ r, g.table.tangentAt (x.sample (some y) r) id j objective) / (x.nRows : α) := by
  obtain ⟨grads', hanswers, hgrads⟩ :=
    answers_draw hg hpass hobjective (x.draws_self hy) hrows
  obtain rfl : grads' = grads := Except.ok.inj (hanswers.gradients.symm.trans hpass)
  simp only [Arith.mean_ofFn_eq_div] at hanswers hgrads
  exact ⟨hanswers, hgrads⟩

end Graph

end FeatureGraph
