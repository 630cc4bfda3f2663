import FeatureGraph.Proofs.Selection
import FeatureGraph.Model.Ensemble

/-!
# What a new model predicts

A model predicts the mean of its selected features, each with the sign of its coverage, as
the forest's own evaluator computes them.

* `Wired.evaluate_eq_ok` and `Wired.valueAt_output` say what one pass over a wired graph
  leaves at the output.
* `predict_eq_ok` is the prediction without dropout, in one pass.
* `predict_of_build` puts the stages together.
-/

namespace FeatureGraph

variable {α : Type} [Arith α]

/-- The sum of the selected features' values in the order of the forest, each divided by
their number, with the sign of its coverage. -/
def Forest.signedMean (f : Forest α) (quality : α) (value : Nat → α) : α :=
  (f.ofQuality quality).foldl
    (fun sum entry =>
      sum + (if Arith.lt 0 entry.2.coverage then 1 else -1) / ((f.ofQuality quality).length : α) *
        value entry.1) 0

theorem Forest.signedMean_congr {f : Forest α} {quality : α} {v w : Nat → α}
    (h : ∀ i < f.size, v i = w i) : f.signedMean quality v = f.signedMean quality w := by
  refine List.foldl_ext _ _ _ fun sum entry hentry => ?_
  obtain ⟨k, hk, rfl⟩ := List.getElem_of_mem (List.mem_of_mem_filter hentry)
  rw [(Forest.get?_of_getElem_entries hk).1, h k (by simpa using hk)]

namespace Model

/-! ## One pass over a wired graph -/

section Wired

variable {g : Graph α} {nodes : List NodeId} {weights : List α} {w : Wiring α} {x : Matrix α}

/-- The value of the output: the weighted sum of the nodes that it was wired over. -/
theorem Wired.valueAt_output (h : Wired g nodes weights w)
    (hlength : weights.length = nodes.length) (s : Sample α) :
    w.graph.table.valueAt s w.output =
      (weights.zip (nodes.map (g.table.valueAt s))).foldl (fun v p => v + p.1 * p.2) 0 := by
  set args := nodes.map (g.table.valueAt s) with hargs
  have hcount : weights.length = args.length := by rw [hargs, List.length_map, hlength]
  have hvalues : nodes.map (w.graph.table.valueAt s) = args :=
    List.map_congr_left fun p hp => h.agree.valueAt s (h.wirable.inside p hp)
  have hbias : (weights ++ [0]).getD args.length 0 = 0 := by simp [← hcount]
  have hzip : (weights ++ [0]).zip args = weights.zip args :=
    calc (weights ++ [0]).zip args = (weights ++ [0]).zip (args ++ []) := by rw [List.append_nil]
      _ = weights.zip args ++ [0].zip [] := List.zip_append hcount
      _ = weights.zip args := by simp
  rw [h.node.valueAt h.sound.table, hvalues]
  change Primitive.scalar .output (weights ++ [0]) args = _
  rw [Primitive.scalar, hbias, hzip]

/-- A wired graph can be evaluated on rows with a column for each input. -/
theorem Wired.evaluate_eq_ok (h : Wired g nodes weights w)
    (hinputs : ∀ (id : NodeId) (column : Nat), g.table.ops[id]? = some (.input column) →
      column < x.nCols) :
    (w.graph.evaluate x none).1 = .ok () := by
  refine (Graph.evaluate_eq_ok_iff h.sound).2 ⟨h.closed, by simp, ?_⟩
  intro id _ column hid
  exact hinputs id column (h.inputs id column hid)

theorem Wired.outputColumn_eq_ok (h : Wired g nodes weights w)
    (hinputs : ∀ (id : NodeId) (column : Nat), g.table.ops[id]? = some (.input column) →
      column < x.nCols) :
    (outputColumn w.output w.graph x).1 = .ok (w.graph.table.columnAt x none w.output) := by
  have hpass := h.evaluate_eq_ok hinputs
  have hvals := Graph.vals?_evaluate h.sound hpass w.output
  rw [if_pos h.active] at hvals
  rcases hrun : w.graph.evaluate x none with ⟨result, g'⟩
  rw [hrun] at hpass hvals
  have hresult : result = .ok () := hpass
  rw [outputColumn, hrun, hresult]
  simp only [hvals]

end Wired

/-! ## Predicting -/

/-- Without a controller one pass is enough, and its output is the prediction. -/
theorem predict_eq_ok {γ σ : Type} {model : Model α} {x : Matrix α} {column : List α}
    (h : (outputColumn model.output model.graph x).1 = .ok column) (state : γ) (source : σ) :
    (model.predict (none : Option (Controller γ σ)) state x 1 source).outcome =
      .ok (meanColumn x.nRows [column]) := by
  rcases hrun : outputColumn model.output model.graph x with ⟨result, g⟩
  rw [hrun] at h
  have hresult : result = .ok column := h
  have hcolumns : outputColumns (none : Option (Controller γ σ)) model.output x 1 model.graph
      state source = ⟨.ok [column], g, state, source⟩ := by
    have hmask : model.graph.withMask model.graph.mask = model.graph := rfl
    simp only [outputColumns, sampleMask, hmask, hrun, hresult]
    rfl
  rw [predict, if_neg (by decide), hcolumns]
  rfl

theorem meanColumn_singleton [PredictionLaws α] {n : Nat} (v : Fin n → α) :
    meanColumn n [List.ofFn v] = List.ofFn v := by
  have hone : ∀ a : α, (0 + a) / ((1 : Nat) : α) = a := by
    intro a
    rw [LoweringLaws.zero_add, PredictionLaws.natCast_one, PredictionLaws.div_one]
  simp only [meanColumn, List.foldl_cons, List.foldl_nil, List.length_singleton]
  rw [Column.update_eq_zipWith _ (by simp), Column.zeros_eq_ofFn, Column.zipWith_ofFn,
    List.map_ofFn]
  simp only [Function.comp_def, hone]

theorem initialWeight_eq (k : Nat) (coverage : α) :
    initialWeight k coverage = (if Arith.lt 0 coverage then 1 else -1) / (k : α) := by
  unfold initialWeight
  split <;> rfl

/-- Which nodes are active makes no difference to their values. -/
theorem valueAt_activateOnly (g : Graph α) (kept : List NodeId) (s : Sample α) (id : NodeId) :
    (g.activateOnly kept).table.valueAt s id = g.table.valueAt s id := by
  have hagree : NodeTable.Agree (id + 1) g.table (g.activateOnly kept).table :=
    ⟨fun _ _ => rfl, fun _ _ => rfl, fun _ _ => rfl, fun _ _ => rfl⟩
  exact hagree.valueAt s (Nat.lt_succ_self id)

/-- The output over the nodes of the selected features has their signed mean for value, in
every row in which these nodes have the features' values. -/
theorem Wired.valueAt_output_eq_signedMean {f : Forest α} {quality : α} {g : Graph α}
    {node : Nat → NodeId} {w : Wiring α}
    (h : Wired g ((f.ofQuality quality).map fun entry => node entry.1)
      ((f.ofQuality quality).map fun entry =>
        initialWeight (f.ofQuality quality).length entry.2.coverage) w) (s : Sample α) :
    w.graph.table.valueAt s w.output =
      f.signedMean quality fun i => g.table.valueAt s (node i) := by
  rw [h.valueAt_output (by simp), List.map_map, List.zip_map', List.foldl_map, Forest.signedMean]
  simp only [initialWeight_eq, Function.comp_def]

/-- One pass over the graph of a new model leaves the signed mean of the features' own values
at its output. -/
theorem outputColumn_of_build [LoweringLaws α] {f : Forest α} (hf : f.Sound) {x : Matrix α}
    {tolerance quality : α} (hfinite : Arith.isFinite tolerance = true) {model : Model α}
    (hbuild : (build f x tolerance quality).outcome = .ok model) :
    f.rootCount ≤ x.nCols ∧ (outputColumn model.output model.graph x).1 =
      .ok (List.ofFn fun r => f.signedMean quality (f.valueAt (x.row r))) := by
  obtain ⟨g, m, node, a, kept, w, h, hcheck, hne, hwired, hgraph, houtput⟩ :=
    of_build_eq_ok hf hbuild
  have hsize : 0 < f.size := by
    obtain ⟨entry, hentry⟩ := List.exists_mem_of_ne_nil _ hne
    have hlength := List.length_pos_of_mem (List.mem_of_mem_filter hentry)
    simpa using hlength
  -- the check has ruled out negative radicands
  have hx := Agreement.rootCount_le_of_check_eq_ok h hsize hcheck
  have hnone := Agreement.not_sqrtOfNegative_of_check_eq_ok h hf hx hfinite hcheck
  have htable : (g.evaluate x none).2.table = g.table := by
    rw [Graph.evaluate_snd h.intact.sound (Agreement.evaluate_of_check_eq_ok hcheck)]
  have hinputs : ∀ (id : NodeId) (column : Nat),
      ((g.evaluate x none).2.activateOnly kept).table.ops[id]? = some (.input column) →
        column < x.nCols := by
    intro id column hid
    have hcolumn := h.intact.inputs id column (htable ▸ hid)
    have hnext : g.nextColumn ≤ x.nCols := h.nextColumn ▸ hx
    omega
  refine ⟨hx, ?_⟩
  rw [hgraph, houtput, hwired.outputColumn_eq_ok hinputs, Except.ok.injEq]
  refine List.ofFn_inj.2 (funext fun r => ?_)
  rw [hwired.valueAt_output_eq_signedMean]
  refine Forest.signedMean_congr fun i hi => ?_
  rw [valueAt_activateOnly, htable]
  exact h.valueAt_eq hf (x.sample none r) hi fun j _ => hnone j r

/-- What a model predicts that has been built with a finite tolerance: the forest can be
evaluated, and the prediction for each row is the signed mean of the columns of the selected
features. -/
theorem predict_of_build [PredictionLaws α] {f : Forest α} (hf : f.Built) {x : Matrix α}
    {tolerance quality : α} (hfinite : Arith.isFinite tolerance = true) {model : Model α}
    (hbuild : (build f x tolerance quality).outcome = .ok model) :
    ∃ columns, f.evaluate x = .ok columns ∧ columns.length = f.size ∧
      (∀ column ∈ columns, column.length = x.nRows) ∧
      ∀ (γ σ : Type) (state : γ) (source : σ),
        (model.predict (none : Option (Controller γ σ)) state x 1 source).outcome =
          .ok (List.ofFn fun r : Fin x.nRows =>
            f.signedMean quality fun i => (columns.getD i []).getD r 0) := by
  have hsound := hf.sound
  obtain ⟨hx, hcolumn⟩ := outputColumn_of_build hsound hfinite hbuild
  refine ⟨f.columnsOf x, (Forest.evaluate_eq_ok_iff hsound).2 ⟨hx, rfl⟩, by simp [Forest.columnsOf],
    ?_, ?_⟩
  · intro column hmem
    obtain ⟨i, _, rfl⟩ := List.mem_map.1 hmem
    simp [Forest.columnAt]
  · intro γ σ state source
    rw [predict_eq_ok hcolumn, meanColumn_singleton, Except.ok.injEq]
    refine List.ofFn_inj.2 (funext fun r => ?_)
    refine Forest.signedMean_congr fun i hi => ?_
    have hget : (f.columnsOf x).getD i [] = f.columnAt x i := by
      rw [List.getD_eq_getElem?_getD, Forest.getElem?_columnsOf hi, Option.getD_some]
    rw [hget]
    simp [Forest.columnAt]

/-- The model of a square root over one row with a positive entry. -/
theorem predict_of_build_columnAndRoot :
    ∃ model, (build (Forest.columnAndRoot : Forest ExtendedReal) (.ofFn 1 1 fun _ _ => 4) 0
        1).outcome = .ok model ∧
      ∃ columns, (Forest.columnAndRoot : Forest ExtendedReal).evaluate (.ofFn 1 1 fun _ _ => 4) =
          .ok columns ∧
        (model.predict (none : Option (Controller Unit Unit)) () (.ofFn 1 1 fun _ _ => 4) 1
          ()).outcome = .ok (List.ofFn fun r : Fin 1 =>
            Forest.columnAndRoot.signedMean 1 fun i => (columns.getD i []).getD r 0) := by
  have hbuilt : (Forest.columnAndRoot : Forest ExtendedReal).Built := Forest.built_columnAndRoot
  have hx : (Forest.columnAndRoot : Forest ExtendedReal).rootCount ≤ 1 := by decide
  have hfinite : Arith.isFinite (0 : ExtendedReal) = true := SpecialValues.isFinite_zero
  have hne : (Forest.columnAndRoot : Forest ExtendedReal).ofQuality 1 ≠ [] :=
    Forest.ofQuality_ne_nil (i := 1) rfl ExtendedReal.one_le_one
  have hnone : ∀ i, ∀ r : Fin (Matrix.ofFn 1 1 fun _ _ => (4 : ExtendedReal)).nRows,
      ¬(Forest.columnAndRoot : Forest ExtendedReal).SqrtOfNegative
        ((Matrix.ofFn 1 1 fun _ _ => 4).row r) i := by
    intro i r hneg
    obtain ⟨_, hlt⟩ := Forest.sqrtOfNegative_columnAndRoot.1 hneg
    obtain rfl : r = ⟨0, by decide⟩ := Subsingleton.elim (α := Fin 1) _ _
    have hlt : decide ((1 : ℝ) * 1 * ((4 : ℕ) : ℝ) < 0) = true := hlt
    norm_num at hlt
  obtain ⟨model, hbuild⟩ := exists_build hbuilt.sound (x := .ofFn 1 1 fun _ _ => 4) hx
    ExtendedReal.not_zero_lt_zero hnone hne
  obtain ⟨columns, hcolumns, _, _, hpredict⟩ := predict_of_build hbuilt hfinite hbuild
  exact ⟨model, hbuild, columns, hcolumns, hpredict Unit Unit () ()⟩

end Model

end FeatureGraph
