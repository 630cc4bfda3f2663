import FeatureGraph.Proofs.Reachable
import FeatureGraph.Proofs.Value
import FeatureGraph.Arith.Double

/-!
# The forward pass

The forward pass computes the values of the nodes: the slot of an active node holds
the column of its values, one for each row.

* `stepColumn_eq` is one instruction, `forwardStep_eq` one step of the pass, and
  `forward_eq_ok_iff` the whole pass: exactly when it succeeds, and what it leaves.
* `runForward_eq_ok_iff` and `vals?_evaluate` say the same of a graph.
* `evaluate_computes_values` is the statement about graphs that actions lead to.
-/

namespace FeatureGraph

variable {ε α : Type}

/-- A slot that holds a column of the right length is read without a failure. -/
theorem Slots.get_eq {s : Slots α} {i : Nat} {f : Fin s.nRows → α}
    (h : s.columns[i]? = some (List.ofFn f)) :
    (s.get i : Outcome ε (List α)) = .ok (List.ofFn f) := by
  unfold Slots.get
  split
  · rename_i hrows
    rw [List.ofFn_congr hrows, List.ofFn_zero]
  · rw [Outcome.fetch_eq_ok, h]

variable [Arith α] {t : NodeTable α} {x : Matrix α} {y : Option (List α)}

namespace NodeTable

/-- The column of a node: its value in every row. -/
def columnAt (t : NodeTable α) (x : Matrix α) (y : Option (List α)) (id : NodeId) : List α :=
  List.ofFn fun r => t.valueAt (x.sample y r) id

/-- The slots when the first `k` active nodes have been computed. -/
def computed (t : NodeTable α) (x : Matrix α) (y : Option (List α)) (k : Nat) : Slots α where
  nRows := x.nRows
  columns := ((t.activeIds.take k).map (t.columnAt x y)).toArray

/-- What a pass asks of the data: one target for each row, and a column for each active
input. -/
structure Accepts (t : NodeTable α) (x : Matrix α) (y : Option (List α)) : Prop where
  target : ∀ ys, y = some ys → ys.length = x.nRows
  inputs : ∀ id ∈ t.activeIds, ∀ column, t.ops[id]? = some (.input column) → column < x.nCols

omit [Arith α] in
/-- The check before a pass finds out whether the table accepts the data. -/
theorem checkData_eq_ok_iff (ht : t.Sound) :
    Tape.checkData t t.straightTape x y = .ok () ↔ t.Accepts x y := by
  have htarget : Tape.checkTarget x y = .ok () ↔ ∀ ys, y = some ys → ys.length = x.nRows := by
    cases y with
    | none => simp [Tape.checkTarget]
    | some ys =>
      by_cases hlength : ys.length = x.nRows
      · simp [Tape.checkTarget, hlength]
      · simp [Tape.checkTarget, hlength, Outcome.fail]
  have hinput : ∀ id ∈ t.activeIds, ∀ sources,
      Tape.checkInput t x ⟨id, sources⟩ = .ok () ↔
        ∀ column, t.ops[id]? = some (.input column) → column < x.nCols := by
    intro id hid sources
    have hlt := lt_size_of_mem_activeIds hid
    obtain ⟨label, hlabel⟩ := ht.labels_getElem? hlt
    have hop := ht.ops_getElem? hlt
    rw [Tape.checkInput, Outcome.fetch_eq_ok.2 hop, Outcome.ok_bind, hop]
    cases t.ops[id] with
    | input column =>
      by_cases hcolumn : x.nCols ≤ column
      · simp [hcolumn, Outcome.fetch_eq_ok.2 hlabel, Outcome.fail]
      · simp [hcolumn]
        omega
    | _ => simp
  rw [Tape.checkData, Outcome.check_bind_eq_ok, htarget, Outcome.forM_eq_ok_iff, straightTape]
  simp only [List.forall_mem_map]
  constructor
  · rintro ⟨hrows, hcolumns⟩
    exact ⟨hrows, fun id hid => (hinput id hid _).1 (hcolumns id hid)⟩
  · rintro ⟨hrows, hcolumns⟩
    exact ⟨hrows, fun id hid => (hinput id hid _).2 (hcolumns id hid)⟩

/-! ## One instruction -/

/-- An instruction computes the values of its node, if the slots that it reads hold the
columns of its parents. -/
theorem stepColumn_eq {node : NodeId} {op : Primitive} {ps : List α} {sources : List Nat}
    {done : Slots α} (vs : List (Fin x.nRows → α)) (hop : t.ops[node]? = some op)
    (hps : t.params[node]? = some ps) (hadmits : op.admits vs.length = true)
    (hcount : ps.length = op.paramCount vs.length)
    (htarget : ∀ ys, y = some ys → ys.length = x.nRows)
    (hinput : ∀ column, op = .input column → column < x.nCols)
    (hsources : sources.mapM done.get =
      (.ok (vs.map List.ofFn) : Outcome GraphError (List (List α)))) :
    Tape.stepColumn t x y done ⟨node, sources⟩ =
      .ok (List.ofFn fun r => op.value (x.sample y r) ps (vs.map (· r))) := by
  have hforward : op.forward ps (vs.map List.ofFn) x.nRows =
      (.ok (List.ofFn fun r => op.scalar ps (vs.map (· r))) : Outcome GraphError (List α)) :=
    Primitive.forward_ofFn hadmits hcount
  rw [Tape.stepColumn, Outcome.fetch_eq_ok.2 hop, Outcome.ok_bind]
  cases op with
  | input column =>
    have hcolumn := hinput column rfl
    simp [Matrix.column?, hcolumn, Outcome.ofOption, Primitive.value, Matrix.sample, Matrix.row]
  | target =>
    cases y with
    | none => simp [Primitive.value, Matrix.sample, Column.zeros]
    | some ys =>
      have hlength := htarget ys rfl
      have hcopy : Column.overwrite id (Column.zeros x.nRows) ys = ys := by
        rw [Column.overwrite_eq_map _ (by simp [hlength]), List.map_id]
      simp only [hcopy, Outcome.pure_eq_ok, Except.ok.injEq]
      refine List.ext_getElem (by simp [hlength]) fun r hr _ => ?_
      simp [Primitive.value, Matrix.sample, hr]
  | objective =>
    cases y with
    | none => simp [Primitive.value, Matrix.sample, Column.zeros]
    | some ys =>
      have hvalue : ∀ r, Primitive.objective.value (x.sample (some ys) r) ps (vs.map (· r)) =
          Primitive.objective.scalar ps (vs.map (· r)) := by
        intro r
        obtain ⟨v, hv⟩ := Matrix.exists_target_sample (htarget ys rfl) r
        exact Primitive.value_objective hv ps _
      simp only [hsources, Outcome.fetch_eq_ok.2 hps, Outcome.ok_bind, hforward, hvalue]
  | _ =>
    simp only [hsources, Outcome.fetch_eq_ok.2 hps, Outcome.ok_bind, hforward]
    simp [Primitive.value]

/-! ## The run -/

/-- A node that has been computed stands in its slot. -/
theorem getElem?_computed {k : Nat} {p : NodeId} (hp : p ∈ t.activeIds)
    (hk : t.activeIds.idxOf p < k) :
    (t.computed x y k).columns[t.activeIds.idxOf p]? = some (t.columnAt x y p) := by
  simp [computed, hk, List.getElem?_idxOf hp]

theorem get_computed {k : Nat} {p : NodeId} (hp : p ∈ t.activeIds)
    (hk : t.activeIds.idxOf p < k) :
    ((t.computed x y k).get (t.activeIds.idxOf p) : Outcome ε (List α)) =
      .ok (t.columnAt x y p) :=
  Slots.get_eq (getElem?_computed hp hk)

/-- The column in a slot, once all nodes have been computed. -/
theorem get_computed_length {i : Nat} (hi : i < t.activeIds.length) :
    ((t.computed x y t.activeIds.length).get i : Outcome ε (List α)) =
      .ok (t.columnAt x y t.activeIds[i]) := by
  have hidx := t.nodup_activeIds.idxOf_getElem i hi
  have hlt : t.activeIds.idxOf t.activeIds[i] < t.activeIds.length := by rwa [hidx]
  have hget : ((t.computed x y t.activeIds.length).get (t.activeIds.idxOf t.activeIds[i]) :
      Outcome ε (List α)) = .ok (t.columnAt x y t.activeIds[i]) :=
    get_computed (List.getElem_mem hi) hlt
  rwa [hidx] at hget

/-- The parents of an active node have been computed when its turn comes. -/
theorem mapM_get_computed (ht : t.Sound) (hclosed : t.Closed) {k m : Nat}
    (hk : k < t.activeIds.length) (hm : k ≤ m) :
    ((t.parentList t.activeIds[k]).map t.activeIds.idxOf).mapM (t.computed x y m).get =
      (.ok ((t.parentList t.activeIds[k]).map (t.columnAt x y)) :
        Outcome ε (List (List α))) := by
  rw [List.mapM_map]
  refine Outcome.mapM_ok fun p hp => ?_
  have hactive := hclosed _ (List.getElem_mem hk) p hp
  exact get_computed hactive (Nat.lt_of_lt_of_le (hclosed.idxOf_lt ht hk hp) hm)

/-- Computing the next active node, once the nodes before it have been computed. -/
theorem forwardStep_eq (ht : t.Sound) (hclosed : t.Closed) (hdata : t.Accepts x y) {k : Nat}
    (hk : k < t.activeIds.length) :
    Tape.forwardStep t x y (t.computed x y k)
        ⟨t.activeIds[k], (t.parentList t.activeIds[k]).map t.activeIds.idxOf⟩ =
      .ok (t.computed x y (k + 1)) := by
  have hmem : t.activeIds[k] ∈ t.activeIds := List.getElem_mem hk
  have hlt := lt_size_of_mem_activeIds hmem
  have hsources : ((t.parentList t.activeIds[k]).map t.activeIds.idxOf).mapM
      (t.computed x y k).get = (.ok ((t.parentList t.activeIds[k]).map (t.columnAt x y)) :
        Outcome GraphError (List (List α))) :=
    mapM_get_computed ht hclosed hk (Nat.le_refl k)
  have hnext : t.activeIds.take (k + 1) = t.activeIds.take k ++ [t.activeIds[k]] :=
    List.take_succ_eq_append_getElem hk
  set node := t.activeIds[k]
  have hop := ht.ops_getElem? hlt
  obtain ⟨ps, hps⟩ := ht.params_getElem? hlt
  obtain ⟨dropped, hdropped⟩ := ht.dropped_getElem? hlt
  have hvalue : t.columnAt x y node =
      if dropped then Column.zeros x.nRows
      else List.ofFn fun r => t.ops[node].value (x.sample y r) ps
        ((t.parentList node).map (t.valueAt (x.sample y r))) := by
    simp only [columnAt, ht.valueAt_eq _ hop hps hdropped]
    cases dropped with
    | true => simp [Column.zeros_eq_ofFn]
    | false => simp
  have hcolumns : (t.parentList node).map (t.columnAt x y) =
      ((t.parentList node).map fun p r => t.valueAt (x.sample y r) p).map List.ofFn := by
    simp [columnAt, Function.comp_def]
  have hadmits := ht.arity node _ hop
  have hcount := ht.paramCount node _ ps hop hps
  have hcolumn := stepColumn_eq ((t.parentList node).map fun p r => t.valueAt (x.sample y r) p)
    hop hps (by simpa using hadmits) (by simpa using hcount) hdata.target
    (fun column h => hdata.inputs node hmem column (h ▸ hop)) (hcolumns ▸ hsources)
  rw [Tape.forwardStep, hcolumn, Outcome.ok_bind, Outcome.fetch_eq_ok.2 hdropped, Outcome.ok_bind,
    Outcome.pure_eq_ok, Except.ok.injEq]
  simp only [computed, hnext, List.map_append, List.map_cons, List.map_nil, hvalue, List.map_map,
    Function.comp_def]
  simp

/-- The pass succeeds exactly if the table accepts the data, and then every active node
has been computed. -/
theorem forward_eq_ok_iff (ht : t.Sound) (hclosed : t.Closed) {values : Slots α} :
    t.straightTape.forward t x y = .ok values ↔
      t.Accepts x y ∧ values = t.computed x y t.activeIds.length := by
  rw [Tape.forward, Outcome.check_bind_eq_ok, checkData_eq_ok_iff ht]
  refine and_congr_right fun hdata => ?_
  have hrun : t.straightTape.steps.foldlM (Tape.forwardStep t x y) (t.computed x y 0) =
      .ok (t.computed x y t.straightTape.steps.length) := by
    refine Outcome.foldlM_eq_ok (t.computed x y) fun k hk => ?_
    simp only [straightTape, List.getElem_map]
    exact forwardStep_eq ht hclosed hdata (by simpa [straightTape] using hk)
  have hlength : t.straightTape.steps.length = t.activeIds.length := size_straightTape t
  change t.straightTape.steps.foldlM (Tape.forwardStep t x y) (t.computed x y 0) = _ ↔ _
  rw [hrun, hlength, Outcome.ok_eq_iff]

end NodeTable

/-! ## Graphs -/

namespace Graph

variable {g : Graph α}

/-- A pass over a graph succeeds exactly if its table compiles and accepts the data. -/
theorem runForward_eq_ok_iff (hg : g.Sound) {p : Tape × Slots α} :
    g.runForward x y = .ok p ↔
      g.table.Closed ∧ g.table.Accepts x y ∧
        p = (g.table.straightTape, g.table.computed x y g.table.activeIds.length) := by
  rw [runForward, hg.currentTape_eq, Outcome.bind_eq_ok]
  constructor
  · rintro ⟨tape, htape, h⟩
    obtain ⟨hclosed, rfl⟩ := (NodeTable.compile_eq_ok_iff hg.table).1 htape
    obtain ⟨values, hvalues, h⟩ := Outcome.bind_eq_ok.1 h
    obtain ⟨hdata, rfl⟩ := (NodeTable.forward_eq_ok_iff hg.table hclosed).1 hvalues
    exact ⟨hclosed, hdata, Outcome.ok_eq_iff.1 h⟩
  · rintro ⟨hclosed, hdata, rfl⟩
    refine ⟨_, (NodeTable.compile_eq_ok_iff hg.table).2 ⟨hclosed, rfl⟩, ?_⟩
    rw [(NodeTable.forward_eq_ok_iff hg.table hclosed).2 ⟨hdata, rfl⟩, Outcome.ok_bind,
      Outcome.pure_eq_ok]

theorem evaluate_eq_ok_iff (hg : g.Sound) :
    (g.evaluate x y).1 = .ok () ↔ g.table.Closed ∧ g.table.Accepts x y := by
  simp only [evaluate, Outcome.map_eq_ok, runForward_eq_ok_iff hg]
  constructor
  · rintro ⟨_, ⟨hclosed, hdata, _⟩, _⟩
    exact ⟨hclosed, hdata⟩
  · rintro ⟨hclosed, hdata⟩
    exact ⟨_, ⟨hclosed, hdata, rfl⟩, trivial⟩

/-- The graph after a successful evaluation. -/
theorem evaluate_snd (hg : g.Sound) (hpass : (g.evaluate x y).1 = .ok ()) :
    (g.evaluate x y).2 = { g with
      tape := some g.table.straightTape
      values := g.table.computed x y g.table.activeIds.length } := by
  obtain ⟨hclosed, hdata⟩ := (evaluate_eq_ok_iff hg).1 hpass
  rw [evaluate, (runForward_eq_ok_iff hg).2 ⟨hclosed, hdata, rfl⟩]
  rfl

omit [Arith α] in
theorem isActive_iff_mem_activeIds (hg : g.Sound) {id : NodeId} :
    g.isActive id = true ↔ id ∈ g.table.activeIds :=
  (NodeTable.mem_activeIds hg.table).symm

/-- After an evaluation an active node has the column of its values, and a bypassed one
has none. -/
theorem vals?_evaluate (hg : g.Sound) (hpass : (g.evaluate x y).1 = .ok ()) (id : NodeId) :
    (g.evaluate x y).2.vals? id =
      if g.isActive id then some (g.table.columnAt x y id) else none := by
  rw [evaluate_snd hg hpass]
  simp only [vals?, Option.bind_eq_bind, Option.bind_some, NodeTable.slotOf?_straightTape]
  by_cases hid : id ∈ g.table.activeIds
  · rw [if_pos hid, if_pos ((isActive_iff_mem_activeIds hg).2 hid), Option.bind_some]
    exact NodeTable.getElem?_computed hid (List.idxOf_lt_length_iff.2 hid)
  · rw [if_neg hid, if_neg fun h => hid ((isActive_iff_mem_activeIds hg).1 h), Option.bind_none]

/-- A successful evaluation of a graph that actions lead to computes the values of its
active nodes: one entry for each row, which depends on nothing but that row of the data.
The values obey the recursion on parents, and a bypassed node has no column. -/
theorem evaluate_computes_values (hg : g.Reachable) (hpass : (g.evaluate x y).1 = .ok ()) :
    (∀ s id (op : Primitive) ps dropped, g.table.ops[id]? = some op →
      g.table.params[id]? = some ps → g.table.dropped[id]? = some dropped →
      g.table.valueAt s id =
        if dropped then 0
        else op.value s ps ((g.table.parentList id).map (g.table.valueAt s))) ∧
    (∀ id, g.isActive id = true →
      (g.evaluate x y).2.vals? id =
        some (List.ofFn fun r => g.table.valueAt (x.sample y r) id)) ∧
    (∀ id, g.isActive id = false → (g.evaluate x y).2.vals? id = none) ∧
    ∀ (x' : Matrix α) (y' : Option (List α)), (g.evaluate x' y').1 = .ok () →
      ∀ (r : Fin x.nRows) (r' : Fin x'.nRows), x'.sample y' r' = x.sample y r →
      ∀ id, ((g.evaluate x' y').2.vals? id).bind (·[r'.val]?) =
        ((g.evaluate x y).2.vals? id).bind (·[r.val]?) := by
  have hsound := hg.sound
  refine ⟨fun s id op ps dropped hop hps hdropped =>
    hsound.table.valueAt_eq s hop hps hdropped, ?_, ?_, ?_⟩
  · intro id hid
    rw [vals?_evaluate hsound hpass, if_pos hid]
    rfl
  · intro id hid
    rw [vals?_evaluate hsound hpass, hid]
    rfl
  · intro x' y' hpass' r r' hrow id
    rw [vals?_evaluate hsound hpass, vals?_evaluate hsound hpass']
    split
    · simp [NodeTable.columnAt, hrow]
    · rfl

/-- The line through two rows of doubles, evaluated without a target. -/
theorem evaluate_computes_values_lineFit :
    ((lineFit : Graph Float).evaluate (.ofFn 2 1 fun _ _ => 3) none).1 = .ok () ∧
    ((lineFit : Graph Float).evaluate (.ofFn 2 1 fun _ _ => 3) none).2.vals? 1 =
      some (List.ofFn fun r => (lineFit : Graph Float).table.valueAt
        ((Matrix.ofFn 2 1 fun _ _ => 3).sample none r) 1) := by
  have hpass : ((lineFit : Graph Float).evaluate (.ofFn 2 1 fun _ _ => 3) none).1 = .ok () := by
    rfl
  exact ⟨hpass, (evaluate_computes_values reachable_lineFit hpass).2.1 1 rfl⟩

end Graph

end FeatureGraph
