import FeatureGraph.Proofs.Reachable
import FeatureGraph.Proofs.Value
import FeatureGraph.Model.Lowering

/-!
# Growing a graph

Lowering only ever adds nodes at the end of a graph.  `Graph.Grows` says so: the nodes
that were there keep their values.  `Graph.Adds` says of an operation that it succeeds, that
the graph grows, and which value the node has that it answers.

* `Adds.bind` puts two additions together.
* `adds_addNode`, `adds_addWith` and `Adds.setConstant` are the operations that lowering
  is made of.
-/

namespace FeatureGraph

/-- A primitive that is not tied to the data has its scalar operation for value. -/
theorem Primitive.value_eq_scalar {α : Type} [Arith α] {op : Primitive}
    (hop : Graph.isReserved op = false) (s : Sample α) (ps args : List α) :
    op.value s ps args = op.scalar ps args := by
  cases op with
  | input column | output | target | objective => simp [Graph.isReserved] at hop
  | _ => rfl

namespace Graph

variable {α : Type} [Arith α] {g g' g'' : Graph α}

/-- A graph in which every node is active and none is dropped, and whose inputs read the
columns before the next one. -/
structure Intact (g : Graph α) : Prop where
  sound : g.Sound
  active : ∀ id < g.size, g.table.active[id]? = some true
  kept : ∀ id < g.size, g.table.dropped[id]? = some false
  inputs : ∀ (id : NodeId) (column : Nat), g.table.ops[id]? = some (.input column) →
    column < g.nextColumn

/-- The second graph is the first one with nodes added at the end, `k` inputs among them. -/
structure Grows (k : Nat) (g g' : Graph α) : Prop where
  intact : g'.Intact
  size : g.size ≤ g'.size
  agree : NodeTable.Agree g.size g.table g'.table
  nextColumn : g'.nextColumn = g.nextColumn + k

omit [Arith α] in
theorem intact_empty : (Graph.empty : Graph α).Intact where
  sound := sound_empty
  active := by simp [size, NodeTable.size, empty]
  kept := by simp [size, NodeTable.size, empty]
  inputs := by simp [empty]

namespace Grows

variable {k : Nat}

theorem valueAt (h : Grows k g g') (s : Sample α) {id : NodeId} (hid : id < g.size) :
    g'.table.valueAt s id = g.table.valueAt s id :=
  h.agree.valueAt s hid

omit [Arith α] in
theorem trans (h : Grows k g g') (h' : Grows 0 g' g'') : Grows k g g'' where
  intact := h'.intact
  size := Nat.le_trans h.size h'.size
  agree := h.agree.trans h'.agree h.size
  nextColumn := h'.nextColumn.trans h.nextColumn

end Grows

omit [Arith α] in
/-- The last nodes may get other parameters, and any node another constant flag. -/
theorem Grows.withTable {k : Nat} (h : Grows k g g') {t : NodeTable α} (ht : t.Sound)
    (hshape : NodeTable.SameShape g'.table t) (hops : t.ops = g'.table.ops)
    (hdropped : t.dropped = g'.table.dropped)
    (hparams : ∀ i < g.size, t.params[i]? = g'.table.params[i]?) :
    Grows k g { g' with table := t } where
  intact := {
    sound := h.intact.sound.of_sameShape ht hshape
    active := by
      intro id hid
      rw [hshape.active]
      exact h.intact.active id (Nat.lt_of_lt_of_eq hid hshape.size)
    kept := by
      intro id hid
      rw [hdropped]
      exact h.intact.kept id (Nat.lt_of_lt_of_eq hid hshape.size)
    inputs := by
      rw [hops]
      exact h.intact.inputs }
  size := Nat.le_trans h.size (Nat.le_of_eq hshape.size.symm)
  agree := {
    ops := fun i hi => hops ▸ h.agree.ops i hi
    parents := fun i hi => by
      rw [NodeTable.parentList, hshape.parentSpans, ← h.agree.parents i hi, NodeTable.parentList]
      unfold NodeTable.stretch
      rw [hshape.parentIds]
    params := fun i hi => (hparams i hi).trans (h.agree.params i hi)
    dropped := fun i hi => hdropped ▸ h.agree.dropped i hi }
  nextColumn := h.nextColumn

/-! ## One node -/

/-- Appending a node makes an intact graph grow.  An input has to read one of the columns
before the next one. -/
theorem Intact.grows_push (hg : g.Intact) {k : Nat} {op : Primitive} {ps : List NodeId}
    (name : String) (hps : ∀ p ∈ ps, p < g.size) (hadmits : op.admits ps.length = true)
    (hinput : ∀ column, op = .input column → column < g.nextColumn + k) :
    Grows k g { (g.push op ps name).2 with nextColumn := g.nextColumn + k } where
  intact := {
    sound := .of_table (hg.sound.table.addNode name hps hadmits) rfl
    active := by
      intro id hid
      have hsize := hg.sound.table.active
      simp only [push_table, NodeTable.addNode, Array.getElem?_push, hsize]
      split
      · rfl
      · rename_i hne
        refine hg.active id ?_
        simp only [size, push_table, NodeTable.size_addNode] at hid
        exact Nat.lt_of_le_of_ne (Nat.le_of_lt_succ hid) hne
    kept := by
      intro id hid
      have hsize := hg.sound.table.dropped
      simp only [push_table, NodeTable.addNode, Array.getElem?_push, hsize]
      split
      · rfl
      · rename_i hne
        refine hg.kept id ?_
        simp only [size, push_table, NodeTable.size_addNode] at hid
        exact Nat.lt_of_le_of_ne (Nat.le_of_lt_succ hid) hne
    inputs := by
      intro id column hid
      simp only [push_table, NodeTable.addNode, Array.getElem?_push] at hid
      split at hid
      · exact hinput column (Option.some.inj hid)
      · exact Nat.lt_add_right k (hg.inputs id column hid) }
  size := by simp [size]
  agree := hg.sound.table.agree_addNode op ps name
  nextColumn := rfl

/-- The value of a node that has just been appended. -/
theorem Grows.valueAt_last {k : Nat} (h : Grows k g g') {op : Primitive} {ps : List NodeId}
    {params : List α} (hnode : g'.table.Holds g.size op ps params) (hps : ∀ p ∈ ps, p < g.size)
    (s : Sample α) :
    g'.table.valueAt s g.size = op.value s params (ps.map (g.table.valueAt s)) := by
  rw [hnode.valueAt h.intact.sound.table]
  have hvalues : ps.map (g'.table.valueAt s) = ps.map (g.table.valueAt s) :=
    List.map_congr_left fun p hp => h.valueAt s (hps p hp)
  rw [hvalues]

/-! ## Additions -/

/-- The operation succeeds: it makes the graph grow, and answers a new node with the given
value. -/
def Adds (k : Nat) (g : Graph α) (outcome : Outcome GraphError (NodeId × Graph α))
    (value : Sample α → α) : Prop :=
  ∃ node g', outcome = .ok (node, g') ∧ Grows k g g' ∧ g.size ≤ node ∧ node < g'.size ∧
    ∀ s, g'.table.valueAt s node = value s

theorem Adds.congr {k : Nat} {a : Outcome GraphError (NodeId × Graph α)} {v w : Sample α → α}
    (ha : Adds k g a v) (h : ∀ s, v s = w s) : Adds k g a w :=
  (funext h : v = w) ▸ ha

/-- One addition after another. -/
theorem Adds.bind {k : Nat} {a : Outcome GraphError (NodeId × Graph α)} {v w : Sample α → α}
    {f : NodeId × Graph α → Outcome GraphError (NodeId × Graph α)} (ha : Adds k g a v)
    (hf : ∀ node g', Grows k g g' → g.size ≤ node → node < g'.size →
      (∀ s, g'.table.valueAt s node = v s) → Adds 0 g' (f (node, g')) w) :
    Adds k g (a >>= f) w := by
  obtain ⟨node, g', rfl, hgrows, hnew, hlt, hvalue⟩ := ha
  obtain ⟨node', g'', hrun, hgrows', hnew', hlt', hvalue'⟩ := hf node g' hgrows hnew hlt hvalue
  exact ⟨node', g'', hrun, hgrows.trans hgrows', Nat.le_trans hgrows.size hnew', hlt', hvalue'⟩

/-- What `addNode` leaves behind: a graph that has grown by one node. -/
theorem Intact.exists_addNode (hg : g.Intact) {op : Primitive} {ps : List NodeId} (name : String)
    (hop : isReserved op = false) (hps : ∀ p ∈ ps, p < g.size)
    (hadmits : op.admits ps.length = true) :
    ∃ g', g.addNode op ps name = .ok (g.size, g') ∧ Grows 0 g g' ∧ g.size < g'.size ∧
      g'.table.Holds g.size op ps (op.defaultParams ps.length) := by
  have hinput : ∀ column, op = .input column → column < g.nextColumn + 0 := by
    rintro column rfl
    simp [isReserved] at hop
  exact ⟨(g.push op ps name).2, addNode_eq_ok.2 ⟨hop, hps, hadmits, rfl⟩,
    hg.grows_push name hps hadmits hinput, by simp [size], hg.sound.table.holds_addNode op ps name⟩

theorem adds_addNode (hg : g.Intact) {op : Primitive} (ps : List NodeId) (name : String)
    (hop : isReserved op = false) (hps : ∀ p ∈ ps, p < g.size)
    (hadmits : op.admits ps.length = true) :
    Adds 0 g (g.addNode op ps name) fun s =>
      op.scalar (op.defaultParams ps.length) (ps.map (g.table.valueAt s)) := by
  obtain ⟨g', hrun, hgrows, hsize, hnode⟩ := hg.exists_addNode name hop hps hadmits
  refine ⟨g.size, g', hrun, hgrows, Nat.le_refl _, hsize, fun s => ?_⟩
  rw [hgrows.valueAt_last hnode hps, Primitive.value_eq_scalar hop]

theorem adds_appendInput (hg : g.Intact) (name : String) :
    Adds 1 g (.ok (g.appendInput name)) fun s => s.raw.getD g.nextColumn 0 := by
  have hcolumn : ∀ column, Primitive.input g.nextColumn = .input column →
      column < g.nextColumn + 1 := by
    intro column h
    have hcolumn := Primitive.input.inj h
    omega
  have hgrows : Grows 1 g (g.appendInput name).2 := hg.grows_push name (by simp) rfl hcolumn
  have hsize : g.size < (g.appendInput name).2.size := by simp [size, appendInput]
  refine ⟨g.size, (g.appendInput name).2, rfl, hgrows, Nat.le_refl _, hsize, fun s => ?_⟩
  exact hgrows.valueAt_last (hg.sound.table.holds_addNode _ [] name) (by simp) s

/-- Adding a node with parameters of its own. -/
theorem adds_addWith (hg : g.Intact) {op : Primitive} {ps : List NodeId} (name : String)
    {params : List α} (hop : isReserved op = false) (hps : ∀ p ∈ ps, p < g.size)
    (hadmits : op.admits ps.length = true) (hcount : params.length = op.paramCount ps.length) :
    Adds 0 g (Lowering.addWith g op ps name params) fun s =>
      op.scalar params (ps.map (g.table.valueAt s)) := by
  obtain ⟨g', hrun, hgrows, hsize, hnode⟩ := hg.exists_addNode name hop hps hadmits
  have htable := hgrows.intact.sound.table
  have hset : g'.setParams g.size params = .ok (g'.replaceParams g.size params) :=
    (setParams_eq_ok htable).2 ⟨⟨op, hnode.op, by rw [hnode.parents, hcount]⟩, rfl⟩
  have hsound : (g'.replaceParams g.size params).table.Sound := by
    refine htable.setParams g.size fun old hold => ?_
    rw [hnode.params, Option.some.injEq] at hold
    rw [← hold, hcount, Primitive.length_defaultParams]
  have hgrows' : Grows 0 g (g'.replaceParams g.size params) :=
    hgrows.withTable hsound ⟨rfl, rfl, rfl, rfl, rfl⟩ rfl rfl
      (g'.table.agree_setParams g.size params).params
  refine ⟨g.size, g'.replaceParams g.size params, ?_, hgrows', Nat.le_refl _, hsize,
    fun s => ?_⟩
  · rw [Lowering.addWith, hrun, Outcome.ok_bind]
    simp only [hset, Outcome.ok_bind, Outcome.pure_eq_ok]
  · rw [hgrows'.valueAt_last (hnode.setParams params) hps, Primitive.value_eq_scalar hop]

/-- Protecting the new node from training changes no value. -/
theorem Adds.setConstant {k : Nat} {a : Outcome GraphError (NodeId × Graph α)}
    {v : Sample α → α} (ha : Adds k g a v) :
    Adds k g (a >>= fun p => p.2.setConstant p.1 true >>= fun g => pure (p.1, g)) v := by
  obtain ⟨node, g', rfl, hgrows, hnew, hlt, hvalue⟩ := ha
  have htable := hgrows.intact.sound.table
  have hset : g'.setConstant node true = .ok (g'.replaceConstant node true) :=
    (setConstant_eq_ok htable).2 ⟨hlt, rfl⟩
  have hgrows' : Grows k g (g'.replaceConstant node true) :=
    hgrows.withTable (htable.withConstant (by simp)) ⟨rfl, rfl, rfl, rfl, rfl⟩ rfl rfl
      fun _ _ => rfl
  have hagree : NodeTable.Agree g'.size g'.table (g'.replaceConstant node true).table :=
    ⟨fun _ _ => rfl, fun _ _ => rfl, fun _ _ => rfl, fun _ _ => rfl⟩
  refine ⟨node, g'.replaceConstant node true, ?_, hgrows', hnew, hlt, fun s => ?_⟩
  · rw [Outcome.ok_bind, hset, Outcome.ok_bind, Outcome.pure_eq_ok]
  · rw [hagree.valueAt s hlt, hvalue s]

end Graph

end FeatureGraph
