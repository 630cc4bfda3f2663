import FeatureGraph.Proofs.Tape
import FeatureGraph.Graph.Basic

/-!
# What an operation does to a graph

For each operation that can fail: exactly when it succeeds, and the graph that it then
answers.  All other proofs read the operations off these lemmas.

`Graph.Sound` is the invariant of graphs: the table is sound, and a cached tape is the
one that the table compiles to.
-/

namespace FeatureGraph.Graph

variable {α : Type}

/-- The invariant of graphs: the table is sound, and the tape is not stale. -/
structure Sound (g : Graph α) : Prop where
  table : g.table.Sound
  tape : ∀ tape, g.tape = some tape → g.table.compile = .ok tape

theorem sound_empty : (Graph.empty : Graph α).Sound where
  table := NodeTable.sound_empty
  tape := by simp [Graph.empty]

/-- The tape, if there is one, is not stale. -/
def Compiled (g : Graph α) : Prop := ∀ tape, g.tape = some tape → g.table.compile = .ok tape

/-- Parameters, constants and drop flags do not make a tape stale. -/
theorem Compiled.of_sameShape {g : Graph α} (hg : g.Compiled) {t : NodeTable α}
    (hshape : NodeTable.SameShape g.table t) : ({ g with table := t } : Graph α).Compiled :=
  fun tape htape => hshape.compile.trans (hg tape htape)

/-- The tape of a pass is the one that the table compiles to. -/
theorem Compiled.currentTape_eq {g : Graph α} (hg : g.Compiled) :
    g.currentTape = g.table.compile := by
  unfold Graph.currentTape
  split
  · rename_i cached hcached
    exact (hg cached hcached).symm
  · rfl

namespace Sound

theorem compiled {g : Graph α} (hg : g.Sound) : g.Compiled := hg.tape

/-- A graph without a tape needs a sound table only. -/
theorem of_table {g : Graph α} (htable : g.table.Sound) (htape : g.tape = none) : g.Sound :=
  ⟨htable, by simp [htape]⟩

theorem of_sameShape {g : Graph α} (hg : g.Sound) {t : NodeTable α} (ht : t.Sound)
    (hshape : NodeTable.SameShape g.table t) : ({ g with table := t } : Graph α).Sound :=
  ⟨ht, hg.compiled.of_sameShape hshape⟩

end Sound

/-- The graph with other parameters of one node. -/
def replaceParams (g : Graph α) (id : NodeId) (ps : List α) : Graph α :=
  { g with table := { g.table with params := g.table.params.setIfInBounds id ps } }

/-- The graph with another constant flag of one node. -/
def replaceConstant (g : Graph α) (id : NodeId) (value : Bool) : Graph α :=
  { g with table := { g.table with constant := g.table.constant.setIfInBounds id value } }

/-- The graph with another drop flag of one node. -/
def replaceDropped (g : Graph α) (id : NodeId) (value : Bool) : Graph α :=
  { g with table := { g.table with dropped := g.table.dropped.setIfInBounds id value } }

variable {g g' : Graph α} {id : NodeId} {name : String} {ps : List NodeId}

/-! ## Checks -/

theorem checkNode_eq_ok : g.checkNode id = .ok () ↔ id < g.size := by
  unfold checkNode NodeTable.contains size
  by_cases hid : id < g.table.size
  · simp [hid]
  · simp [hid, Outcome.fail]

theorem op_eq_ok {op : Primitive} : g.op id = .ok op ↔ g.table.ops[id]? = some op := by
  rw [Graph.op, Outcome.check_bind_eq_ok, checkNode_eq_ok, Outcome.fetch_eq_ok]
  exact and_iff_right_of_imp fun h => (Array.getElem?_eq_some_iff.1 h).1

theorem checkParents_eq_ok {op : Primitive} :
    g.checkParents op ps name = .ok () ↔
      (∀ p ∈ ps, p < g.size) ∧ op.admits ps.length = true := by
  rw [checkParents, Outcome.check_bind_eq_ok, Outcome.forM_eq_ok_iff]
  simp only [checkNode_eq_ok]
  by_cases hop : op.admits ps.length = true
  · simp [hop]
  · simp [hop, Outcome.fail]

/-! ## Adding nodes -/

section Adding

variable [Arith α] {p : NodeId × Graph α}

@[simp] theorem push_fst (g : Graph α) (op : Primitive) (ps : List NodeId) (name : String) :
    (g.push op ps name).1 = g.size :=
  rfl

@[simp] theorem push_table (g : Graph α) (op : Primitive) (ps : List NodeId) (name : String) :
    (g.push op ps name).2.table = (g.table.addNode op ps name).2 :=
  rfl

/-- A graph whose table has a node more has a node more. -/
theorem size_of_table {op : Primitive} (htable : g'.table = (g.table.addNode op ps name).2) :
    g'.size = g.size + 1 := by
  unfold size
  rw [htable, NodeTable.size_addNode]

theorem addInput_eq_ok :
    g.addInput name = .ok p ↔ g.nextColumn + 1 < 1 <<< 32 ∧ p = g.appendInput name := by
  unfold addInput
  by_cases hcolumn : g.nextColumn + 1 < 1 <<< 32
  · rw [if_pos hcolumn, Outcome.ok_eq_iff, and_iff_right hcolumn]
  · rw [if_neg hcolumn]
    constructor
    · intro h
      cases h
    · intro h
      exact absurd h.1 hcolumn

theorem addNode_eq_ok {op : Primitive} :
    g.addNode op ps name = .ok p ↔
      isReserved op = false ∧ (∀ q ∈ ps, q < g.size) ∧ op.admits ps.length = true ∧
        p = g.push op ps name := by
  unfold addNode
  split
  · simp [*, Outcome.fail]
  · rename_i hop
    rw [Outcome.check_bind_eq_ok, checkParents_eq_ok, Outcome.pure_eq_ok, Outcome.ok_eq_iff]
    simp [hop, and_assoc]

/-- The graph with one more output. -/
def pushOutput (g : Graph α) (ps : List NodeId) (name : String) : Graph α :=
  { (g.push .output ps name).2 with outputs := g.outputs ++ [g.size] }

theorem addOutput_eq_ok :
    g.addOutput ps name = .ok p ↔
      (∀ q ∈ ps, q < g.size) ∧ ps ≠ [] ∧ p = (g.size, g.pushOutput ps name) := by
  change (g.checkParents .output ps name >>= fun _ => .ok (g.size, g.pushOutput ps name)) = .ok p
    ↔ _
  rw [Outcome.check_bind_eq_ok, checkParents_eq_ok, Outcome.ok_eq_iff]
  simp [Primitive.admits, Primitive.arity?, and_assoc]

/-- The graph with one more objective. -/
def pushObjective (g : Graph α) (output target : NodeId) (name : String) : Graph α :=
  { (g.push .objective [output, target] name).2 with objectives := g.objectives ++ [g.size] }

theorem addObjective_eq_ok {output target : NodeId} :
    g.addObjective output target name = .ok p ↔
      output < g.size ∧ target < g.size ∧ p = (g.size, g.pushObjective output target name) := by
  change (g.checkParents .objective [output, target] name >>= fun _ =>
    .ok (g.size, g.pushObjective output target name)) = .ok p ↔ _
  rw [Outcome.check_bind_eq_ok, checkParents_eq_ok, Outcome.ok_eq_iff]
  simp [Primitive.admits, Primitive.arity?, and_assoc]

end Adding

/-! ## Changing nodes -/

/-- Parameters that have been replaced were as many as the primitive asks for. -/
theorem of_setParams_eq_ok {params : List α} (h : g.setParams id params = .ok g') :
    (∃ op : Primitive, g.table.ops[id]? = some op ∧
      params.length = op.paramCount (g.table.parentList id).length) ∧
      g' = g.replaceParams id params := by
  obtain ⟨_, h⟩ := Outcome.check_bind_eq_ok.1 h
  obtain ⟨op, hop, h⟩ := Outcome.bind_eq_ok.1 h
  obtain ⟨ps, hps, h⟩ := Outcome.bind_eq_ok.1 h
  dsimp only at h
  split at h
  · obtain ⟨label, _, h⟩ := Outcome.bind_eq_ok.1 h
    cases h
  · rename_i hlength
    obtain ⟨column, hcolumn, h⟩ := Outcome.bind_eq_ok.1 h
    rw [Outcome.pure_eq_ok, Outcome.ok_eq_iff] at h
    refine ⟨⟨op, Outcome.fetch_eq_ok.1 hop, ?_⟩, ?_⟩
    · rw [NodeTable.parentList_of_parents_eq_ok hps]
      exact not_not.1 hlength
    · rw [h, (Outcome.store_eq_ok.1 hcolumn).2]
      rfl

/-- An operation that stores in a column of the table, at a node that has to be there. -/
theorem store_at_eq_ok {β : Type} {column : Array β} {b : β} {build : Array β → Graph α} :
    (g.checkNode id >>= fun _ => Outcome.store column id b >>= fun c => pure (build c)) = .ok g' ↔
      id < g.size ∧ id < column.size ∧ g' = build (column.setIfInBounds id b) := by
  rw [Outcome.check_bind_eq_ok, checkNode_eq_ok, Outcome.bind_eq_ok]
  simp only [Outcome.store_eq_ok, Outcome.pure_eq_ok, Outcome.ok_eq_iff]
  constructor
  · rintro ⟨hid, _, ⟨hlt, rfl⟩, rfl⟩
    exact ⟨hid, hlt, rfl⟩
  · rintro ⟨hid, hlt, rfl⟩
    exact ⟨hid, _, ⟨hlt, rfl⟩, rfl⟩

theorem of_setConstant_eq_ok {value : Bool} (h : g.setConstant id value = .ok g') :
    id < g.size ∧ g' = g.replaceConstant id value := by
  obtain ⟨hid, _, hstored⟩ := store_at_eq_ok.1 h
  exact ⟨hid, hstored⟩

theorem of_setDropped_eq_ok {value : Bool} (h : g.setDropped id value = .ok g') :
    id < g.size ∧ g' = g.replaceDropped id value := by
  obtain ⟨hid, _, hstored⟩ := store_at_eq_ok.1 h
  exact ⟨hid, hstored⟩

theorem setParams_eq_ok (hg : g.table.Sound) {params : List α} :
    g.setParams id params = .ok g' ↔
      (∃ op : Primitive, g.table.ops[id]? = some op ∧
        params.length = op.paramCount (g.table.parentList id).length) ∧
      g' = g.replaceParams id params := by
  refine ⟨of_setParams_eq_ok, ?_⟩
  rintro ⟨⟨op, hop, hlength⟩, rfl⟩
  have hid : id < g.size := (Array.getElem?_eq_some_iff.1 hop).1
  have hstore : id < g.table.params.size := hg.params.symm ▸ hid
  have hparents : (g.table.parents id : Outcome GraphError (List NodeId)) =
      .ok (g.table.parentList id) := hg.parents_eq hid
  refine Outcome.check_bind_eq_ok.2 ⟨checkNode_eq_ok.2 hid, ?_⟩
  rw [Outcome.fetch_eq_ok.2 hop, Outcome.ok_bind, hparents, Outcome.ok_bind]
  dsimp only
  rw [if_neg (not_not.2 hlength), Outcome.store_eq_ok.2 ⟨hstore, rfl⟩, Outcome.ok_bind]
  rfl

theorem setConstant_eq_ok (hg : g.table.Sound) {value : Bool} :
    g.setConstant id value = .ok g' ↔ id < g.size ∧ g' = g.replaceConstant id value :=
  ⟨of_setConstant_eq_ok, fun ⟨hid, h⟩ => store_at_eq_ok.2 ⟨hid, hg.constant.symm ▸ hid, h⟩⟩

theorem setDropped_eq_ok (hg : g.table.Sound) {value : Bool} :
    g.setDropped id value = .ok g' ↔ id < g.size ∧ g' = g.replaceDropped id value :=
  ⟨of_setDropped_eq_ok, fun ⟨hid, h⟩ => store_at_eq_ok.2 ⟨hid, hg.dropped.symm ▸ hid, h⟩⟩

/-! ## Activation -/

theorem of_setActive_eq_ok {value : Bool} (h : g.setActive id value = .ok g') :
    id < g.size ∧ g' = g.withActive (g.table.active.setIfInBounds id value) := by
  obtain ⟨hid, _, hstored⟩ := store_at_eq_ok.1 h
  exact ⟨hid, hstored⟩

theorem setActive_eq_ok (hg : g.table.Sound) {value : Bool} :
    g.setActive id value = .ok g' ↔
      id < g.size ∧ g' = g.withActive (g.table.active.setIfInBounds id value) :=
  ⟨of_setActive_eq_ok, fun ⟨hid, h⟩ => store_at_eq_ok.2 ⟨hid, hg.active.symm ▸ hid, h⟩⟩

/-- Activating a branch changes activation flags, and forgets the tape. -/
theorem of_activateBranch_eq_ok {p : Nat × Graph α} (h : g.activateBranch id = .ok p) :
    ∃ column, column.size = g.table.active.size ∧ p.2 = g.withActive column := by
  obtain ⟨_, _, h⟩ := Outcome.bind_eq_ok.1 h
  obtain ⟨branch, _, h⟩ := Outcome.bind_eq_ok.1 h
  obtain ⟨column, hcolumn, h⟩ := Outcome.bind_eq_ok.1 h
  rw [Outcome.pure_eq_ok, Except.ok.injEq] at h
  refine ⟨column, ?_, h ▸ rfl⟩
  refine Outcome.foldlM_keeps (P := fun c : Array Bool => c.size = g.table.active.size)
    hcolumn rfl fun c c' i _ hc hstore => ?_
  rw [(Outcome.store_eq_ok.1 hstore).2, Array.size_setIfInBounds]
  exact hc

theorem bypassInactive_eq_ok {p : Nat × Graph α} :
    g.bypassInactive = .ok p ↔
      ∃ tape, g.table.compile = .ok tape ∧
        p = (tape.size, { g with tape := some tape, values := {} }) := by
  unfold bypassInactive
  rw [Outcome.bind_eq_ok]
  simp only [Outcome.pure_eq_ok, Outcome.ok_eq_iff]

/-! ## Passes -/

section Passes

variable [Arith α] {x : Matrix α}

/-- A forward pass runs the tape of the graph. -/
theorem runForward_eq_ok {y : Option (List α)} {tape : Tape} {values : Slots α} :
    g.runForward x y = .ok (tape, values) ↔
      g.currentTape = .ok tape ∧ tape.forward g.table x y = .ok values := by
  rw [runForward, Outcome.bind_eq_ok]
  constructor
  · rintro ⟨tape', htape, h⟩
    obtain ⟨values', hvalues, h⟩ := Outcome.bind_eq_ok.1 h
    cases h
    exact ⟨htape, hvalues⟩
  · rintro ⟨htape, hvalues⟩
    exact ⟨tape, htape, by rw [hvalues]; rfl⟩

/-- A gradient pass goes forward, and then back from the first objective. -/
theorem gradients_of_head? {objective : NodeId} (h : g.objectives.head? = some objective)
    (x : Matrix α) (y : List α) :
    g.gradients x y =
      (g.runForward x (some y) >>= fun p =>
        (p.1.backward g.table p.2 objective).map (·.params),
      g.afterForward (g.runForward x (some y))) := by
  obtain ⟨rest, hobjectives⟩ := List.head?_eq_some_iff.1 h
  unfold gradients
  rw [hobjectives]
  dsimp only
  refine congrArg (Prod.mk · _) (congrArg _ (funext fun p => ?_))
  cases p.1.backward g.table p.2 objective <;> rfl

/-- Without an objective there is nothing to go back from. -/
theorem gradients_of_head?_none (h : g.objectives.head? = none) (x : Matrix α) (y : List α) :
    g.gradients x y = (Outcome.fail .noObjective, g) := by
  rw [gradients, List.head?_eq_none_iff.1 h]

/-- A gradient pass leaves what its way forward leaves, if there is one. -/
theorem gradients_snd_cases (g : Graph α) (x : Matrix α) (y : List α) :
    (g.gradients x y).2 = g ∨
      (g.gradients x y).2 = g.afterForward (g.runForward x (some y)) := by
  cases hhead : g.objectives.head? with
  | none => exact .inl (congrArg Prod.snd (gradients_of_head?_none hhead x y))
  | some objective => exact .inr (congrArg Prod.snd (gradients_of_head? hhead x y))

/-- A gradient pass that succeeds has gone both ways.  It answers what the way back has collected,
and it leaves the tape and the columns of the way forward. -/
theorem exists_passes_of_gradients_eq_ok {y : List α} {grads : Gradients α}
    (h : (g.gradients x y).1 = .ok grads) :
    ∃ objective tape values adjoint, g.objectives.head? = some objective ∧
      g.runForward x (some y) = .ok (tape, values) ∧
      tape.backward g.table values objective = .ok adjoint ∧ grads = adjoint.params ∧
      (g.gradients x y).2 = { g with tape := some tape, values } := by
  cases hhead : g.objectives.head? with
  | none =>
    rw [gradients_of_head?_none hhead] at h
    cases h
  | some objective =>
    rw [gradients_of_head? hhead] at h ⊢
    obtain ⟨⟨tape, values⟩, hforward, hback⟩ := Outcome.bind_eq_ok.1 h
    obtain ⟨adjoint, hadjoint, rfl⟩ := Outcome.map_eq_ok.1 hback
    refine ⟨objective, tape, values, adjoint, rfl, hforward, hadjoint, rfl, ?_⟩
    rw [hforward]
    rfl

end Passes

end FeatureGraph.Graph
