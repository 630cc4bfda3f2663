import FeatureGraph.Proofs.Reachable

/-!
# What an operation leaves alone

`SameNodes` says that there are the same nodes with the same names and parents, in the same
roles.  `OnlyTrained` says more: the flags for activation and for constants are the same, and
so are the parameters of every node that training must leave alone.

* `Frozen` names these nodes, and `NodeTable.not_frozen` says that none of them is trainable.
* `keptByUpdates_onlyTrained` is the frame of one update of one node, which `onlyTrained_run`
  carries through a whole descent.  No step needs a sound graph.
-/

namespace FeatureGraph

variable {α : Type}

/-- Two graphs with the same nodes, in the same roles. -/
structure SameNodes (g g' : Graph α) : Prop where
  ops : g'.table.ops = g.table.ops
  labels : g'.table.labels = g.table.labels
  names : g'.table.names = g.table.names
  parentIds : g'.table.parentIds = g.table.parentIds
  parentSpans : g'.table.parentSpans = g.table.parentSpans
  nextColumn : g'.nextColumn = g.nextColumn
  outputs : g'.outputs = g.outputs
  targets : g'.targets = g.targets
  objectives : g'.objectives = g.objectives

namespace SameNodes

variable {g g' g'' : Graph α}

theorem refl (g : Graph α) : SameNodes g g := ⟨rfl, rfl, rfl, rfl, rfl, rfl, rfl, rfl, rfl⟩

theorem trans (h : SameNodes g g') (h' : SameNodes g' g'') : SameNodes g g'' where
  ops := h'.ops.trans h.ops
  labels := h'.labels.trans h.labels
  names := h'.names.trans h.names
  parentIds := h'.parentIds.trans h.parentIds
  parentSpans := h'.parentSpans.trans h.parentSpans
  nextColumn := h'.nextColumn.trans h.nextColumn
  outputs := h'.outputs.trans h.outputs
  targets := h'.targets.trans h.targets
  objectives := h'.objectives.trans h.objectives

/-- Other columns for parameters and flags, and other caches. -/
theorem withColumns (h : SameNodes g g') (params : Array (List α))
    (active constant dropped : Array Bool) (tape : Option Tape) (values : Slots α) :
    SameNodes g { g' with
      table := { g'.table with params, active, constant, dropped }, tape, values } :=
  ⟨h.ops, h.labels, h.names, h.parentIds, h.parentSpans, h.nextColumn, h.outputs, h.targets,
    h.objectives⟩

theorem size (h : SameNodes g g') : g'.size = g.size := congrArg Array.size h.ops

theorem parentList (h : SameNodes g g') (id : NodeId) :
    g'.table.parentList id = g.table.parentList id := by
  unfold NodeTable.parentList NodeTable.stretch
  rw [h.parentIds, h.parentSpans]

end SameNodes

/-- The nodes whose parameters training must leave alone: the constant ones, the inactive ones
and those without parameters. -/
def NodeTable.Frozen (t : NodeTable α) (id : NodeId) : Prop :=
  t.constant[id]? = some true ∨ t.active[id]? = some false ∨ t.params[id]? = some []

/-- A trainable node is active and not constant, and has parameters. -/
theorem NodeTable.of_mem_trainable {t : NodeTable α} {nodes : List NodeId}
    (h : (t.trainable : Outcome GraphError (List NodeId)) = .ok nodes) {id : NodeId}
    (hid : id ∈ nodes) :
    t.active[id]? = some true ∧ t.constant[id]? = some false ∧
      ∃ ps, t.params[id]? = some ps ∧ ps ≠ [] := by
  have htrainable : (t.isTrainable id : Outcome GraphError Bool) = .ok true :=
    Outcome.of_mem_filterM h hid
  obtain ⟨active, hactive, htrainable⟩ := Outcome.bind_eq_ok.1 htrainable
  cases active with
  | false => cases htrainable
  | true =>
    obtain ⟨constant, hconstant, htrainable⟩ := Outcome.bind_eq_ok.1 htrainable
    cases constant with
    | true => cases htrainable
    | false =>
      obtain ⟨params, hparams, htrainable⟩ := Outcome.bind_eq_ok.1 htrainable
      rw [Outcome.fetch_eq_ok] at hactive hconstant hparams
      refine ⟨hactive, hconstant, params, hparams, ?_⟩
      rintro rfl
      cases htrainable

/-- No frozen node is trainable. -/
theorem NodeTable.not_frozen {t : NodeTable α} {nodes : List NodeId}
    (h : (t.trainable : Outcome GraphError (List NodeId)) = .ok nodes) :
    ∀ id ∈ nodes, ¬ t.Frozen id := by
  intro id hid
  obtain ⟨hactive, hconstant, ps, hparams, hne⟩ := of_mem_trainable h hid
  rintro (hfrozen | hfrozen | hfrozen)
  · rw [hconstant] at hfrozen
    cases hfrozen
  · rw [hactive] at hfrozen
    cases hfrozen
  · exact hne (Option.some.inj (hparams.symm.trans hfrozen))

/-- What training keeps of a graph: everything but drop flags, caches and the parameters of
the nodes that are not frozen. -/
structure OnlyTrained (g g' : Graph α) : Prop extends SameNodes g g' where
  active : g'.table.active = g.table.active
  constant : g'.table.constant = g.table.constant
  params : ∀ id, g.table.Frozen id → g'.table.params[id]? = g.table.params[id]?

namespace OnlyTrained

variable {g g' g'' : Graph α}

theorem refl (g : Graph α) : OnlyTrained g g := ⟨.refl g, rfl, rfl, fun _ _ => rfl⟩

/-- A frozen node stays frozen. -/
theorem frozen (h : OnlyTrained g g') {id : NodeId} (hid : g.table.Frozen id) :
    g'.table.Frozen id := by
  have hparams := h.params id hid
  unfold NodeTable.Frozen at hid ⊢
  rwa [h.constant, h.active, hparams]

theorem trans (h : OnlyTrained g g') (h' : OnlyTrained g' g'') : OnlyTrained g g'' where
  toSameNodes := h.toSameNodes.trans h'.toSameNodes
  active := h'.active.trans h.active
  constant := h'.constant.trans h.constant
  params id hid := (h'.params id (h.frozen hid)).trans (h.params id hid)

/-- Other drop flags, another tape and other columns. -/
theorem withCaches (h : OnlyTrained g g') (dropped : Array Bool) (tape : Option Tape)
    (values : Slots α) :
    OnlyTrained g { g' with table := { g'.table with dropped }, tape, values } :=
  ⟨h.toSameNodes.withColumns _ _ _ _ _ _, h.active, h.constant, h.params⟩

/-- Other parameters of a node that is not frozen. -/
theorem replaceParams (h : OnlyTrained g g') {id : NodeId} (hid : ¬ g.table.Frozen id)
    (ps : List α) : OnlyTrained g (g'.replaceParams id ps) where
  toSameNodes := h.toSameNodes.withColumns _ _ _ _ _ _
  active := h.active
  constant := h.constant
  params i hi := by
    have hne : id ≠ i := fun heq => hid (heq ▸ hi)
    exact (Array.getElem?_setIfInBounds_ne hne).trans (h.params i hi)

end OnlyTrained

/-! ## Passes and descents -/

section Descent

variable {g₀ g : Graph α}

theorem onlyTrained_afterForward (g : Graph α) (outcome : Outcome GraphError (Tape × Slots α)) :
    OnlyTrained g (g.afterForward outcome) := by
  cases outcome with
  | error fault => exact (OnlyTrained.refl g).withCaches _ _ _
  | ok p => exact (OnlyTrained.refl g).withCaches _ _ _

variable [Arith α]

theorem onlyTrained_evaluate (g : Graph α) (x : Matrix α) (y : Option (List α)) :
    OnlyTrained g (g.evaluate x y).2 :=
  onlyTrained_afterForward g _

theorem onlyTrained_gradients (g : Graph α) (x : Matrix α) (y : List α) :
    OnlyTrained g (g.gradients x y).2 := by
  rcases g.gradients_snd_cases x y with h | h <;> rw [h]
  · exact .refl g
  · exact onlyTrained_afterForward g _

omit [Arith α] in
/-- Nodes none of which was frozen when a descent began may be updated. -/
theorem keptByUpdates_onlyTrained {nodes : List NodeId}
    (hnodes : ∀ id ∈ nodes, ¬ g₀.table.Frozen id) :
    Optimizer.KeptByUpdates nodes (OnlyTrained g₀) :=
  fun _ id hid _ ps _ _ h => h.replaceParams (hnodes id hid) ps

theorem onlyTrained_step (h : OnlyTrained g₀ g) (o : Optimizer α) (x : Matrix α) (y : List α)
    (rate : α) {nodes : List NodeId} (hnodes : ∀ id ∈ nodes, ¬ g₀.table.Frozen id) :
    OnlyTrained g₀ (o.step g x y rate nodes).graph :=
  (keptByUpdates_onlyTrained hnodes).step (h.trans (onlyTrained_gradients g x y)) o rate

theorem onlyTrained_run (g : Graph α) (o : Optimizer α) (x : Matrix α) (y : List α) (n : Nat)
    (rate : α) : OnlyTrained g (o.run g x y n rate).1.graph := by
  refine Optimizer.keeps_run (.refl g) fun nodes htrainable => ?_
  exact (keptByUpdates_onlyTrained (NodeTable.not_frozen htrainable)).steps?
    (fun g' h => h.trans (onlyTrained_gradients g' x y)) (.refl g) o n rate

end Descent

end FeatureGraph
