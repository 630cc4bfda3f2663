import FeatureGraph.Proofs.Edit
import FeatureGraph.Proofs.Frame
import FeatureGraph.Arith.Double

/-!
# What a graph represents

`Graph.added` lists the nodes that the successful actions of a run have answered, each with the
parents that were given for it.  `Graph.Represents` says that a graph stores exactly that: one
entry per node in each column, the given parents for each node, each primitive with as many
parents and parameters as it asks for, inputs that read the columns one after the other, and
complete lists of outputs, targets and objectives.

* `Recorded` is the part that speaks of what was given.  `Recorded.add` is the step of an action
  that adds a node, and `Recorded.keep` the step of all others.
* `Recorded.perform` is one action, and `recorded_run` a run.
* `represents_run` joins it with soundness, and with the edits that leave no trace when they
  fail.
-/

namespace FeatureGraph

/-- The column that an input reads. -/
def Primitive.column? : Primitive → Option Nat
  | .input column => some column
  | _ => none

/-- The parents that an adding action gives to its node. -/
def Action.parents {α : Type} : Action α → List NodeId
  | .addNode _ parents _ | .addOutput parents _ => parents
  | .addObjective output target _ => [output, target]
  | _ => []

/-- Whether an action is there to add a node. -/
def Action.isAdding {α : Type} : Action α → Bool
  | .addInput _ | .appendInput _ | .addNode .. | .addOutput .. | .addTarget _
  | .addObjective .. => true
  | _ => false

namespace Graph

variable {α : Type}

/-- The columns that the inputs read, in the order of their nodes. -/
def inputColumns (g : Graph α) : List Nat := g.table.ops.toList.filterMap Primitive.column?

/-- The nodes with a primitive, in their order. -/
def nodesWith (g : Graph α) (op : Primitive) : List NodeId :=
  (List.range g.size).filter fun id => g.table.ops[id]? == some op

/-- What a graph stores to which the listed nodes have been added, one after the other and each
with its parents. -/
structure Represents (g : Graph α) (added : List (NodeId × List NodeId)) : Prop where
  labels : g.table.labels.size = g.size
  spans : g.table.parentSpans.size = g.size
  params : g.table.params.size = g.size
  active : g.table.active.size = g.size
  constant : g.table.constant.size = g.size
  dropped : g.table.dropped.size = g.size
  parentIds : g.table.parentIds.toList = added.flatMap Prod.snd
  ids : added.map Prod.fst = List.range g.size
  node : ∀ p ∈ added, ∃ (op : Primitive) (params : List α),
    g.op p.1 = .ok op ∧ g.parents p.1 = .ok p.2 ∧ g.params p.1 = .ok params ∧
      (∀ q ∈ p.2, q < p.1) ∧ op.admits p.2.length = true ∧
      params.length = op.paramCount p.2.length
  inputs : g.inputColumns = List.range g.nextColumn
  outputs : g.outputs = g.nodesWith .output
  targets : g.targets = g.nodesWith .target
  objectives : g.objectives = g.nodesWith .objective

/-- The part of `Represents` that speaks of what was given. -/
structure Recorded (g : Graph α) (added : List (NodeId × List NodeId)) : Prop where
  parentIds : g.table.parentIds.toList = added.flatMap Prod.snd
  nodes : added = (List.range g.size).map fun id => (id, g.table.parentList id)
  inputs : g.inputColumns = List.range g.nextColumn
  outputs : g.outputs = g.nodesWith .output
  targets : g.targets = g.nodesWith .target
  objectives : g.objectives = g.nodesWith .objective

theorem recorded_empty : (empty : Graph α).Recorded [] where
  parentIds := rfl
  nodes := rfl
  inputs := rfl
  outputs := rfl
  targets := rfl
  objectives := rfl

variable {g g' : Graph α} {past : List (NodeId × List NodeId)}

/-- A sound graph stores what it has been given. -/
theorem Recorded.represents (h : g.Recorded past) (hg : g.table.Sound) : g.Represents past where
  labels := hg.labels
  spans := hg.spans
  params := hg.params
  active := hg.active
  constant := hg.constant
  dropped := hg.dropped
  parentIds := h.parentIds
  ids := by simp [h.nodes, Function.comp_def]
  node p hp := by
    obtain ⟨id, hid, rfl⟩ := List.mem_map.1 (h.nodes ▸ hp)
    have hid : id < g.size := List.mem_range.1 hid
    have hcheck : g.checkNode id = .ok () := checkNode_eq_ok.2 hid
    have hop := hg.ops_getElem? hid
    obtain ⟨params, hparams⟩ := hg.params_getElem? hid
    refine ⟨_, params, ?_, ?_, ?_, hg.earlier id, hg.arity id _ hop,
      hg.paramCount id _ params hop hparams⟩
    · rw [op, hcheck, Outcome.ok_bind, Outcome.fetch_eq_ok.2 hop]
    · rw [Graph.parents, hcheck, Outcome.ok_bind, hg.parents_eq hid]
    · rw [Graph.params, hcheck, Outcome.ok_bind, Outcome.fetch_eq_ok.2 hparams]
  inputs := h.inputs
  outputs := h.outputs
  targets := h.targets
  objectives := h.objectives

/-! ## Actions that add no node -/

/-- The same nodes in the same roles have been given the same. -/
theorem Recorded.keep (h : g.Recorded past) (hsame : SameNodes g g') : g'.Recorded past where
  parentIds := hsame.parentIds ▸ h.parentIds
  nodes := by
    simp only [hsame.size, hsame.parentList]
    exact h.nodes
  inputs := by
    unfold inputColumns
    rw [hsame.ops, hsame.nextColumn]
    exact h.inputs
  outputs := by
    unfold nodesWith
    rw [hsame.size, hsame.ops, hsame.outputs]
    exact h.outputs
  targets := by
    unfold nodesWith
    rw [hsame.size, hsame.ops, hsame.targets]
    exact h.targets
  objectives := by
    unfold nodesWith
    rw [hsame.size, hsame.ops, hsame.objectives]
    exact h.objectives

/-- An operation that keeps the nodes when it succeeds keeps them. -/
theorem sameNodes_leftBy {outcome : Outcome GraphError (Graph α)}
    (h : ∀ g', outcome = .ok g' → SameNodes g g') : SameNodes g (g.leftBy outcome) := by
  cases outcome with
  | error fault => exact .refl g
  | ok g' => exact h g' rfl

theorem sameNodes_leftBy_map {β : Type} {outcome : Outcome GraphError (β × Graph α)}
    (h : ∀ p, outcome = .ok p → SameNodes g p.2) :
    SameNodes g (g.leftBy (outcome.map Prod.snd)) := by
  refine sameNodes_leftBy fun g' hg' => ?_
  obtain ⟨p, hp, rfl⟩ := Outcome.map_eq_ok.1 hg'
  exact h p hp

/-- An action that adds no node leaves the nodes as they are. -/
theorem sameNodes_after [Arith α] (hg : g.table.Sound) {a : Action α} (ha : a.isAdding = false) :
    SameNodes g (g.after a) := by
  cases a with
  | addInput name => cases ha
  | appendInput name => cases ha
  | addNode op ps name => cases ha
  | addOutput ps name => cases ha
  | addTarget name => cases ha
  | addObjective output target name => cases ha
  | setParams id ps =>
    refine sameNodes_leftBy fun g' h => ?_
    rw [((setParams_eq_ok hg).1 h).2]
    exact (SameNodes.refl g).withColumns _ _ _ _ _ _
  | setConstant id value =>
    refine sameNodes_leftBy fun g' h => ?_
    rw [((setConstant_eq_ok hg).1 h).2]
    exact (SameNodes.refl g).withColumns _ _ _ _ _ _
  | setActive id value =>
    refine sameNodes_leftBy fun g' h => ?_
    rw [((setActive_eq_ok hg).1 h).2]
    exact (SameNodes.refl g).withColumns _ _ _ _ _ _
  | setAllActive value => exact (SameNodes.refl g).withColumns _ _ _ _ _ _
  | activateBranch id =>
    refine sameNodes_leftBy_map fun p hp => ?_
    obtain ⟨column, _, hactive⟩ := of_activateBranch_eq_ok hp
    rw [hactive]
    exact (SameNodes.refl g).withColumns _ _ _ _ _ _
  | activateOnly keep => exact (SameNodes.refl g).withColumns _ _ _ _ _ _
  | bypassInactive =>
    refine sameNodes_leftBy_map fun p hp => ?_
    obtain ⟨tape, _, rfl⟩ := bypassInactive_eq_ok.1 hp
    exact (SameNodes.refl g).withColumns _ _ _ _ _ _
  | setDropped id value =>
    refine sameNodes_leftBy fun g' h => ?_
    rw [((setDropped_eq_ok hg).1 h).2]
    exact (SameNodes.refl g).withColumns _ _ _ _ _ _
  | clearDropped => exact (SameNodes.refl g).withColumns _ _ _ _ _ _
  | evaluate x y => exact (onlyTrained_evaluate g x y).toSameNodes
  | gradients x y => exact (onlyTrained_gradients g x y).toSameNodes
  | optimize o x y n rate => exact (onlyTrained_run g o x y n rate).toSameNodes

/-! ## Actions that add a node -/

/-- What an action that is there to add a node leaves behind: the old graph, or a node more over
nodes that are there. -/
theorem after_adding_cases [Arith α] (g : Graph α) {a : Action α} (ha : a.isAdding = true) :
    g.after a = g ∨ ∃ op ps name,
      (g.after a).table = (g.table.addNode op ps name).2 ∧ ∀ p ∈ ps, p < g.size := by
  have hadded : ∀ {outcome : Outcome GraphError (NodeId × Graph α)} (op : Primitive)
      (ps : List NodeId) (name : String),
      (∀ p, outcome = .ok p → p.2.table = (g.table.addNode op ps name).2 ∧ ∀ q ∈ ps, q < g.size) →
      g.leftBy (outcome.map Prod.snd) = g ∨ ∃ op ps name,
        (g.leftBy (outcome.map Prod.snd)).table = (g.table.addNode op ps name).2 ∧
          ∀ p ∈ ps, p < g.size := by
    intro outcome op ps name h
    cases outcome with
    | error fault => exact .inl rfl
    | ok p => exact .inr ⟨op, ps, name, h p rfl⟩
  cases a with
  | addInput name =>
    refine hadded (.input g.nextColumn) [] name fun p hp => ?_
    rw [(addInput_eq_ok.1 hp).2]
    exact ⟨rfl, by simp⟩
  | appendInput name => exact .inr ⟨_, [], name, rfl, by simp⟩
  | addNode op ps name =>
    refine hadded op ps name fun p hp => ?_
    obtain ⟨_, hps, _, rfl⟩ := addNode_eq_ok.1 hp
    exact ⟨rfl, hps⟩
  | addOutput ps name =>
    refine hadded .output ps name fun p hp => ?_
    obtain ⟨hps, _, rfl⟩ := addOutput_eq_ok.1 hp
    exact ⟨rfl, hps⟩
  | addTarget name => exact .inr ⟨_, [], name, rfl, by simp⟩
  | addObjective output target name =>
    refine hadded .objective [output, target] name fun p hp => ?_
    obtain ⟨houtput, htarget, rfl⟩ := addObjective_eq_ok.1 hp
    exact ⟨rfl, by simpa using ⟨houtput, htarget⟩⟩
  | _ => cases ha

/-- What an action does to the nodes: it leaves them as they are, or it adds one over nodes that
are there. -/
theorem after_cases [Arith α] (hg : g.table.Sound) (a : Action α) :
    SameNodes g (g.after a) ∨ ∃ op ps name,
      (g.after a).table = (g.table.addNode op ps name).2 ∧ ∀ p ∈ ps, p < g.size := by
  cases ha : a.isAdding with
  | false => exact .inl (sameNodes_after hg ha)
  | true =>
    rcases after_adding_cases g ha with hsame | hadded
    · exact .inl (hsame.symm ▸ .refl g)
    · exact .inr hadded

/-- No action removes a node. -/
theorem size_le_after [Arith α] (hg : g.table.Sound) (a : Action α) :
    g.size ≤ (g.after a).size := by
  rcases after_cases hg a with hsame | ⟨_, _, _, htable, _⟩
  · exact hsame.size.ge
  · exact Nat.le.intro (size_of_table htable).symm

theorem size_le_afterAll [Arith α] (hg : g.Sound) (acts : List (Action α)) :
    g.size ≤ (g.afterAll acts).size := by
  induction acts generalizing g with
  | nil => exact Nat.le_refl _
  | cons a acts ih =>
    have hnext : ((Edit.perform a).on g).2 = g.after a := Edit.on_perform hg.table a
    change g.size ≤ (((Edit.perform a).on g).2.afterAll acts).size
    rw [hnext]
    exact Nat.le_trans (size_le_after hg.table a) (ih (hg.after a))

section Adding

variable [Arith α] {op : Primitive} {ps : List NodeId} {name : String}

/-- A new node comes last among those with its primitive. -/
theorem nodesWith_of_table (htable : g'.table = (g.table.addNode op ps name).2)
    (role : Primitive) :
    g'.nodesWith role = g.nodesWith role ++ if op = role then [g.size] else [] := by
  have hops : g'.table.ops = g.table.ops.push op := by rw [htable]; rfl
  have hold : (List.range g.size).filter (fun id => (g.table.ops.push op)[id]? == some role) =
      g.nodesWith role := by
    refine List.filter_congr fun id hid => ?_
    have hne : id ≠ g.table.ops.size := Nat.ne_of_lt (List.mem_range.1 hid)
    rw [Array.getElem?_push, if_neg hne]
  have hnew : (g.table.ops.push op)[g.size]? = some op := by simp [size, NodeTable.size]
  unfold nodesWith at hold ⊢
  rw [size_of_table htable, hops, List.range_succ, List.filter_append, hold, List.filter_cons, hnew]
  by_cases hrole : op = role <;> simp [hrole]

/-- The step of an action that adds a node: its parents join those given before, and it takes
its place among the inputs, outputs, targets or objectives if it is one. -/
theorem Recorded.add (h : g.Recorded past) (hg : g.table.Sound)
    (htable : g'.table = (g.table.addNode op ps name).2)
    (hcolumn : List.range g'.nextColumn = List.range g.nextColumn ++ op.column?.toList)
    (houtputs : g'.outputs = g.outputs ++ if op = .output then [g.size] else [])
    (htargets : g'.targets = g.targets ++ if op = .target then [g.size] else [])
    (hobjectives : g'.objectives = g.objectives ++ if op = .objective then [g.size] else []) :
    g'.Recorded (past ++ [(g.size, ps)]) where
  parentIds := by
    rw [htable]
    simp [NodeTable.addNode, h.parentIds]
  nodes := by
    have hold : (List.range g.size).map (fun id => (id, g'.table.parentList id)) = past := by
      rw [h.nodes]
      refine List.map_congr_left fun id hid => ?_
      have hne : id ≠ g.table.size := Nat.ne_of_lt (List.mem_range.1 hid)
      rw [htable, hg.parentList_addNode, if_neg hne]
    have hnew : g'.table.parentList g.size = ps := by
      rw [htable, hg.parentList_addNode]
      exact if_pos rfl
    rw [size_of_table htable, List.range_succ, List.map_append, hold, List.map_singleton, hnew]
  inputs := by
    have hops : g'.table.ops = g.table.ops.push op := by rw [htable]; rfl
    unfold inputColumns
    rw [hops, Array.toList_push, List.filterMap_append, hcolumn, ← h.inputs]
    cases hop : op.column? <;> simp [inputColumns, hop]
  outputs := by rw [nodesWith_of_table htable, ← h.outputs, houtputs]
  targets := by rw [nodesWith_of_table htable, ← h.targets, htargets]
  objectives := by rw [nodesWith_of_table htable, ← h.objectives, hobjectives]

theorem Recorded.appendInput (h : g.Recorded past) (hg : g.table.Sound) (name : String) :
    (g.appendInput name).2.Recorded (past ++ [(g.size, [])]) := by
  have htable : (g.appendInput name).2.table =
      (g.table.addNode (.input g.nextColumn) [] name).2 := rfl
  refine h.add hg htable ?_ ?_ ?_ ?_
  · exact List.range_succ
  · exact (List.append_nil _).symm
  · exact (List.append_nil _).symm
  · exact (List.append_nil _).symm

/-- Nodes that are not reserved have no role. -/
theorem Recorded.push (h : g.Recorded past) (hg : g.table.Sound) (hop : isReserved op = false)
    (ps : List NodeId) (name : String) :
    (g.push op ps name).2.Recorded (past ++ [(g.size, ps)]) := by
  have hcolumn : op.column? = none := by
    cases op <;> first | rfl | cases hop
  have hrole : ∀ role, isReserved role = true → op ≠ role := by
    rintro role hreserved rfl
    rw [hop] at hreserved
    cases hreserved
  refine h.add hg rfl ?_ ?_ ?_ ?_
  · rw [hcolumn]
    exact (List.append_nil _).symm
  · rw [if_neg (hrole .output rfl)]
    exact (List.append_nil _).symm
  · rw [if_neg (hrole .target rfl)]
    exact (List.append_nil _).symm
  · rw [if_neg (hrole .objective rfl)]
    exact (List.append_nil _).symm

theorem Recorded.pushOutput (h : g.Recorded past) (hg : g.table.Sound) (ps : List NodeId)
    (name : String) : (g.pushOutput ps name).Recorded (past ++ [(g.size, ps)]) := by
  have htable : (g.pushOutput ps name).table = (g.table.addNode .output ps name).2 := rfl
  refine h.add hg htable ?_ rfl ?_ ?_ <;> exact (List.append_nil _).symm

theorem Recorded.addTarget (h : g.Recorded past) (hg : g.table.Sound) (name : String) :
    (g.addTarget name).2.Recorded (past ++ [(g.size, [])]) := by
  have htable : (g.addTarget name).2.table = (g.table.addNode .target [] name).2 := rfl
  refine h.add hg htable ?_ ?_ rfl ?_ <;> exact (List.append_nil _).symm

theorem Recorded.pushObjective (h : g.Recorded past) (hg : g.table.Sound)
    (output target : NodeId) (name : String) :
    (g.pushObjective output target name).Recorded (past ++ [(g.size, [output, target])]) := by
  have htable : (g.pushObjective output target name).table =
      (g.table.addNode .objective [output, target] name).2 := rfl
  refine h.add hg htable ?_ ?_ ?_ rfl <;> exact (List.append_nil _).symm

end Adding

/-! ## Runs -/

section Runs

variable [Arith α]

/-- The node that an action has added to a graph, with its parents, if it has added one. -/
def addedBy (g : Graph α) (a : Action α) : List (NodeId × List NodeId) :=
  match ((Edit.perform a).on g).1 with
  | .ok (some id) => [(id, a.parents)]
  | _ => []

/-- The nodes that a run has added, each with its parents, one after the other. -/
def added (acts : List (Action α)) : List (NodeId × List NodeId) :=
  (trail acts).flatMap fun (g, a) => g.addedBy a

/-- Whether a checked addition succeeds or fails, what it has added is recorded. -/
theorem Recorded.committed {e : Edit α NodeId} {outcome : Outcome GraphError (NodeId × Graph α)}
    {a : Action α} (h : g.Recorded past) (ha : Edit.perform a = some <$> e)
    (he : e.on g = g.committed outcome)
    (hadded : ∀ p, outcome = .ok p → p.1 = g.size ∧
      p.2.Recorded (past ++ [(g.size, a.parents)])) :
    ((Edit.perform a).on g).2.Recorded (past ++ g.addedBy a) := by
  unfold addedBy
  rw [ha, Edit.on_map, he]
  cases outcome with
  | error fault => exact (List.append_nil past).symm ▸ h
  | ok p =>
    obtain ⟨id, g'⟩ := p
    obtain ⟨rfl, hrecorded⟩ := hadded (id, g') rfl
    exact hrecorded

/-- What an action leaves behind, successful or not, is recorded. -/
theorem Recorded.perform (h : g.Recorded past) (hg : g.Sound) (a : Action α) :
    ((Edit.perform a).on g).2.Recorded (past ++ g.addedBy a) := by
  have htable := hg.table
  have hsame : a.isAdding = false → g.addedBy a = [] →
      ((Edit.perform a).on g).2.Recorded (past ++ g.addedBy a) := by
    intro ha hnone
    rw [hnone, List.append_nil, Edit.on_perform htable]
    exact h.keep (sameNodes_after htable ha)
  have hnone : ∀ {β : Type} {e : Edit α β}, Edit.perform a = Edit.addingNone e →
      g.addedBy a = [] := by
    intro β e he
    unfold addedBy
    rw [he, Edit.addingNone, Edit.on_map]
    cases (e.on g).1 <;> rfl
  cases a with
  | addInput name =>
    refine h.committed rfl (Edit.on_addInput name) fun p hp => ?_
    obtain ⟨_, rfl⟩ := addInput_eq_ok.1 hp
    exact ⟨rfl, h.appendInput htable name⟩
  | appendInput name => exact h.appendInput htable name
  | addNode op ps name =>
    refine h.committed rfl (Edit.on_addNode op ps name) fun p hp => ?_
    obtain ⟨hop, _, _, rfl⟩ := addNode_eq_ok.1 hp
    exact ⟨rfl, h.push htable hop ps name⟩
  | addOutput ps name =>
    refine h.committed rfl (Edit.on_addOutput ps name) fun p hp => ?_
    obtain ⟨_, _, rfl⟩ := addOutput_eq_ok.1 hp
    exact ⟨rfl, h.pushOutput htable ps name⟩
  | addTarget name => exact h.addTarget htable name
  | addObjective output target name =>
    refine h.committed rfl (Edit.on_addObjective output target name) fun p hp => ?_
    obtain ⟨_, _, rfl⟩ := addObjective_eq_ok.1 hp
    exact ⟨rfl, h.pushObjective htable output target name⟩
  | setParams id ps => exact hsame rfl (hnone rfl)
  | setConstant id value => exact hsame rfl (hnone rfl)
  | setActive id value => exact hsame rfl (hnone rfl)
  | setAllActive value => exact hsame rfl (hnone rfl)
  | activateBranch id => exact hsame rfl (hnone rfl)
  | activateOnly keep => exact hsame rfl (hnone rfl)
  | bypassInactive => exact hsame rfl (hnone rfl)
  | setDropped id value => exact hsame rfl (hnone rfl)
  | clearDropped => exact hsame rfl (hnone rfl)
  | evaluate x y => exact hsame rfl (hnone rfl)
  | gradients x y => exact hsame rfl (hnone rfl)
  | optimize o x y n rate => exact hsame rfl (hnone rfl)

theorem recorded_run (acts : List (Action α)) : (run acts).Recorded (added acts) := by
  induction acts using List.reverseRecOn with
  | nil => exact recorded_empty
  | append_singleton acts a ih =>
    have hadded : added (acts ++ [a]) = added acts ++ (run acts).addedBy a := by simp [added]
    rw [hadded, run_concat]
    exact ih.perform (reachable_run acts).sound a

/-- After any sequence of actions, failed ones included, the graph stores exactly what has been
added to it, and an action that is no pass leaves no trace if it fails now. -/
theorem represents_run (acts : List (Action α)) :
    (run acts).Represents (added acts) ∧
      ∀ (a : Action α) (fault : Fault GraphError), a.isPass = false →
        ((Edit.perform a).on (run acts)).1 = .error fault →
        ((Edit.perform a).on (run acts)).2 = run acts := by
  have htable := (reachable_run acts).sound.table
  exact ⟨(recorded_run acts).represents htable, fun _ _ => Edit.perform_atomic htable⟩

/-- Two inputs, a refused product of one node, and the product of the two: the refused action
has added nothing, and changes nothing if it is refused once more. -/
theorem represents_run_product :
    (run [.addInput "a", .addInput "b", .addNode .mult [0] "ab", .addNode .mult [0, 1] "ab"] :
      Graph Float).Represents [(0, []), (1, []), (2, [0, 1])] ∧
    ((Edit.perform (.addNode .mult [0] "ab")).on (run [.addInput "a", .addInput "b"] :
      Graph Float)).2 = run [.addInput "a", .addInput "b"] := by
  refine ⟨(represents_run _).1, (represents_run _).2 _ (.failure (.arityMismatch "ab" .mult 2 1))
    rfl ?_⟩
  rfl

end Runs

end Graph

end FeatureGraph
