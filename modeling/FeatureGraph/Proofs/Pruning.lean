import FeatureGraph.Proofs.Passes
import FeatureGraph.Proofs.Representation
import FeatureGraph.Proofs.Selection
import FeatureGraph.Arith.Double

/-!
# Pruning is exact

`Model.Pruned` says what selecting features makes of a graph.  Active is exactly what the
selected features need, and the output, the target and the objective, which come behind the
nodes that were there.  These stay as they are.

* `pruned_of_ofPicks` is that statement for any picked features.
* `select_prunes` is the statement about forests that have been lowered, whatever has been done
  to the graph since.
-/

namespace FeatureGraph.Model

variable {α : Type} [Arith α]

/-- The nodes that the features at some positions need, found through the mapping. -/
def NeededBy (g : Graph α) (m : NodeMapping) (entries : List (Nat × Feature α)) (id : NodeId) :
    Prop :=
  ∃ entry ∈ entries, ∃ node, m.getIndex? entry.1 = some node ∧ g.table.Needs node id

/-- What selecting the features that satisfy a predicate makes of a graph. -/
structure Pruned (f : Forest α) (g : Graph α) (m : NodeMapping) (keep : Feature α → Bool)
    (model : Model α) : Prop where
  size : model.graph.size = g.size + 3
  output : model.output = g.size
  target : model.target = g.size + 1
  objective : model.objective = g.size + 2
  /-- The nodes that were there keep primitives, parents, parameters and drop flags. -/
  agree : NodeTable.Agree g.size g.table model.graph.table
  active : ∀ id, model.graph.isActive id = true ↔
    NeededBy g m (f.satisfying keep) id ∨
      id = model.output ∨ id = model.target ∨ id = model.objective
  /-- The number of active nodes does not count the three new ones. -/
  counted : (model.stats.active : ℕ∞) = {id | NeededBy g m (f.satisfying keep) id}.encard
  /-- The output weighs the features in the order of the forest, and has no bias. -/
  weighs : ∃ nodes, (f.satisfying keep).map (fun entry => m.getIndex? entry.1) =
      nodes.map some ∧
    model.graph.table.Holds model.output .output nodes
      ((f.satisfying keep).map (fun entry =>
        if Arith.lt 0 entry.2.coverage then 1 / ((f.satisfying keep).length : α)
        else -1 / ((f.satisfying keep).length : α)) ++ [0])
  holdsTarget : model.graph.table.Holds model.target .target [] []
  compares : model.graph.table.Holds model.objective .objective [model.output, model.target] []
  compiled : ∃ tape, model.graph.tape = some tape ∧ model.graph.table.compile = .ok tape

/-! ## Wiring -/

section Wiring

variable {g : Graph α} {nodes : List NodeId} {weights : List α}

theorem Wirable.holds_withTarget (h : Wirable g nodes weights) :
    (withTarget g nodes weights).table.Holds (g.size + 1) .target [] [] := by
  have hsize : (withOutput g nodes weights).table.size = g.size + 1 := size_withOutput
  exact hsize ▸ h.sound_withOutput.table.holds_addNode .target [] "target"

theorem Wirable.agree_withTarget (h : Wirable g nodes weights) :
    NodeTable.Agree (g.size + 2) (withTarget g nodes weights).table
      (withObjective g nodes weights).table := by
  have hsize : (withTarget g nodes weights).table.size = g.size + 2 := size_withTarget
  exact hsize ▸ h.sound_withTarget.table.agree_addNode .objective
    [g.size, (withOutput g nodes weights).size] "objective"

theorem Wirable.holds_objective (h : Wirable g nodes weights) :
    (withObjective g nodes weights).table.Holds (g.size + 2) .objective
      [g.size, g.size + 1] [] := by
  have hobjective : (withObjective g nodes weights).table.Holds (withTarget g nodes weights).size
      .objective [g.size, (withOutput g nodes weights).size] [] :=
    h.sound_withTarget.table.holds_addNode .objective
      [g.size, (withOutput g nodes weights).size] "objective"
  rw [size_withTarget, size_withOutput] at hobjective
  exact hobjective

/-- Over a graph with some nodes kept, these and the new nodes are active. -/
theorem Wirable.mem_activeIds_withObjective {kept : List NodeId} {id : NodeId}
    (h : Wirable (g.activateOnly kept) nodes weights) (hg : g.Sound) :
    id ∈ (withObjective (g.activateOnly kept) nodes weights).table.activeIds ↔
      (id < g.size ∧ id ∈ kept) ∨ id = g.size ∨ id = g.size + 1 ∨ id = g.size + 2 := by
  have hsize : (g.activateOnly kept).size = g.size := rfl
  rw [h.activeIds_withObjective, List.mem_append, mem_activeIds_activateOnly hg, hsize]
  simp

end Wiring

/-! ## Selecting -/

section Picked

variable {f : Forest α} {g : Graph α} {m : NodeMapping} {keep : Feature α → Bool}
  {node : Nat → NodeId} {model : Model α}

omit [Arith α] in
/-- A feature that satisfies the predicate stands in the forest. -/
theorem lt_size_of_mem_satisfying {entry : Nat × Feature α} (h : entry ∈ f.satisfying keep) :
    entry.1 < f.size := by
  obtain ⟨k, hk, rfl⟩ := List.getElem_of_mem (List.mem_of_mem_filter h)
  rw [(Forest.get?_of_getElem_entries hk).1]
  simpa using hk

omit [Arith α] in
/-- What the picked nodes need is what the features that satisfy the predicate need. -/
theorem exists_needs_iff (hbound : ∀ i < f.size, m.getIndex? i = some (node i)) {id : NodeId} :
    (∃ root ∈ (f.satisfying keep).map fun entry => node entry.1, g.table.Needs root id) ↔
      NeededBy g m (f.satisfying keep) id := by
  simp only [List.mem_map, exists_exists_and_eq_and, NeededBy]
  refine exists_congr fun entry => and_congr_right fun hentry => ?_
  rw [hbound entry.1 (lt_size_of_mem_satisfying hentry)]
  simp

omit [Arith α] in
/-- The walk from the nodes of the features that satisfy the predicate finds what these need, and
each node once. -/
theorem mem_kept_iff (hg : g.Sound) (hbound : ∀ i < f.size, m.getIndex? i = some (node i))
    (hinside : ∀ i < f.size, node i < g.size) {kept : List NodeId}
    (hkept : (g.table.ancestry ((f.satisfying keep).map fun entry => node entry.1) :
      Outcome GraphError (List NodeId)) = .ok kept) :
    (∀ id, id ∈ kept ↔ NeededBy g m (f.satisfying keep) id) ∧ (∀ id ∈ kept, id < g.size) ∧
      kept.Nodup := by
  have hroots : ∀ p ∈ (f.satisfying keep).map fun entry => node entry.1, p < g.size := by
    intro p hp
    obtain ⟨entry, hentry, rfl⟩ := List.mem_map.1 hp
    exact hinside entry.1 (lt_size_of_mem_satisfying hentry)
  obtain ⟨kept', hkept', hwalked⟩ :=
    NodeTable.exists_ancestry (ε := GraphError) hg.table.wellFormed hroots
  obtain rfl := Except.ok.inj (hkept'.symm.trans hkept)
  exact ⟨fun id => hwalked.mem_iff.trans (exists_needs_iff hbound), hwalked.inside,
    NodeTable.nodup_collectAncestry List.nodup_nil hkept'⟩

/-- The features that satisfy a predicate, with nodes of a sound graph, make a pruned model. -/
theorem pruned_of_ofPicks (hg : g.Sound) (hbound : ∀ i < f.size, m.getIndex? i = some (node i))
    (hinside : ∀ i < f.size, node i < g.size)
    (hmodel : ofPicks f g m ((f.satisfying keep).map fun entry =>
      ⟨entry.1, entry.2, node entry.1⟩) = .ok model) :
    Pruned f g m keep model := by
  obtain ⟨kept, w, hkept, hwire, hmodel⟩ := ofPicks_eq_ok.1 hmodel
  simp only [List.map_map, Function.comp_def, List.length_map] at hkept hwire
  obtain ⟨hmem, hthere, hnodup⟩ := mem_kept_iff hg hbound hinside hkept
  set nodes := (f.satisfying keep).map fun entry => node entry.1 with hnodes
  -- the model has the graph that the output, the target and the objective are wired in
  obtain ⟨hwirable, tape, htape, rfl⟩ := (wire_eq_ok (hg.activateOnly kept)).1 hwire
  set weights := (f.satisfying keep).map fun entry =>
    initialWeight (f.satisfying keep).length entry.2.coverage with hweights
  have hgraph : model.graph = { withObjective (g.activateOnly kept) nodes weights with
      tape := some tape, values := {} } := by rw [hmodel]; rfl
  have htable : model.graph.table =
      (withObjective (g.activateOnly kept) nodes weights).table := by rw [hgraph]
  have houtput : model.output = g.size := by rw [hmodel]; rfl
  have htarget : model.target = g.size + 1 := by rw [hmodel]; exact size_withOutput
  have hobjective : model.objective = g.size + 2 := by rw [hmodel]; exact size_withTarget
  have hactivation : NodeTable.Agree g.size g.table (g.activateOnly kept).table :=
    ⟨fun _ _ => rfl, fun _ _ => rfl, fun _ _ => rfl, fun _ _ => rfl⟩
  exact {
    size := by rw [hgraph]; exact size_withObjective
    output := houtput
    target := htarget
    objective := hobjective
    agree := htable ▸ hactivation.trans hwirable.agree (Nat.le_refl _)
    active := by
      intro id
      have hsound : model.graph.Sound := by
        rw [hgraph]
        exact ⟨hwirable.sound_withObjective.table, fun _ h => Option.some.inj h ▸ htape⟩
      rw [Graph.isActive_iff_mem_activeIds hsound, htable,
        hwirable.mem_activeIds_withObjective hg, ← hmem id, houtput, htarget, hobjective]
      exact or_congr_left (and_iff_right_of_imp (hthere id))
    counted := by
      rw [hmodel]
      exact NodeTable.length_eq_encard hnodup hmem
    weighs := by
      refine ⟨nodes, ?_, ?_⟩
      · rw [hnodes, List.map_map]
        exact List.map_congr_left fun entry hentry =>
          hbound entry.1 (lt_size_of_mem_satisfying hentry)
      · rw [htable, houtput]
        exact hwirable.agree_withObjective.holds (Nat.lt_succ_self _) hwirable.holds_withOutput
    holdsTarget := by
      rw [htable, htarget]
      exact hwirable.agree_withTarget.holds (Nat.lt_succ_self _) hwirable.holds_withTarget
    compares := by
      rw [htable, houtput, htarget, hobjective]
      exact hwirable.holds_objective
    compiled := ⟨tape, by rw [hgraph], htable ▸ htape⟩ }

omit [Arith α] in
/-- No feature satisfies a predicate that holds for none. -/
theorem satisfying_eq_nil_iff :
    f.satisfying keep = [] ↔ ∀ feature ∈ f.features, keep feature = false := by
  calc f.satisfying keep = [] ↔ ∀ entry ∈ f.entries, keep entry.2 = false := by
        simp [Forest.satisfying, List.filter_eq_nil_iff]
    _ ↔ ∀ feature ∈ f.entries.map (·.2), keep feature = false := by
        rw [List.forall_mem_map]
    _ ↔ ∀ feature ∈ f.features, keep feature = false := by
        rw [Forest.map_snd_entries]
        simp

/-- Without a feature that satisfies the predicate there is nothing to select. -/
theorem select_eq_emptySelection (hpicks : picks f m keep = .ok []) :
    (select f g m keep).outcome = .error (.failure (.emptySelection f.size)) := by
  unfold select
  rw [hpicks]
  rfl

/-- A pruned graph has no active node with an inactive parent. -/
theorem not_inactiveParent_of_ofPicks {picked : List (Pick α)} (hg : g.Sound)
    (hmodel : ofPicks f g m picked = .ok model) (x : Matrix α) (y : Option (List α))
    (child parent : String) :
    (model.graph.evaluate x y).1 ≠ .error (.failure (.inactiveParent child parent)) := by
  intro hfault
  obtain ⟨kept, w, hwired, hgraph, _⟩ := wired_of_ofPicks_eq_ok hg hmodel
  rw [hgraph] at hfault
  obtain ⟨cause, hcause⟩ :=
    Graph.exists_mismatch_of_runForward hwired.sound hwired.closed
      (Graph.evaluate_fst_eq_error hfault)
  cases hcause

end Picked

/-- Selecting features of a forest that has been lowered, after any actions on the graph: it
fails exactly if no feature satisfies the predicate, and says so.  Otherwise the graph of the
model is pruned to what the selected features need, and its next evaluation does not meet an
inactive parent. -/
theorem select_prunes {f : Forest α} (hf : f.Built) :
    ∃ g m, f.lower.outcome = .ok (g, m) ∧
      ∀ (acts : List (Action α)) (keep : Feature α → Bool),
        ((∃ fault, (select f (g.afterAll acts) m keep).outcome = .error fault) ↔
          ∀ feature ∈ f.features, keep feature = false) ∧
        (∀ fault, (select f (g.afterAll acts) m keep).outcome = .error fault →
          fault = .failure (.emptySelection f.size)) ∧
        ∀ model, (select f (g.afterAll acts) m keep).outcome = .ok model →
          Pruned f (g.afterAll acts) m keep model ∧
            ∀ (x : Matrix α) (y : Option (List α)) (child parent : String),
              (model.graph.evaluate x y).1 ≠ .error (.failure (.inactiveParent child parent)) := by
  obtain ⟨g, m, node, hlower, h⟩ := hf.sound.exists_lower
  refine ⟨g, m, hlower, fun acts keep => ?_⟩
  have hsound : (g.afterAll acts).Sound := h.intact.sound.afterAll acts
  have hinside : ∀ i < f.size, node i < (g.afterAll acts).size := fun i hi =>
    Nat.lt_of_lt_of_le (h.inside i hi) (Graph.size_le_afterAll h.intact.sound acts)
  have hpicks := picks_satisfying h keep
  by_cases hnone : f.satisfying keep = []
  · rw [hnone] at hpicks
    have hselect := select_eq_emptySelection (g := g.afterAll acts) hpicks
    refine ⟨⟨fun _ => satisfying_eq_nil_iff.1 hnone, fun _ => ⟨_, hselect⟩⟩, ?_, ?_⟩
    · intro fault hfault
      exact Except.error.inj (hfault.symm.trans hselect)
    · intro model hmodel
      cases hselect.symm.trans hmodel
  · have hpicked : ∀ p ∈ (f.satisfying keep).map fun entry =>
        (⟨entry.1, entry.2, node entry.1⟩ : Pick α), p.node < (g.afterAll acts).size := by
      intro p hp
      obtain ⟨entry, hentry, rfl⟩ := List.mem_map.1 hp
      exact hinside entry.1 (lt_size_of_mem_satisfying hentry)
    obtain ⟨model, hselect⟩ := exists_select_of_picks hsound hpicks (by simpa using hnone) hpicked
    refine ⟨⟨?_, fun hall => absurd (satisfying_eq_nil_iff.2 hall) hnone⟩, ?_, ?_⟩
    · rintro ⟨fault, hfault⟩
      cases hselect.symm.trans hfault
    · intro fault hfault
      cases hselect.symm.trans hfault
    · intro model' hmodel'
      obtain ⟨picked, hpicks', _, hofPicks⟩ := of_select_eq_ok hmodel'
      rw [hpicks, Outcome.ok_eq_iff] at hpicks'
      subst hpicks'
      exact ⟨pruned_of_ofPicks hsound h.bound hinside hofPicks,
        not_inactiveParent_of_ofPicks hsound hofPicks⟩

/-- A square root is selected from a graph whose activation has been changed before. -/
theorem select_prunes_columnAndRoot :
    (Forest.columnAndRoot : Forest Float).Built ∧
      ∃ g m, (Forest.columnAndRoot : Forest Float).lower.outcome = .ok (g, m) ∧
        ∃ model, (select Forest.columnAndRoot
            (g.afterAll [.setAllActive false, .setDropped 1 true, .setActive 2 true]) m
            (fun feature => feature.op == .sqrt)).outcome = .ok model ∧
          Pruned Forest.columnAndRoot
            (g.afterAll [.setAllActive false, .setDropped 1 true, .setActive 2 true]) m
            (fun feature => feature.op == .sqrt) model := by
  have hbuilt : (Forest.columnAndRoot : Forest Float).Built := Forest.built_columnAndRoot
  obtain ⟨g, m, hlower, h⟩ := select_prunes hbuilt
  refine ⟨hbuilt, g, m, hlower, ?_⟩
  obtain ⟨hfails, _, hprunes⟩ :=
    h [.setAllActive false, .setDropped 1 true, .setActive 2 true]
      fun feature => feature.op == .sqrt
  cases hselect : (select Forest.columnAndRoot
      (g.afterAll [.setAllActive false, .setDropped 1 true, .setActive 2 true]) m
      fun feature => feature.op == .sqrt).outcome with
  | error fault =>
    have hall := hfails.1 ⟨fault, hselect⟩
    have hroot := hall _ (Array.mem_of_getElem? (i := 1) rfl)
    cases hroot
  | ok model => exact ⟨model, rfl, (hprunes model hselect).1⟩

end FeatureGraph.Model
