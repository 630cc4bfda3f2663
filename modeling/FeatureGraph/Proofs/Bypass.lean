import FeatureGraph.Proofs.Prediction
import FeatureGraph.Proofs.Response

/-!
# Bypassed nodes

What a pass bypasses has no influence on the rest.

* `vals?_activateOnly` says that the column of an active node does not depend on which other
  nodes are active, and `vals?_of_select` that selecting features leaves their columns alone.
* `AlikeOn.alter` says that whatever is done to inactive nodes leaves a graph that is alike on
  the active ones, so that no pass and no descent can tell the two apart.
* `bypassed_has_no_influence` puts the two together, for graphs that actions lead to.
-/

namespace FeatureGraph

variable {α : Type} [Arith α]

/-- Whether an action changes parameters or flags of a node without the property, and nothing
else. -/
def Action.AltersOutside (P : NodeId → Prop) : Action α → Prop
  | .setParams id _ | .setConstant id _ | .setDropped id _ => ¬P id
  | _ => False

namespace Graph

/-! ## Other active nodes -/

/-- An active node has the same column whatever else is active. -/
theorem vals?_activateOnly {g : Graph α} (hg : g.Sound) {kept : List NodeId} {x : Matrix α}
    {y : Option (List α)} (hpass : ((g.activateOnly kept).evaluate x y).1 = .ok ())
    {id : NodeId} (hid : id < g.size) (hkept : id ∈ kept) :
    ((g.activateOnly kept).evaluate x y).2.vals? id = some (g.table.columnAt x y id) := by
  have hsound := hg.activateOnly kept
  have hactive : (g.activateOnly kept).isActive id = true :=
    (isActive_iff_mem_activeIds hsound).2 ((Model.mem_activeIds_activateOnly hg).2 ⟨hid, hkept⟩)
  rw [vals?_evaluate hsound hpass, if_pos hactive]
  simp only [NodeTable.columnAt, Model.valueAt_activateOnly]

end Graph

namespace Model

/-- Selecting features leaves their columns alone. -/
theorem vals?_of_select {f : Forest α} {g : Graph α} (hg : g.Sound) {m : NodeMapping}
    {keep : Feature α → Bool} {model : Model α}
    (hselect : (select f g m keep).outcome = .ok model) {x : Matrix α} {y : Option (List α)}
    (hpass : (g.evaluate x y).1 = .ok ()) (hpass' : (model.graph.evaluate x y).1 = .ok ())
    {s : SelectedFeature α} (hs : s ∈ model.selection) (hactive : g.isActive s.node = true) :
    (g.evaluate x y).2.vals? s.node = some (g.table.columnAt x y s.node) ∧
      (model.graph.evaluate x y).2.vals? s.node = some (g.table.columnAt x y s.node) := by
  obtain ⟨picked, _, _, hmodel⟩ := of_select_eq_ok hselect
  obtain ⟨kept, w, _, hwire, rfl⟩ := ofPicks_eq_ok.1 hmodel
  have hwired := wired_of_wire_eq_ok (hg.activateOnly kept) hwire
  obtain ⟨pick, hpick, rfl⟩ := List.mem_map.1 hs
  have hmem : pick.node ∈ picked.map (·.node) := List.mem_map_of_mem hpick
  -- the output is active, and so are its parents
  have houtput := (Graph.isActive_iff_mem_activeIds hwired.sound).1 hwired.active
  have hnode : pick.node ∈ w.graph.table.activeIds :=
    hwired.closed _ houtput _ (hwired.node.parents.symm ▸ hmem)
  have hvalue : ∀ s, w.graph.table.valueAt s pick.node = g.table.valueAt s pick.node := fun s =>
    (hwired.agree.valueAt s (hwired.wirable.inside _ hmem)).trans (valueAt_activateOnly g kept s _)
  constructor
  · rw [Graph.vals?_evaluate hg hpass]
    exact if_pos hactive
  · have hon := (Graph.isActive_iff_mem_activeIds hwired.sound).2 hnode
    rw [Graph.vals?_evaluate hwired.sound hpass']
    refine (if_pos hon).trans (congrArg some (List.ofFn_inj.2 (funext fun r => ?_)))
    exact hvalue _

/-- The graph of a model can be evaluated on rows with a column for each input. -/
theorem evaluate_of_select {f : Forest α} {g : Graph α} (hg : g.Sound) {m : NodeMapping}
    {keep : Feature α → Bool} {model : Model α}
    (hselect : (select f g m keep).outcome = .ok model) {x : Matrix α}
    (hinputs : ∀ (id : NodeId) (column : Nat), g.table.ops[id]? = some (.input column) →
      column < x.nCols) : (model.graph.evaluate x none).1 = .ok () := by
  obtain ⟨picked, _, _, hmodel⟩ := of_select_eq_ok hselect
  obtain ⟨kept, w, hwired, hgraph, _⟩ := wired_of_ofPicks_eq_ok hg hmodel
  rw [hgraph]
  exact hwired.evaluate_eq_ok hinputs

end Model

namespace Graph

/-! ## Other data of inactive nodes -/

section Altering

variable {P : NodeId → Prop} {g g' : Graph α}

/-- An action on a node on which the graphs need not be alike. -/
theorem AlikeOn.after (h : AlikeOn P g g') (hg : g'.Sound) {a : Action α}
    (ha : a.AltersOutside P) : AlikeOn P g (g'.after a) := by
  cases a with
  | setParams id ps =>
    rw [Graph.after]
    cases hset : g'.setParams id ps with
    | error fault => exact h
    | ok g₁ => exact ((setParams_eq_ok hg.table).1 hset).2 ▸ h.replaceParams ha ps
  | setConstant id value =>
    rw [Graph.after]
    cases hset : g'.setConstant id value with
    | error fault => exact h
    | ok g₁ => exact ((setConstant_eq_ok hg.table).1 hset).2 ▸ h.replaceConstant ha value
  | setDropped id value =>
    rw [Graph.after]
    cases hset : g'.setDropped id value with
    | error fault => exact h
    | ok g₁ => exact ((setDropped_eq_ok hg.table).1 hset).2 ▸ h.replaceDropped ha value
  | _ => cases ha

/-- Whatever is done to the inactive nodes of a graph leaves it alike on the active ones. -/
theorem AlikeOn.alter (h : AlikeOn P g g') (hg : g'.Sound) {acts : List (Action α)}
    (hacts : ∀ a ∈ acts, a.AltersOutside P) : AlikeOn P g (g'.afterAll acts) := by
  induction acts generalizing g' with
  | nil => exact h
  | cons a acts ih =>
    have hnext := h.after hg (hacts a (by simp))
    have hsound := hg.after a
    rw [← Edit.on_perform hg.table] at hnext hsound
    exact ih hnext hsound fun b hb => hacts b (by simp [hb])

end Altering

/-- Bypassed nodes have no influence.  A node that is active in two evaluations of a graph has
the same column in both, whatever else is active, and selecting features leaves their columns
alone.  A graph that differs in parameters and flags of inactive nodes only answers the same to
every pass and descent, after any others, and shows the same values, loss and parameters. -/
theorem bypassed_has_no_influence {g : Graph α} (hg : g.Reachable) :
    (∀ (A B : List NodeId) (x : Matrix α) (y : Option (List α)), (∀ id ∈ A, id ∈ B) →
      ((g.activateOnly A).evaluate x y).1 = .ok () →
      ((g.activateOnly B).evaluate x y).1 = .ok () →
      ∀ id ∈ A, id < g.size → ∃ column,
        ((g.activateOnly A).evaluate x y).2.vals? id = some column ∧
          ((g.activateOnly B).evaluate x y).2.vals? id = some column) ∧
    (∀ (f : Forest α) (m : NodeMapping) (keep : Feature α → Bool) (model : Model α)
      (x : Matrix α) (y : Option (List α)), (Model.select f g m keep).outcome = .ok model →
      (g.evaluate x y).1 = .ok () → (model.graph.evaluate x y).1 = .ok () →
      ∀ s ∈ model.selection, g.isActive s.node = true → ∃ column,
        (g.evaluate x y).2.vals? s.node = some column ∧
          (model.graph.evaluate x y).2.vals? s.node = some column) ∧
    ∀ g' : Graph α, AlikeOn (fun id => g.isActive id = true) g g' →
      ∀ acts : List (Action α), (∀ a ∈ acts, a.isPass = true) →
        (∀ a : Action α, a.isPass = true →
          ((g'.afterAll acts).respond a).1 = ((g.afterAll acts).respond a).1) ∧
        (∀ id, (g'.afterAll acts).vals? id = (g.afterAll acts).vals? id) ∧
        (g'.afterAll acts).loss? = (g.afterAll acts).loss? ∧
        AlikeOn (fun id => g.isActive id = true) (g.afterAll acts) (g'.afterAll acts) := by
  have hsound := hg.sound
  refine ⟨?_, ?_, ?_⟩
  · intro A B x y hsub hA hB id hid hlt
    exact ⟨_, vals?_activateOnly hsound hA hlt hid, vals?_activateOnly hsound hB hlt (hsub id hid)⟩
  · intro f m keep model x y hselect hpass hpass' s hs hactive
    exact ⟨_, Model.vals?_of_select hsound hselect hpass hpass' hs hactive⟩
  · intro g' halike acts hacts
    have htwins : Twins (fun id => g.isActive id = true) g g' := ⟨halike, hsound, fun _ h => h⟩
    have hafter := htwins.afterAll hacts
    exact ⟨fun a ha => (hafter.respond ha).1, hafter.vals?_eq, hafter.loss?_eq, hafter.toAlikeOn⟩

/-- An input, a power of it that is switched off, and its exponential. -/
def bypassedPower : List (Action Float) :=
  [.addInput "x", .addNode .pow [0] "power", .addNode .exp [0] "exp", .setActive 1 false]

/-- The exponential stands for a square root. -/
def bypassedMapping : NodeMapping := ⟨[⟨0, "a", 0⟩, ⟨1, "sqrt(a)", 2⟩]⟩

/-- Another exponent and other flags for the power. -/
def alteredPower : List (Action Float) :=
  [.setParams 1 [3], .setConstant 1 true, .setDropped 1 true]

/-- The exponential does not depend on the power, and the altered power changes nothing. -/
theorem bypassed_has_no_influence_power :
    (run bypassedPower).Reachable ∧
    (∃ column,
      (((run bypassedPower).activateOnly [0, 2]).evaluate (.ofFn 1 1 fun _ _ => 4) none).2.vals? 2 =
          some column ∧
        (((run bypassedPower).activateOnly [0, 1, 2]).evaluate (.ofFn 1 1 fun _ _ => 4)
          none).2.vals? 2 = some column) ∧
    (∃ model column,
      (Model.select Forest.columnAndRoot (run bypassedPower) bypassedMapping
        fun feature => feature.op == .sqrt).outcome = .ok model ∧
      ((run bypassedPower).evaluate (.ofFn 1 1 fun _ _ => 4) none).2.vals? 2 = some column ∧
        (model.graph.evaluate (.ofFn 1 1 fun _ _ => 4) none).2.vals? 2 = some column) ∧
    (((run bypassedPower).afterAll alteredPower).afterAll
        [.evaluate (.ofFn 1 1 fun _ _ => 4) none]).vals? 2 =
      ((run bypassedPower).afterAll [.evaluate (.ofFn 1 1 fun _ _ => 4) none]).vals? 2 := by
  have hg := reachable_run bypassedPower
  have hops : (run bypassedPower).table.ops = #[.input 0, .pow, .exp] := rfl
  have hsize : (run bypassedPower).size = 3 := rfl
  have hinputs : ∀ (id : NodeId) (column : Nat),
      (run bypassedPower).table.ops[id]? = some (.input column) → column < 1 := by
    intro id column hid
    rw [hops] at hid
    match id, hid with
    | 0, hid => cases hid; decide
    | 1, hid | 2, hid | _ + 3, hid => cases hid
  have hoff : (run bypassedPower).isActive 1 = false := by decide
  obtain ⟨hactivation, hselection, haltered⟩ := bypassed_has_no_influence hg
  refine ⟨hg, ?_, ?_, ?_⟩
  · exact hactivation [0, 2] [0, 1, 2] _ none (by decide) rfl rfl 2 (by decide) (by decide)
  · have hpicks : Model.picks (Forest.columnAndRoot : Forest Float) bypassedMapping
        (fun feature => feature.op == .sqrt) = .ok [⟨1, _, 2⟩] := rfl
    obtain ⟨model, hselect⟩ :=
      Model.exists_select_of_picks hg.sound hpicks (by simp) (by simp [hsize])
    have hpass := Model.evaluate_of_select hg.sound hselect (x := .ofFn 1 1 fun _ _ => 4) hinputs
    obtain ⟨picked, hpicked, _, hmodel⟩ := Model.of_select_eq_ok hselect
    obtain rfl := Outcome.ok_eq_iff.1 (hpicks.symm.trans hpicked)
    obtain ⟨kept, w, _, _, rfl⟩ := Model.ofPicks_eq_ok.1 hmodel
    obtain ⟨column, hcolumns⟩ := hselection _ _ _ _ (.ofFn 1 1 fun _ _ => 4) none hselect rfl hpass
      _ (List.mem_singleton.2 rfl) rfl
    exact ⟨_, column, hselect, hcolumns⟩
  · have houtside : ∀ a ∈ alteredPower,
        a.AltersOutside fun id => (run bypassedPower).isActive id = true := by
      simp [alteredPower, Action.AltersOutside, hoff]
    have halike := (AlikeOn.refl _ (run bypassedPower)).alter hg.sound houtside
    exact (haltered _ halike [.evaluate (.ofFn 1 1 fun _ _ => 4) none]
      (by simp [Action.isPass])).2.1 2

end Graph

end FeatureGraph
