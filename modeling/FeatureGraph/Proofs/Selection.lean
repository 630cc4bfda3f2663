import FeatureGraph.Proofs.Agreement
import FeatureGraph.Proofs.Ancestry
import FeatureGraph.Proofs.Wiring
import FeatureGraph.Arith.Double

/-!
# Models of selected features

Selecting features keeps of a graph what the selected features depend on, and wires an
output over their nodes.

* `ofPicks_eq_ok` says when picked features can be made into a model, and into which.
* `of_build_eq_ok` takes a model that has been built apart into the stages that it has
  been through.
* `exists_build` is the converse: a build fails for no other reason than a stage that refuses.
* `columnModel` is the model of a single column, made in full.
-/

namespace FeatureGraph

variable {α : Type} [Arith α]

/-- The features that satisfy a predicate with their positions, in the order of the forest. -/
def Forest.satisfying (f : Forest α) (keep : Feature α → Bool) : List (Nat × Feature α) :=
  f.entries.filter fun entry => keep entry.2

/-- The selected features with their positions, in the order of the forest. -/
def Forest.ofQuality (f : Forest α) (quality : α) : List (Nat × Feature α) :=
  f.entries.filter fun entry => qualityAtLeast quality entry.2

/-- A feature of enough quality is selected. -/
theorem Forest.ofQuality_ne_nil {f : Forest α} {quality : α} {i : Nat} {feature : Feature α}
    (hget : f.get? i = some feature) (hle : qualityAtLeast quality feature = true) :
    f.ofQuality quality ≠ [] :=
  List.ne_nil_of_mem (List.mem_filter.2 ⟨Forest.mem_entries.2 hget, hle⟩)

omit [Arith α] in
/-- Stages one after the other succeed exactly if each of them does. -/
theorem Report.andThen_eq_ok {β γ : Type} {r : Report α β} {next : β → Report α γ} {c : γ} :
    (r.andThen next).outcome = .ok c ↔ ∃ b, r.outcome = .ok b ∧ (next b).outcome = .ok c := by
  unfold Report.andThen
  cases hr : r.outcome with
  | error fault => simp
  | ok b => simp

namespace Model

/-! ## Selecting -/

/-- The picked features are those that satisfy the predicate, with the nodes that stand for
them. -/
theorem picks_satisfying {f : Forest α} {g : Graph α} {m : NodeMapping} {node : Nat → NodeId}
    (h : Lowering.Lowered f f.size g m node) (keep : Feature α → Bool) :
    picks f m keep =
      .ok ((f.satisfying keep).map fun entry => ⟨entry.1, entry.2, node entry.1⟩) := by
  refine Outcome.mapM_ok fun entry hentry => ?_
  obtain ⟨k, hk, rfl⟩ := List.getElem_of_mem (List.mem_of_mem_filter hentry)
  have hposition := (Forest.get?_of_getElem_entries hk).1
  have hbound := h.bound k (by simpa using hk)
  simp only [hposition, hbound]

/-- The picked features are the selected ones. -/
theorem picks_eq_ok {f : Forest α} {g : Graph α} {m : NodeMapping} {node : Nat → NodeId}
    (h : Lowering.Lowered f f.size g m node) (quality : α) :
    picks f m (qualityAtLeast quality) =
      .ok ((f.ofQuality quality).map fun entry => ⟨entry.1, entry.2, node entry.1⟩) :=
  picks_satisfying h (qualityAtLeast quality)

/-- Picked features make a model if their nodes have an ancestry and an output can be wired
over it. -/
theorem ofPicks_eq_ok {f : Forest α} {g : Graph α} {m : NodeMapping} {picked : List (Pick α)}
    {model : Model α} :
    ofPicks f g m picked = .ok model ↔
      ∃ kept w, (g.table.ancestry (picked.map (·.node)) : Outcome GraphError (List NodeId)) =
          .ok kept ∧
        wire (g.activateOnly kept) (picked.map (·.node))
          (picked.map fun p => initialWeight picked.length p.feature.coverage) = .ok w ∧
        model = {
          graph := w.graph
          mapping := m
          selection := picked.map (selectedFeature picked.length)
          stats := statsOf (picked.map (selectedFeature picked.length)) f.size kept.length
          output := w.output
          target := w.target
          objective := w.objective } := by
  simp only [ofPicks, Outcome.bind_eq_ok, Outcome.mapFailure_eq_ok, Outcome.pure_eq_ok,
    Outcome.ok_eq_iff, List.map_map]
  constructor
  · rintro ⟨kept, hkept, w, hwire, hmodel⟩
    exact ⟨kept, w, hkept, hwire, hmodel⟩
  · rintro ⟨kept, w, hkept, hwire, hmodel⟩
    exact ⟨kept, hkept, w, hwire, hmodel⟩

/-- The graph of a model is wired over what has been picked. -/
theorem wired_of_ofPicks_eq_ok {f : Forest α} {g : Graph α} {m : NodeMapping}
    {picked : List (Pick α)} {model : Model α} (hg : g.Sound)
    (h : ofPicks f g m picked = .ok model) :
    ∃ kept w, Wired (g.activateOnly kept) (picked.map (·.node))
        (picked.map fun p => initialWeight picked.length p.feature.coverage) w ∧
      model.graph = w.graph ∧ model.output = w.output := by
  obtain ⟨kept, w, _, hwire, rfl⟩ := ofPicks_eq_ok.1 h
  exact ⟨kept, w, wired_of_wire_eq_ok (hg.activateOnly kept) hwire, rfl, rfl⟩

theorem of_select_eq_ok {f : Forest α} {g : Graph α} {m : NodeMapping} {keep : Feature α → Bool}
    {model : Model α} (h : (select f g m keep).outcome = .ok model) :
    ∃ picked, picks f m keep = .ok picked ∧ picked ≠ [] ∧ ofPicks f g m picked = .ok model := by
  unfold select at h
  dsimp only at h
  split at h
  · cases h
  · rename_i answer _ hrun
    have hanswer : answer = model := Except.ok.inj h
    obtain ⟨picked, hpicks, hrun⟩ := Outcome.bind_eq_ok.1 hrun
    refine ⟨picked, hpicks, ?_⟩
    cases picked with
    | nil => cases hrun
    | cons p rest =>
      obtain ⟨model', hmodel, hrun⟩ := Outcome.bind_eq_ok.1 hrun
      obtain ⟨events, _, hrun⟩ := Outcome.bind_eq_ok.1 hrun
      rw [Outcome.pure_eq_ok, Outcome.ok_eq_iff, Prod.mk.injEq] at hrun
      exact ⟨by simp, by rw [hmodel, ← hanswer, hrun.1]⟩

/-- The stages that a model has been through: its forest has been lowered, the graph has
passed the check, and an output has been wired over the nodes of the selected features. -/
theorem of_build_eq_ok {f : Forest α} (hf : f.Sound) {x : Matrix α} {tolerance quality : α}
    {model : Model α} (h : (build f x tolerance quality).outcome = .ok model) :
    ∃ g m node a kept w, Lowering.Lowered f f.size g m node ∧
      (Agreement.check f g m x tolerance).1.outcome = .ok a ∧ f.ofQuality quality ≠ [] ∧
      Wired ((g.evaluate x none).2.activateOnly kept)
        ((f.ofQuality quality).map fun entry => node entry.1)
        ((f.ofQuality quality).map fun entry =>
          initialWeight (f.ofQuality quality).length entry.2.coverage) w ∧
      model.graph = w.graph ∧ model.output = w.output := by
  obtain ⟨g, m, node, hlower, hlowered⟩ := hf.exists_lower
  obtain ⟨⟨g', m'⟩, hlower', h⟩ := Report.andThen_eq_ok.1 h
  obtain ⟨rfl, rfl⟩ := Prod.mk.inj (Except.ok.inj (hlower.symm.trans hlower'))
  obtain ⟨a, hcheck, h⟩ := Report.andThen_eq_ok.1 h
  obtain ⟨picked, hpicks, hne, hmodel⟩ := of_select_eq_ok h
  rw [picks_eq_ok hlowered, Outcome.ok_eq_iff] at hpicks
  subst hpicks
  obtain ⟨kept, w, hwired, hgraph, houtput⟩ :=
    wired_of_ofPicks_eq_ok (hlowered.intact.sound.evaluate x none) hmodel
  refine ⟨g, m, node, a, kept, w, hlowered, hcheck, by simpa using hne, ?_, hgraph, houtput⟩
  rw [List.map_map, List.map_map, List.length_map] at hwired
  exact hwired

/-! ## Success -/

omit [Arith α] in
/-- What is left active when only some nodes are kept. -/
theorem mem_activeIds_activateOnly {g : Graph α} (hg : g.Sound) {kept : List NodeId} {id : NodeId} :
    id ∈ (g.activateOnly kept).table.activeIds ↔ id < g.size ∧ id ∈ kept := by
  have hactive := hg.table.active
  simp only [NodeTable.activeIds, List.mem_filter, List.mem_range]
  refine and_congr_right fun hid => ?_
  have hinside : id < g.table.active.size := hactive.symm ▸ hid
  simp [Graph.activateOnly, Graph.withActive, hinside]

omit [Arith α] in
/-- Nodes that hold the parents of each of them can be kept without the others. -/
theorem closed_activateOnly {g : Graph α} (hg : g.Sound) {kept : List NodeId}
    (h : g.table.ParentClosed (· ∈ kept)) : (g.activateOnly kept).table.Closed := by
  intro id hid p hp
  rw [mem_activeIds_activateOnly hg] at hid ⊢
  exact ⟨hg.table.parent_lt_size hp, h id hid.2 p hp⟩

/-- Any features that have nodes can be made into a model. -/
theorem exists_ofPicks {f : Forest α} {g : Graph α} {m : NodeMapping} {picked : List (Pick α)}
    (hg : g.Sound) (hne : picked ≠ []) (hinside : ∀ p ∈ picked, p.node < g.size) :
    ∃ model events, ofPicks f g m picked = .ok model ∧ model.events = .ok events := by
  have hnodes : ∀ p ∈ picked.map (·.node), p < g.size := by
    intro p hp
    obtain ⟨pick, hpick, rfl⟩ := List.mem_map.1 hp
    exact hinside pick hpick
  obtain ⟨kept, hkept, hwalked⟩ :=
    NodeTable.exists_ancestry (ε := GraphError) hg.table.wellFormed hnodes
  have hactivated := hg.activateOnly kept
  have hclosed : (g.activateOnly kept).table.Closed := closed_activateOnly hg hwalked.closed
  have hactive : ∀ p ∈ picked.map (·.node), p ∈ (g.activateOnly kept).table.activeIds :=
    fun p hp => (mem_activeIds_activateOnly hg).2 ⟨hnodes p hp, hwalked.keepsStack p hp⟩
  have hwirable : Wirable (g.activateOnly kept) (picked.map (·.node))
      ((picked.map (selectedFeature picked.length)).map (·.weight)) :=
    ⟨hactivated, hnodes, by simpa using hne, by simp⟩
  obtain ⟨w, hwire⟩ := hwirable.exists_wire hclosed hactive
  have hnode := (wired_of_wire_eq_ok hactivated hwire).node
  have hop : w.graph.op w.output = .ok .output := by
    have hlt : w.output < w.graph.size := (Array.getElem?_eq_some_iff.1 hnode.op).1
    rw [Graph.op, Outcome.check_bind_eq_ok]
    exact ⟨Graph.checkNode_eq_ok.2 hlt, Outcome.fetch_eq_ok.2 hnode.op⟩
  rw [List.map_map] at hwire
  exact ⟨_, _, ofPicks_eq_ok.2 ⟨kept, w, hkept, hwire, rfl⟩,
    Outcome.bind_eq_ok.2 ⟨.output, by rw [hop, Outcome.mapFailure_ok], rfl⟩⟩

/-- Picked features that can be made into a model are selected. -/
theorem select_of_ofPicks {f : Forest α} {g : Graph α} {m : NodeMapping} {keep : Feature α → Bool}
    {picked : List (Pick α)} {model : Model α} (hpicks : picks f m keep = .ok picked)
    (hne : picked ≠ []) (hmodel : ofPicks f g m picked = .ok model) {events : List (Event α)}
    (hevents : model.events = .ok events) : (select f g m keep).outcome = .ok model := by
  have hisEmpty : picked.isEmpty = false := by simpa using hne
  unfold select
  simp only [hpicks, Outcome.ok_bind, hisEmpty, Bool.false_eq_true, if_false, hmodel, hevents,
    Outcome.pure_eq_ok]

/-- Selecting succeeds if some features are picked, and they have nodes. -/
theorem exists_select_of_picks {f : Forest α} {g : Graph α} {m : NodeMapping}
    {keep : Feature α → Bool} {picked : List (Pick α)} (hg : g.Sound)
    (hpicks : picks f m keep = .ok picked) (hne : picked ≠ [])
    (hinside : ∀ p ∈ picked, p.node < g.size) :
    ∃ model, (select f g m keep).outcome = .ok model := by
  obtain ⟨model, events, hmodel, hevents⟩ := exists_ofPicks (f := f) (m := m) hg hne hinside
  exact ⟨model, select_of_ofPicks hpicks hne hmodel hevents⟩

/-- Selecting succeeds if some feature has the quality. -/
theorem exists_select {f : Forest α} {g g' : Graph α} {m : NodeMapping} {node : Nat → NodeId}
    {quality : α} (h : Lowering.Lowered f f.size g m node) (hg : g'.Sound)
    (hsize : g'.size = g.size) (hne : f.ofQuality quality ≠ []) :
    ∃ model, (select f g' m (qualityAtLeast quality)).outcome = .ok model := by
  set picked := (f.ofQuality quality).map fun entry => (⟨entry.1, entry.2, node entry.1⟩ : Pick α)
    with hpicked
  have hpicks : picks f m (qualityAtLeast quality) = .ok picked := picks_eq_ok h quality
  have hnonempty : picked ≠ [] := by simpa [hpicked] using hne
  have hinside : ∀ p ∈ picked, p.node < g'.size := by
    intro p hp
    obtain ⟨entry, hentry, rfl⟩ := List.mem_map.1 hp
    obtain ⟨k, hk, rfl⟩ := List.getElem_of_mem (List.mem_of_mem_filter hentry)
    rw [hsize, (Forest.get?_of_getElem_entries hk).1]
    exact h.inside k (by simpa using hk)
  exact exists_select_of_picks hg hpicks hnonempty hinside

/-- A model can be built if no feature takes the square root of a negative argument and some
feature has the quality. -/
theorem exists_build [LoweringLaws α] {f : Forest α} (hf : f.Sound) {x : Matrix α}
    {tolerance quality : α} (hx : f.rootCount ≤ x.nCols)
    (htolerance : Arith.lt tolerance 0 = false)
    (hnone : ∀ i, ∀ r : Fin x.nRows, ¬f.SqrtOfNegative (x.row r) i)
    (hne : f.ofQuality quality ≠ []) :
    ∃ model, (build f x tolerance quality).outcome = .ok model := by
  obtain ⟨g, m, node, hlower, h⟩ := hf.exists_lower
  have hcheck := Agreement.check_eq_ok h hf hx htolerance hnone
  have hevaluated := h.intact.sound.evaluate x none
  have hsize : (g.evaluate x none).2.size = g.size := by
    rw [Graph.evaluate_snd h.intact.sound (Agreement.evaluate_of_check_eq_ok hcheck)]
    rfl
  obtain ⟨model, hselect⟩ := exists_select h hevaluated hsize hne
  exact ⟨model, Report.andThen_eq_ok.2 ⟨(g, m), hlower,
    Report.andThen_eq_ok.2 ⟨_, hcheck, hselect⟩⟩⟩

end Model

/-! ## The model of a single column -/

/-- A single column. -/
def Forest.oneColumn : Forest α :=
  Forest.empty.push ⟨"a", .identity, [], true, 1, 1, 0, 0⟩

namespace Model

/-- The graph and the mapping that the column is lowered to. -/
def loweredColumn : Graph Float × NodeMapping :=
  match (Forest.oneColumn : Forest Float).lower.outcome with
  | .ok p => p
  | .error _ => (.empty, ⟨[]⟩)

theorem lower_oneColumn : (Forest.oneColumn : Forest Float).lower.outcome = .ok loweredColumn :=
  rfl

/-- The graph of the column, with the scaling dropped or not. -/
def droppedColumn (dropped : Bool) : Graph Float := loweredColumn.1.replaceDropped 1 dropped

theorem setDropped_loweredColumn (dropped : Bool) :
    loweredColumn.1.setDropped 1 dropped = .ok (droppedColumn dropped) :=
  rfl

/-- The column as it is picked. -/
def pickedColumn : List (Pick Float) := [⟨0, ⟨"a", .identity, [], true, 1, 1, 0, 0⟩, 1⟩]

theorem picks_oneColumn :
    picks (Forest.oneColumn : Forest Float) loweredColumn.2 (fun _ => true) = .ok pickedColumn :=
  rfl

/-- An output over the column in a graph that may have other nodes, with a target and an
objective. -/
def columnWiring (g : Graph Float) : Outcome GraphError (Wiring Float) :=
  wire (g.activateOnly [0, 1]) [1] [initialWeight 1 0]

/-- The model of the column in such a graph. -/
def modelOfColumn (g : Graph Float) : Model Float :=
  let w := (columnWiring g).toOption.getD ⟨.empty, 0, 0, 0⟩
  { graph := w.graph
    mapping := loweredColumn.2
    selection := pickedColumn.map (selectedFeature 1)
    stats := statsOf (pickedColumn.map (selectedFeature 1)) 1 2
    output := w.output
    target := w.target
    objective := w.objective }

/-- Selecting the column makes its model, if the output can be wired. -/
theorem select_modelOfColumn {g : Graph Float}
    (hinput : (g.table.parents 0 : Outcome GraphError (List NodeId)) = .ok [])
    (hscaling : (g.table.parents 1 : Outcome GraphError (List NodeId)) = .ok [0])
    (hsize : 1 < g.table.parentSpans.size) (hwire : (columnWiring g).isOk = true)
    (hevents : (modelOfColumn g).events.isOk = true) :
    (select (Forest.oneColumn : Forest Float) g loweredColumn.2 fun _ => true).outcome =
      .ok (modelOfColumn g) := by
  have hancestry : (g.table.ancestry [1] : Outcome GraphError (List NodeId)) = .ok [0, 1] := by
    have hsize' : 0 < g.table.parentSpans.size := Nat.lt_trans Nat.zero_lt_one hsize
    simp [NodeTable.ancestry, NodeTable.collectAncestry, hinput, hscaling, hsize, hsize']
  obtain ⟨w, hw⟩ : ∃ w, columnWiring g = .ok w := by
    cases hrun : columnWiring g with
    | ok w => exact ⟨w, rfl⟩
    | error fault => rw [hrun] at hwire; cases hwire
  have hmodel : ofPicks (Forest.oneColumn : Forest Float) g loweredColumn.2 pickedColumn =
      .ok (modelOfColumn g) := by
    refine ofPicks_eq_ok.2 ⟨_, w, hancestry, hw, ?_⟩
    rw [modelOfColumn, hw]
    rfl
  cases hrun : (modelOfColumn g).events with
  | ok events => exact select_of_ofPicks picks_oneColumn (by decide) hmodel hrun
  | error fault => rw [hrun] at hevents; cases hevents

/-- The model of the column, with the scaling dropped or not. -/
def columnModel (dropped : Bool) : Model Float := modelOfColumn (droppedColumn dropped)

theorem select_oneColumn (dropped : Bool) :
    (select (Forest.oneColumn : Forest Float) (droppedColumn dropped) loweredColumn.2
      fun _ => true).outcome = .ok (columnModel dropped) :=
  select_modelOfColumn rfl rfl (show 1 < 2 by decide) (by cases dropped <;> decide +kernel)
    (by cases dropped <;> decide +kernel)

end Model

end FeatureGraph
