import FeatureGraph.Proofs.Change

/-!
# Reachable graphs

`Action` lists what can be done to a graph, and `Graph.after` is the graph that is left
behind, whether the action succeeds or fails.  A graph is `Reachable` if a sequence of
actions leads to it from the empty graph.

Every action is a sequence of changes (`changes_after`), and every change keeps a sound graph sound
(`Sound.of_change`).  So every reachable graph is sound.
-/

namespace FeatureGraph

/-- What can be done to a graph.  `appendInput` adds an input whatever the number of
its column; `addInput` is the same below a bound on that number. -/
inductive Action (α : Type) where
  | addInput (name : String)
  | appendInput (name : String)
  | addNode (op : Primitive) (parents : List NodeId) (name : String)
  | addOutput (parents : List NodeId) (name : String)
  | addTarget (name : String)
  | addObjective (output target : NodeId) (name : String)
  | setParams (id : NodeId) (params : List α)
  | setConstant (id : NodeId) (value : Bool)
  | setActive (id : NodeId) (value : Bool)
  | setAllActive (value : Bool)
  | activateBranch (id : NodeId)
  | activateOnly (keep : List NodeId)
  | bypassInactive
  | setDropped (id : NodeId) (value : Bool)
  | clearDropped
  | evaluate (x : Matrix α) (y : Option (List α))
  | gradients (x : Matrix α) (y : List α)
  | optimize (optimizer : Optimizer α) (x : Matrix α) (y : List α) (n : Nat) (rate : α)

namespace Graph

variable {α : Type}

/-- The graph that a failing operation leaves behind is the old one. -/
def leftBy (g : Graph α) : Outcome GraphError (Graph α) → Graph α
  | .ok g' => g'
  | .error _ => g

section Actions

variable [Arith α]

/-- The graph after an action, successful or not. -/
def after (g : Graph α) : Action α → Graph α
  | .addInput name => g.leftBy ((g.addInput name).map Prod.snd)
  | .appendInput name => (g.appendInput name).2
  | .addNode op parents name => g.leftBy ((g.addNode op parents name).map Prod.snd)
  | .addOutput parents name => g.leftBy ((g.addOutput parents name).map Prod.snd)
  | .addTarget name => (g.addTarget name).2
  | .addObjective output target name =>
    g.leftBy ((g.addObjective output target name).map Prod.snd)
  | .setParams id params => g.leftBy (g.setParams id params)
  | .setConstant id value => g.leftBy (g.setConstant id value)
  | .setActive id value => g.leftBy (g.setActive id value)
  | .setAllActive value => g.setAllActive value
  | .activateBranch id => g.leftBy ((g.activateBranch id).map Prod.snd)
  | .activateOnly keep => g.activateOnly keep
  | .bypassInactive => g.leftBy (g.bypassInactive.map Prod.snd)
  | .setDropped id value => g.leftBy (g.setDropped id value)
  | .clearDropped => g.clearDropped
  | .evaluate x y => (g.evaluate x y).2
  | .gradients x y => (g.gradients x y).2
  | .optimize optimizer x y n rate => (optimizer.run g x y n rate).1.graph

/-- A graph to which a sequence of actions leads from the empty graph. -/
inductive Reachable : Graph α → Prop where
  | empty : Reachable Graph.empty
  | after {g : Graph α} (h : Reachable g) (a : Action α) : Reachable (g.after a)

end Actions

/-! ## Actions as changes -/

section Changes

variable [Arith α] {g : Graph α}

/-- An operation that makes changes when it succeeds makes them, or leaves the graph alone. -/
theorem changes_leftBy {outcome : Outcome GraphError (Graph α)}
    (h : ∀ g', outcome = .ok g' → g.Change g') : g.Changes (g.leftBy outcome) := by
  cases outcome with
  | error fault => exact .refl
  | ok g' => exact .single (h g' rfl)

/-- The same for an operation that answers something else beside the graph. -/
theorem changes_leftBy_map {β : Type} {outcome : Outcome GraphError (β × Graph α)}
    (h : ∀ p, outcome = .ok p → g.Change p.2) :
    g.Changes (g.leftBy (outcome.map Prod.snd)) := by
  refine changes_leftBy fun g' hg' => ?_
  obtain ⟨p, hp, rfl⟩ := Outcome.map_eq_ok.1 hg'
  exact h p hp

/-- Every action is a sequence of changes. -/
theorem changes_after (g : Graph α) (a : Action α) : g.Changes (g.after a) := by
  cases a with
  | addInput name => exact changes_leftBy_map fun _ => change_addInput
  | appendInput name => exact .single (g.change_appendInput name)
  | addNode op ps name => exact changes_leftBy_map fun _ => change_addNode
  | addOutput ps name => exact changes_leftBy_map fun _ => change_addOutput
  | addTarget name => exact .single (g.change_addTarget name)
  | addObjective output target name => exact changes_leftBy_map fun _ => change_addObjective
  | setParams id ps => exact changes_leftBy fun _ => change_setParams
  | setConstant id value => exact changes_leftBy fun _ => change_setConstant
  | setActive id value => exact changes_leftBy fun _ => change_setActive
  | setAllActive value => exact .single (.active (by simp))
  | activateBranch id => exact changes_leftBy_map fun _ => change_activateBranch
  | activateOnly keep => exact .single (.active (by simp))
  | bypassInactive => exact changes_leftBy_map fun _ => change_bypassInactive
  | setDropped id value => exact changes_leftBy fun _ => change_setDropped
  | clearDropped => exact .single g.change_clearDropped
  | evaluate x y => exact .single (g.change_evaluate x y)
  | gradients x y => exact g.changes_gradients x y
  | optimize o x y n rate => exact o.changes_run g x y n rate

end Changes

namespace Sound

variable {g g' : Graph α}

/-! ## Sound graphs -/

theorem replaceConstant (hg : g.Sound) (id : NodeId) (value : Bool) :
    (g.replaceConstant id value).Sound :=
  hg.of_sameShape (hg.table.withConstant (by simp)) ⟨rfl, rfl, rfl, rfl, rfl⟩

theorem withActive (hg : g.Sound) {column : Array Bool}
    (hsize : column.size = g.table.active.size) : (g.withActive column).Sound :=
  of_table (hg.table.withActive hsize) rfl

theorem activateOnly (hg : g.Sound) (keep : List NodeId) : (g.activateOnly keep).Sound :=
  hg.withActive (by simp)

/-- The tape of a pass is the one that the table compiles to. -/
theorem currentTape_eq (hg : g.Sound) : g.currentTape = g.table.compile :=
  hg.compiled.currentTape_eq

variable [Arith α]

/-- Every change keeps the invariant. -/
theorem of_change (hg : g.Sound) (h : g.Change g') : g'.Sound := by
  refine ⟨?_, hg.compiled.of_change h⟩
  cases h with
  | caches htable => exact htable ▸ hg.table
  | @node _ _ _ name hps hop htable => exact htable ▸ hg.table.addNode name hps hop
  | params id hcounts =>
    exact hg.table.setParams id (hg.table.wellFormed.length_of_counts hcounts)
  | flags hconstant hdropped => exact (hg.table.withConstant hconstant).withDropped hdropped
  | active hsize => exact hg.table.withActive hsize

theorem of_changes (hg : g.Sound) (h : g.Changes g') : g'.Sound :=
  h.keep hg fun _ _ => of_change

theorem push (hg : g.Sound) {op : Primitive} {ps : List NodeId} (name : String)
    (hps : ∀ p ∈ ps, p < g.size) (hop : op.admits ps.length = true) :
    (g.push op ps name).2.Sound :=
  hg.of_change (.node hps hop rfl rfl)

theorem appendInput (hg : g.Sound) (name : String) : (g.appendInput name).2.Sound :=
  hg.of_change (g.change_appendInput name)

theorem pushOutput (hg : g.Sound) {ps : List NodeId} (name : String)
    (hps : ∀ p ∈ ps, p < g.size) (hne : ps ≠ []) : (g.pushOutput ps name).Sound :=
  hg.of_change (change_addOutput (addOutput_eq_ok.2 ⟨hps, hne, rfl⟩))

theorem setParams (hg : g.Sound) {id : NodeId} {ps : List α} (h : g.setParams id ps = .ok g') :
    g'.Sound :=
  hg.of_change (change_setParams h)

theorem evaluate (hg : g.Sound) (x : Matrix α) (y : Option (List α)) :
    (g.evaluate x y).2.Sound :=
  hg.of_change (g.change_evaluate x y)

theorem gradients (hg : g.Sound) (x : Matrix α) (y : List α) : (g.gradients x y).2.Sound :=
  hg.of_changes (g.changes_gradients x y)

theorem step (hg : g.Sound) (o : Optimizer α) (x : Matrix α) (y : List α) (rate : α)
    (nodes : List NodeId) : (o.step g x y rate nodes).graph.Sound :=
  hg.of_changes (o.changes_step g x y rate nodes)

/-- Every action keeps the invariant. -/
theorem after (hg : g.Sound) (a : Action α) : (g.after a).Sound :=
  hg.of_changes (g.changes_after a)

end Sound

section Example

variable [Arith α]

/-- A line through the data: an input, an output over it, a target and their error. -/
def lineFit : Graph α :=
  (((empty.after (.addInput "x")).after (.addOutput [0] "line")).after
    (.addTarget "y")).after (.addObjective 1 2 "error")

theorem reachable_lineFit : (lineFit : Graph α).Reachable :=
  .after (.after (.after (.after .empty _) _) _) _

end Example

/-- Every reachable graph is sound. -/
theorem Reachable.sound [Arith α] {g : Graph α} (h : g.Reachable) : g.Sound := by
  induction h with
  | empty => exact sound_empty
  | after _ a ih => exact ih.after a

end Graph

end FeatureGraph
