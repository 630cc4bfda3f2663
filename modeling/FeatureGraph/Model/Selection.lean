import FeatureGraph.Graph.Census
import FeatureGraph.Model.Agreement

/-!
# Selected features and models

A model keeps those features of a forest that satisfy a predicate, and of the
graph only what they depend on.  An output weighs the selected features equally,
with the sign of their coverage, and an objective compares the output with a
target.
-/

namespace FeatureGraph

/-- Quality from which a feature is selected by default. -/
def defaultQuality {α : Type} [Arith α] : α := 0.99

/-- Selects features by their quality. -/
def qualityAtLeast {α : Type} [Arith α] (threshold : α) (feature : Feature α) : Bool :=
  Arith.le threshold feature.quality

structure SelectedFeature (α : Type) where
  expr : String
  /-- Position in the forest. -/
  index : Nat
  /-- The node that feeds the output. -/
  node : NodeId
  quality : α
  coverage : α
  activity : α
  /-- Initial weight in the output. -/
  weight : α
deriving DecidableEq, Repr

/-- Figures about one selection. -/
structure SelectionStats (α : Type) where
  selected : Nat
  candidates : Nat
  /-- Number of nodes that the selected features depend on, their own included. -/
  active : Nat
  lowestActivity : α
  highestActivity : α
deriving DecidableEq, Repr

/-- A graph with one output, target and objective over selected features. -/
structure Model (α : Type) where
  graph : Graph α
  mapping : NodeMapping
  selection : List (SelectedFeature α)
  stats : SelectionStats α
  output : NodeId
  target : NodeId
  objective : NodeId

namespace Model

variable {α : Type} [Arith α]

/-- A feature that satisfies the predicate, with its position and its node. -/
structure Pick (α : Type) where
  index : Nat
  feature : Feature α
  node : NodeId

/-- The features that satisfy a predicate, in the order of the forest. -/
def picks (f : Forest α) (m : NodeMapping) (keep : Feature α → Bool) :
    Outcome (ModelError α) (List (Pick α)) :=
  (f.entries.filter fun entry => keep entry.2).mapM fun (i, feature) =>
    match m.getIndex? i with
    | some node => .ok ⟨i, feature, node⟩
    | none => Outcome.fail (.unmapped feature.expr)

/-- Equal weights with the sign of the coverage. -/
def initialWeight (k : Nat) (coverage : α) : α :=
  if Arith.lt 0 coverage then 1 / (k : α) else -1 / (k : α)

def selectedFeature (k : Nat) (p : Pick α) : SelectedFeature α where
  expr := p.feature.expr
  index := p.index
  node := p.node
  quality := p.feature.quality
  coverage := p.feature.coverage
  activity := p.feature.activity
  weight := initialWeight k p.feature.coverage

def statsOf (features : List (SelectedFeature α)) (candidates active : Nat) :
    SelectionStats α where
  selected := features.length
  candidates
  active
  lowestActivity := features.foldl (fun m s => Arith.min m s.activity) Arith.inf
  highestActivity := features.foldl (fun m s => Arith.max m s.activity) (-Arith.inf)

/-- Output, target and objective of a wired graph. -/
structure Wiring (α : Type) where
  graph : Graph α
  output : NodeId
  target : NodeId
  objective : NodeId

/-- Adds an output with the given weights, a target and an objective, and compiles
the tape. -/
def wire (g : Graph α) (nodes : List NodeId) (weights : List α) :
    Outcome GraphError (Wiring α) := do
  let (output, g) ← g.addOutput nodes "output"
  let g ← g.setParams output (weights ++ [0])
  let (target, g) := g.addTarget "target"
  let (objective, g) ← g.addObjective output target "objective"
  let (_, g) ← g.bypassInactive
  return ⟨g, output, target, objective⟩

/-- The model of the picked features. -/
def ofPicks (f : Forest α) (g : Graph α) (m : NodeMapping) (picked : List (Pick α)) :
    Outcome (ModelError α) (Model α) := do
  let nodes := picked.map (·.node)
  let kept ← Outcome.mapFailure .graph (g.table.ancestry nodes)
  let features := picked.map (selectedFeature picked.length)
  let wiring ← Outcome.mapFailure .graph
    (wire (g.activateOnly kept) nodes (features.map (·.weight)))
  return {
    graph := wiring.graph
    mapping := m
    selection := features
    stats := statsOf features f.size kept.length
    output := wiring.output
    target := wiring.target
    objective := wiring.objective }

/-- What is reported about a new model. -/
def events (model : Model α) : Outcome (ModelError α) (List (Event α)) := do
  let kind ← Outcome.mapFailure .graph (model.graph.op model.output)
  return [
    .selected model.stats.selected model.stats.candidates,
    .activated model.stats.active,
    .activityRange model.stats.lowestActivity model.stats.highestActivity,
    .outputKind kind.name]

/-- Keeps the features that satisfy a predicate, and what they depend on. -/
def select (f : Forest α) (g : Graph α) (m : NodeMapping) (keep : Feature α → Bool) :
    Report α (Model α) :=
  let result := do
    let picked ← picks f m keep
    if picked.isEmpty then Outcome.fail (.emptySelection f.size)
    let model ← ofPicks f g m picked
    return (model, ← model.events)
  match result with
  | .error fault => ⟨.error fault, []⟩
  | .ok (model, events) => ⟨.ok model, events⟩

/-- Lowers a forest, checks the graph on the rows of a matrix, and keeps the
features of the given quality. -/
def build (f : Forest α) (x : Matrix α) (tolerance quality : α) : Report α (Model α) :=
  f.lower.andThen fun (g, m) =>
    let (checked, g) := Agreement.check f g m x tolerance
    checked.andThen fun _ => select f g m (qualityAtLeast quality)

/-- The structural summary of the model's graph. -/
def census {ε : Type} (model : Model α) : Outcome ε Census := model.graph.table.census

end Model

end FeatureGraph
