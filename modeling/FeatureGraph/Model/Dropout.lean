import FeatureGraph.Model.Selection
import FeatureGraph.Random.Source

/-!
# Dropout

A controller decides which nodes of a graph are dropped.  It is asked anew before
every batch of training and before every estimate of a prediction.  All that it
can reach of the graph is the mask of drop flags.

A controller that fails may have changed the mask already, so its answer carries
the mask, the random source and its own state in any case.
-/

namespace FeatureGraph

/-- The drop flags of a graph with `size` nodes.  The flags are `width` many, which
is the number of nodes in every graph whose columns have one length. -/
structure Mask (size width : Nat) where
  flags : Vector Bool width
deriving DecidableEq, Repr

namespace Mask

variable {size width : Nat}

def isDropped (m : Mask size width) (id : NodeId) : Bool := (m.flags[id]?).getD false

def setDropped (m : Mask size width) (id : NodeId) (value : Bool) :
    Outcome GraphError (Mask size width) :=
  if id < size then
    if h : id < width then .ok ⟨m.flags.set id value⟩ else Outcome.outOfRange
  else Outcome.fail (.unknownNode id)

/-- Restores all nodes. -/
def clear (_ : Mask size width) : Mask size width := ⟨Vector.replicate width false⟩

end Mask

/-- The mask of a graph. -/
def Graph.mask {α : Type} (g : Graph α) : Mask g.size g.table.dropped.size :=
  ⟨⟨g.table.dropped, rfl⟩⟩

/-- The graph under another mask. -/
def Graph.withMask {α : Type} {size width : Nat} (g : Graph α) (m : Mask size width) : Graph α :=
  { g with table := { g.table with dropped := m.flags.toArray } }

/-- What a controller with states of type `γ` leaves behind after one call. -/
structure Sampled (γ σ : Type) (size width : Nat) where
  outcome : Outcome GraphError Unit
  state : γ
  mask : Mask size width
  source : σ

/-- Controllers with states of type `γ` that draw from sources with states of
type `σ`.  They work on masks of any size. -/
structure Controller (γ σ : Type) where
  sample {size width : Nat} : γ → Mask size width → σ → Sampled γ σ size width

namespace Dropout

variable {α σ : Type} [Arith α] {size width : Nat}

/-- The keep probability in use: in the unit interval, and zero for a value that is
not a number. -/
def keepProbability (keep : α) : α := if Arith.isNaN keep then 0 else Arith.clampUnit keep

/-- Draws for the remaining nodes. -/
def bernoulliFrom [RandomSource σ] :
    List (NodeId × α) → Mask size width → σ → Sampled Unit σ size width
  | [], m, s => ⟨.ok (), (), m, s⟩
  | (id, keep) :: rest, m, s =>
    match RandomSource.chance? (keepProbability keep) s with
    | none => ⟨Outcome.outOfRange, (), m, s⟩
    | some (kept, s) =>
      match m.setDropped id (!kept) with
      | .error fault => ⟨.error fault, (), m, s⟩
      | .ok m => bernoulliFrom rest m s

/-- Keeps each listed node with a probability of its own, independently of the
others. -/
def bernoulli [RandomSource σ] (nodes : List (NodeId × α)) : Controller Unit σ where
  sample _ := bernoulliFrom nodes

/-- All selected features with one keep probability. -/
def uniform (selection : List (SelectedFeature α)) (keep : α) : List (NodeId × α) :=
  selection.map fun s => (s.node, keep)

/-- All selected features with their activities as keep probabilities. -/
def byActivity (selection : List (SelectedFeature α)) : List (NodeId × α) :=
  selection.map fun s => (s.node, Arith.clampUnit s.activity)

/-- Drops the remaining nodes. -/
def dropFrom : List NodeId → Mask size width → Outcome GraphError Unit × Mask size width
  | [], m => (.ok (), m)
  | id :: rest, m =>
    match m.setDropped id true with
    | .error fault => (.error fault, m)
    | .ok m => dropFrom rest m

/-- Drops the listed nodes and no others, every time. -/
def fixed (nodes : List NodeId) : Controller Unit σ where
  sample _ m s :=
    let (outcome, m) := dropFrom nodes m.clear
    ⟨outcome, (), m, s⟩

end Dropout

end FeatureGraph
