import FeatureGraph.Descent.Optimizer
import FeatureGraph.Model.Dropout

/-!
# Fitting a model

Training runs in batches on shared parameters.  A batch may work on resampled
rows, and a controller may drop nodes for its duration.  `Model.fit` answers the
losses of all batches.

The mask is cleared when a controller was in use and all batches have run, and
when the descent of a batch fails.  A controller that fails itself ends the
training with the mask as it left it.
-/

namespace FeatureGraph

/-- How a model is trained. -/
structure FitPlan (α : Type) where
  /-- The word of the descent method. -/
  method : String
  rate : α
  stepsPerBatch : Nat
  batches : Nat
  /-- Whether every batch draws its rows anew, with replacement. -/
  resample : Bool
deriving DecidableEq, Repr

/-- The plan in use where nothing else is said. -/
def FitPlan.default {α : Type} [Arith α] : FitPlan α := ⟨"steep", 0.001, 100, 1, false⟩

/-- All that training changes. -/
structure FitState (α γ σ : Type) where
  graph : Graph α
  optimizer : Optimizer α
  controller : γ
  source : σ

/-- What training answers and leaves behind. -/
structure Fitted (α γ σ β : Type) where
  outcome : Outcome (ModelError α) β
  state : FitState α γ σ
  events : List (Event α)

namespace Model

variable {α γ σ : Type} [Arith α] [RandomSource σ]

/-- The rows of a batch. -/
def batchRows (plan : FitPlan α) (x : Matrix α) (y : List α) (s : σ) :
    (Matrix α × List α) × σ :=
  if plan.resample then
    let (positions, s) := RandomSource.bootstrap x.nRows s
    ((x.selectRows positions, positions.filterMap (y[·]?)), s)
  else ((x, y), s)

/-- Asks the controller, if there is one, for a new mask. -/
def sampleMask (controller : Option (Controller γ σ)) (g : Graph α) (state : γ) (source : σ) :
    Sampled γ σ g.size g.table.dropped.size :=
  match controller with
  | none => ⟨.ok (), state, g.mask, source⟩
  | some c => c.sample state g.mask source

/-- One batch. -/
def fitBatch (controller : Option (Controller γ σ)) (plan : FitPlan α) (x : Matrix α) (y : List α)
    (batch : Nat) (s : FitState α γ σ) : Fitted α γ σ (Losses α) :=
  let ((xb, yb), source) := batchRows plan x y s.source
  let sampled := sampleMask controller s.graph s.controller source
  let s := { s with
    graph := s.graph.withMask sampled.mask
    controller := sampled.state
    source := sampled.source }
  match sampled.outcome with
  | .error fault => ⟨Outcome.mapFailure .graph (.error fault), s, []⟩
  | .ok () =>
    let (stepped, events) := s.optimizer.run s.graph xb yb plan.stepsPerBatch plan.rate
    let s := { s with graph := stepped.graph, optimizer := stepped.optimizer }
    match stepped.outcome with
    | .error fault =>
      ⟨Outcome.mapFailure .graph (.error fault), { s with graph := s.graph.clearDropped }, events⟩
    | .ok losses => ⟨.ok losses, s, events ++ [.fitted batch losses.initial losses.final]⟩

/-- The remaining `n` batches, from the given number on. -/
def fitFrom (controller : Option (Controller γ σ)) (plan : FitPlan α) (x : Matrix α) (y : List α) :
    Nat → Nat → FitState α γ σ → Fitted α γ σ (List (Losses α))
  | 0, _, s => ⟨.ok [], s, []⟩
  | n + 1, batch, s =>
    let first := fitBatch controller plan x y batch s
    match first.outcome with
    | .error fault => ⟨.error fault, first.state, first.events⟩
    | .ok losses =>
      let rest := fitFrom controller plan x y n (batch + 1) first.state
      { rest with
        outcome := rest.outcome.map (losses :: ·)
        events := first.events ++ rest.events }

/-- Clears the mask after training with a controller. -/
def releaseMask (controller : Option (Controller γ σ)) (g : Graph α) : Graph α :=
  match controller with
  | none => g
  | some _ => g.clearDropped

/-- Trains the parameters of a model against a target.  The model afterwards has
the graph of the state that is left behind. -/
def fit (model : Model α) (controller : Option (Controller γ σ)) (state : γ) (plan : FitPlan α)
    (x : Matrix α) (y : List α) (source : σ) : Fitted α γ σ (List (Losses α)) :=
  let idle (optimizer : Optimizer α) : FitState α γ σ := ⟨model.graph, optimizer, state, source⟩
  match Method.ofWord? plan.method with
  | none =>
    let reason := (GraphError.unknownMethod plan.method).message
    ⟨Outcome.fail (.configuration reason), idle (.ofMethod .steep), []⟩
  | some method =>
    let start := idle (.ofMethod method)
    if x.nRows ≠ y.length then
      let reason := s!"Feature matrix has {x.nRows} rows but target has {y.length}"
      ⟨Outcome.fail (.configuration reason), start, []⟩
    else
      let result := fitFrom controller plan x y plan.batches 0 start
      match result.outcome with
      | .error _ => result
      | .ok _ =>
        { result with
          state := { result.state with graph := releaseMask controller result.state.graph } }

end Model

end FeatureGraph
