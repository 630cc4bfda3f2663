import FeatureGraph.Model.Fitting

/-!
# Ensemble predictions

A prediction is the mean of the output over a number of forward passes, with a
new mask before each of them.  Afterwards the mask is cleared if a controller was
in use, whether the passes succeeded or not.
-/

namespace FeatureGraph

/-- What a prediction answers and leaves behind. -/
structure Predicted (α γ σ β : Type) where
  outcome : Outcome (ModelError α) β
  graph : Graph α
  controller : γ
  source : σ

namespace Model

variable {α γ σ : Type} [Arith α]

/-- The output of one forward pass; answers the evaluated graph too. -/
def outputColumn (output : NodeId) (g : Graph α) (x : Matrix α) :
    Outcome GraphError (List α) × Graph α :=
  match g.evaluate x none with
  | (.error fault, g) => (.error fault, g)
  | (.ok (), g) =>
    match g.vals? output with
    | none => (Outcome.fail (.mismatch .noOutputValues), g)
    | some column => (.ok column, g)

/-- The outputs of `n` passes, with a new mask before each of them. -/
def outputColumns (controller : Option (Controller γ σ)) (output : NodeId) (x : Matrix α) :
    Nat → Graph α → γ → σ → Predicted α γ σ (List (List α))
  | 0, g, state, source => ⟨.ok [], g, state, source⟩
  | n + 1, g, state, source =>
    let sampled := sampleMask controller g state source
    let g := g.withMask sampled.mask
    match sampled.outcome with
    | .error fault =>
      ⟨Outcome.mapFailure .graph (.error fault), g, sampled.state, sampled.source⟩
    | .ok () =>
      match outputColumn output g x with
      | (.error fault, g) =>
        ⟨Outcome.mapFailure .graph (.error fault), g, sampled.state, sampled.source⟩
      | (.ok column, g) =>
        let rest := outputColumns controller output x n g sampled.state sampled.source
        { rest with outcome := rest.outcome.map (column :: ·) }

/-- The mean of columns of `nRows` entries, row by row.  The columns are added in
their order. -/
def meanColumn (nRows : Nat) (columns : List (List α)) : List α :=
  let sums := columns.foldl (Column.update (· + ·)) (Column.zeros nRows)
  sums.map (· / (columns.length : α))

/-- The mean output over `n` passes.  The model afterwards has the graph that is
left behind. -/
def predict (model : Model α) (controller : Option (Controller γ σ)) (state : γ)
    (x : Matrix α) (n : Nat) (source : σ) : Predicted α γ σ (List α) :=
  if n = 0 then
    ⟨Outcome.fail (.configuration "n_estimators must be at least 1"), model.graph, state, source⟩
  else
    let passes := outputColumns controller model.output x n model.graph state source
    { passes with
      outcome := passes.outcome.map (meanColumn x.nRows)
      graph := releaseMask controller passes.graph }

end Model

end FeatureGraph
