import FeatureGraph.Decimal.Scalar
import FeatureGraph.Event
import FeatureGraph.Forest.Error
import FeatureGraph.Graph.Error

/-!
# Model errors

Why a forest could not be made into a model, or a model not be fitted or asked
for predictions.  Errors of forests and of graphs pass through with their own
messages.
-/

namespace FeatureGraph

inductive ModelError (α : Type) where
  | unresolvedParent (expr parent : String)
  | untranslatable (expr op : String)
  | unmapped (expr : String)
  | emptySelection (candidates : Nat)
  | disagreement (expr : String) (discrepancy : α)
  | duplicateBinding (expr : String)
  | configuration (reason : String)
  | forest (e : ForestError)
  | graph (e : GraphError)
deriving DecidableEq, Repr

namespace ModelError

def message {α : Type} [DecimalText α] : ModelError α → String
  | unresolvedParent expr parent =>
    s!"Node '{expr}' references parent '{parent}' which has no compiled node"
  | untranslatable expr op => s!"Node '{expr}' carries operator '{op}' which cannot be translated"
  | unmapped expr => s!"Node '{expr}' has no entry in the node mapping"
  | emptySelection candidates => s!"Quality predicate selected no features out of {candidates}"
  | disagreement expr discrepancy =>
    s!"Translation mismatch at '{expr}': normalized discrepancy " ++
      (DecimalText.exact discrepancy).write Event.exponentLayout
  | duplicateBinding expr => s!"Node '{expr}' is already bound in the node mapping"
  | configuration reason => s!"Configuration error: {reason}"
  | forest e => e.message
  | graph e => e.message

end ModelError

/-- What a stage of the work answers, and what it reports on the way. -/
structure Report (α β : Type) where
  outcome : Outcome (ModelError α) β
  events : List (Event α)

namespace Report

variable {α β γ : Type}

/-- Reports an event before anything else. -/
def after (e : Event α) (r : Report α β) : Report α β := { r with events := e :: r.events }

/-- Goes on with the answer of the first stage, if there is one. -/
def andThen (r : Report α β) (next : β → Report α γ) : Report α γ :=
  match r.outcome with
  | .ok b =>
    let rest := next b
    { rest with events := r.events ++ rest.events }
  | .error fault => ⟨.error fault, r.events⟩

end Report

end FeatureGraph
