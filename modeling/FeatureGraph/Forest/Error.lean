import FeatureGraph.Forest.Operator

/-!
# Forest errors

Why a forest refuses a feature, a record, a document or a matrix.
-/

namespace FeatureGraph

inductive ForestError where
  | unknownOperator (tag : String)
  | unknownParent (expr parent : String)
  | duplicateExpr (expr : String)
  | arity (expr : String) (op : Operator) (expected actual : Nat)
  | invalidRoot (expr : String) (op : Operator)
  | columnMismatch (expected actual : Nat)
  | unknownIndex (index : Nat)
  | serialization (reason : String)
deriving DecidableEq, Repr

namespace ForestError

def message : ForestError → String
  | unknownOperator tag => s!"Unknown operator tag '{tag}'"
  | unknownParent expr parent =>
    s!"Node '{expr}' references parent '{parent}' which is not yet in the forest"
  | duplicateExpr expr => s!"Node '{expr}' already exists in the forest"
  | arity expr op expected actual =>
    s!"Node '{expr}' ({op.symbol}) expects {expected} parents, got {actual}"
  | invalidRoot expr op => s!"Root '{expr}' must use the identity operator, got '{op.symbol}'"
  | columnMismatch expected actual =>
    s!"Input has {actual} columns but the forest has {expected} roots"
  | unknownIndex index => s!"Unknown forest index {index}"
  | serialization reason => s!"Serialization error: {reason}"

end ForestError

end FeatureGraph
