import FeatureGraph.Primitive.Basic

/-!
# Graph errors

Why a graph refuses a node, a parameter, a pass or a document.
-/

namespace FeatureGraph

/-- How the parts of a request do not fit together. -/
inductive Mismatch where
  /-- Nodes of this primitive are added in a way of their own. -/
  | reserved (op : Primitive) (node : String)
  | targetRows (target input : Nat)
  | missingColumn (node : String) (column columns : Nat)
  /-- The stored columns belong to another program. -/
  | slotCount (held expected : Nat)
  | noValues (node : String)
  | noOutputValues
  | stated (reason : String)
deriving DecidableEq, Repr

def Mismatch.message : Mismatch → String
  | reserved op node => s!"'{op.name}' nodes have dedicated constructors (node '{node}')"
  | targetRows target input => s!"Target has {target} rows, input has {input}"
  | missingColumn node column columns =>
    s!"Input node '{node}' reads column {column} but input has {columns} columns"
  | slotCount held expected => s!"Ledger holds {held} slots, program has {expected}"
  | noValues node => s!"No values for active node '{node}'"
  | noOutputValues => "Output node produced no values"
  | stated reason => reason

inductive GraphError where
  | unknownNode (id : Nat)
  | arityMismatch (node : String) (op : Primitive) (expected actual : Nat)
  | paramCount (node : String) (expected actual : Nat)
  | inactiveParent (node parent : String)
  | mismatch (cause : Mismatch)
  | noObjective
  | unknownMethod (name : String)
  | cycle (reason : String)
  | serialization (reason : String)
deriving DecidableEq, Repr

namespace GraphError

def message : GraphError → String
  | unknownNode id => s!"Unknown node id {id}"
  | arityMismatch node op expected actual =>
    s!"Operation '{op.name}' at node '{node}' expects {expected} parents, got {actual}"
  | paramCount node expected actual => s!"Node '{node}' expects {expected} parameters, got {actual}"
  | inactiveParent node parent => s!"Active node '{node}' depends on inactive node '{parent}'"
  | mismatch cause => s!"Structural mismatch: {cause.message}"
  | noObjective => "Graph has no objective node"
  | unknownMethod name => s!"Unknown optimizer method '{name}'"
  | cycle reason => s!"Cycle detected: {reason}"
  | serialization reason => s!"Serialization failed: {reason}"

end GraphError

end FeatureGraph
