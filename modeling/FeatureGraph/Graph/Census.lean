import FeatureGraph.Graph.NodeTable

/-!
# Census

A structural summary of a table: how many nodes there are, how many of them are
active, how often each primitive occurs among the active ones, and how many of
their parameters can be trained.
-/

namespace FeatureGraph

structure Census where
  total : Nat := 0
  active : Nat := 0
  /-- Number of active nodes by the name of the primitive; only names that occur. -/
  byName : List (String × Nat) := []
  trainableParams : Nat := 0
  constantParams : Nat := 0
deriving DecidableEq, Repr

/-- Counts one more occurrence of a name. -/
def tally (name : String) : List (String × Nat) → List (String × Nat)
  | [] => [(name, 1)]
  | (other, n) :: rest =>
    if other = name then (other, n + 1) :: rest else (other, n) :: tally name rest

namespace NodeTable

variable {ε α : Type}

/-- Enters one node into the summary. -/
def count (t : NodeTable α) (c : Census) (entry : Primitive × Nat) : Outcome ε Census := do
  let (op, id) := entry
  if !(← Outcome.fetch t.active id) then return c
  let n := (← Outcome.fetch t.params id).length
  let c := { c with active := c.active + 1, byName := tally op.name c.byName }
  if ← Outcome.fetch t.constant id then return { c with constantParams := c.constantParams + n }
  else return { c with trainableParams := c.trainableParams + n }

/-- The summary of all nodes. -/
def census (t : NodeTable α) : Outcome ε Census :=
  t.ops.toList.zipIdx.foldlM t.count { total := t.size }

end NodeTable

end FeatureGraph
