import FeatureGraph.Graph.NodeTable

/-!
# Topological order

`NodeTable.sort` lists all nodes so that every node comes after its parents.  It
visits the nodes in the order of their numbers, and the parents of a node before
the node itself, depth first.  A node that is met again while its own parents are
still being visited lies on a cycle, and the sort names it.
-/

namespace FeatureGraph

/-- How far the visit of a node has come. -/
inductive Mark where
  | fresh
  | entered
  | finished
deriving DecidableEq, Repr

/-- A node that is its own ancestor. -/
structure Cycle where
  node : NodeId
deriving DecidableEq, Repr

def Cycle.message (c : Cycle) : String := s!"Cycle detected involving node {c.node}"

/-- Marks of all nodes, and the nodes finished so far. -/
structure Visit where
  marks : Array Mark
  order : Array NodeId

namespace Visit

def enter (v : Visit) (id : NodeId) : Visit := { v with marks := v.marks.setIfInBounds id .entered }

def finish (v : Visit) (id : NodeId) : Visit :=
  { marks := v.marks.setIfInBounds id .finished, order := v.order.push id }

end Visit

namespace NodeTable

variable {α : Type}

/-- Visits a node.  Every level of the descent has entered one more node, so the
number of nodes bounds its depth. -/
def visit (t : NodeTable α) : Nat → NodeId → Visit → Outcome Cycle Visit
  | 0, _, _ => Outcome.outOfRange
  | depth + 1, id, v =>
    match v.marks[id]? with
    | none => Outcome.outOfRange
    | some .finished => .ok v
    | some .entered => Outcome.fail ⟨id⟩
    | some .fresh => do
      let parents ← t.parents id
      let v ← parents.foldlM (fun v p => t.visit depth p v) (v.enter id)
      return v.finish id

/-- All nodes, every one after its parents. -/
def sort (t : NodeTable α) : Outcome Cycle (List NodeId) := do
  let v ← (List.range t.size).foldlM (fun v id => t.visit (t.size + 1) id v)
    ⟨Array.replicate t.size .fresh, #[]⟩
  return v.order.toList

end NodeTable

end FeatureGraph
