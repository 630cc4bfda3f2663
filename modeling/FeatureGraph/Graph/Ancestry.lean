import FeatureGraph.Graph.NodeTable
import FeatureGraph.Walk

/-!
# Ancestry

`NodeTable.ancestry` collects the given nodes and everything they depend on.  It
keeps a stack of nodes to look at.  Each step takes one node off the stack, and
a node seen for the first time puts its parents on.  So either there is one node
less that has not been seen, or the stack is shorter.
-/

namespace FeatureGraph.NodeTable

variable {ε α : Type}

/-- Number of nodes with a span of parents that have not been seen. -/
def unseen (t : NodeTable α) (seen : List NodeId) : Nat :=
  ((List.range t.parentSpans.size).filter fun id => !seen.contains id).length

theorem unseen_cons_lt {t : NodeTable α} {seen : List NodeId} {id : NodeId}
    (inside : id < t.parentSpans.size) (new : seen.contains id = false) :
    t.unseen (id :: seen) < t.unseen seen :=
  unseenBelow_cons_lt inside new

/-- Takes nodes off the stack until it is empty; answers the nodes seen. -/
def collectAncestry (t : NodeTable α) (seen : List NodeId) :
    List NodeId → Outcome ε (List NodeId)
  | [] => .ok seen
  | id :: stack =>
    if _known : seen.contains id then t.collectAncestry seen stack
    else if _inside : id < t.parentSpans.size then
      match t.parents (ε := ε) id with
      | .error fault => .error fault
      | .ok parents => t.collectAncestry (id :: seen) (parents ++ stack)
    else Outcome.outOfRange
termination_by stack => (t.unseen seen, stack.length)
decreasing_by
  · exact Prod.Lex.right _ (by simp)
  · exact Prod.Lex.left _ _ (unseen_cons_lt _inside (by simpa using _known))

/-- The given nodes and all nodes that they depend on, each once. -/
def ancestry (t : NodeTable α) (start : List NodeId) : Outcome ε (List NodeId) :=
  t.collectAncestry [] start

end FeatureGraph.NodeTable
