import FeatureGraph.Primitive.Basic
import FeatureGraph.Outcome
import Std.Data.HashSet

/-!
# Node tables

The nodes of a graph, stored by column: the node with number `id` has its
primitive, name, parameters and flags at position `id` of one column each.  The
parents of all nodes stand in one list, and each node has a span of it.

A table that was built by `addNode` has columns of one length and spans inside of
the list.  A table read from a document need not, so every access is checked.

`names` remembers the names in use; a new node whose name is taken gets a number
appended to it.
-/

namespace FeatureGraph

/-- Nodes are numbered in the order in which they were added. -/
abbrev NodeId := Nat

/-- A stretch of a list. -/
structure Span where
  start : Nat
  count : Nat
deriving DecidableEq, Repr

structure NodeTable (α : Type) where
  ops : Array Primitive := #[]
  labels : Array String := #[]
  /-- The parents of all nodes, one node after the other. -/
  parentIds : Array NodeId := #[]
  /-- Where the parents of each node stand. -/
  parentSpans : Array Span := #[]
  params : Array (List α) := #[]
  active : Array Bool := #[]
  /-- Nodes whose parameters must not be trained. -/
  constant : Array Bool := #[]
  /-- Nodes that evaluate to zero for the time being. -/
  dropped : Array Bool := #[]
  /-- The names in use. -/
  names : List String := []

namespace NodeTable

variable {ε α : Type}

def size (t : NodeTable α) : Nat := t.ops.size

def contains (t : NodeTable α) (id : NodeId) : Bool := decide (id < t.size)

/-- The parents of a node, in order and with repetitions. -/
def parents (t : NodeTable α) (id : NodeId) : Outcome ε (List NodeId) := do
  let span ← Outcome.fetch t.parentSpans id
  if span.start + span.count ≤ t.parentIds.size then
    return (t.parentIds.extract span.start (span.start + span.count)).toList
  else Outcome.outOfRange

/-- The requested name with the number `k` appended. -/
def numbered (name : String) (k : Nat) : String := s!"{name}_{k}"

/-- The requested name if it is free, and else the first free one of `name_1`,
`name_2` and so on.  One more candidate than there are names in use suffices. -/
def freeName (used : List String) (name : String) : String :=
  if used.contains name then
    let taken := Std.HashSet.ofList used
    ((List.range (used.length + 1)).findSome? fun k =>
      let candidate := numbered name (k + 1)
      if taken.contains candidate then none else some candidate).getD name
  else name

/-- Appends a node with default parameters.  Parents are not checked. -/
def addNode [Arith α] (t : NodeTable α) (op : Primitive) (parents : List NodeId)
    (name : String) : NodeId × NodeTable α :=
  let label := freeName t.names name
  (t.size, {
    ops := t.ops.push op
    labels := t.labels.push label
    parentIds := t.parentIds ++ parents.toArray
    parentSpans := t.parentSpans.push ⟨t.parentIds.size, parents.length⟩
    params := t.params.push (op.defaultParams parents.length)
    active := t.active.push true
    constant := t.constant.push false
    dropped := t.dropped.push false
    names := label :: t.names })

/-- Takes the names in use from the nodes. -/
def refreshNames (t : NodeTable α) : NodeTable α := { t with names := t.labels.toList.eraseDups }

/-- Whether the optimizer may update the parameters of a node. -/
def isTrainable (t : NodeTable α) (id : NodeId) : Outcome ε Bool := do
  if !(← Outcome.fetch t.active id) then return false
  if ← Outcome.fetch t.constant id then return false
  return !(← Outcome.fetch t.params id).isEmpty

/-- The nodes whose parameters the optimizer may update. -/
def trainable (t : NodeTable α) : Outcome ε (List NodeId) :=
  (List.range t.size).filterM t.isTrainable

end NodeTable

end FeatureGraph
