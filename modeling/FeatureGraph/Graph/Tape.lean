import FeatureGraph.Graph.Error
import FeatureGraph.Graph.Order

/-!
# Tapes

A tape is a straight-line program over the active nodes of a table.  Instruction
`i` computes one node and writes slot `i`; the slots it reads come before.
Inactive nodes have no slot, and both passes bypass them.

Compiling fails when an active node reads from an inactive one: nodes have to be
deactivated in whole branches, or a value would be missing.
-/

namespace FeatureGraph

/-- One step of a tape: the node it computes and the slots of the node's parents. -/
structure Instruction where
  node : NodeId
  sources : List Nat
deriving DecidableEq, Repr

structure Tape where
  steps : List Instruction := []
  /-- The slot of each node of the table. -/
  layout : Array (Option Nat) := #[]
deriving DecidableEq, Repr

namespace Tape

variable {ε : Type}

def size (p : Tape) : Nat := p.steps.length

/-- The nodes in the order of their slots. -/
def order (p : Tape) : List NodeId := p.steps.map (·.node)

/-- The slot of a node; a bypassed node has none. -/
def slotOf? (p : Tape) (id : NodeId) : Option Nat := (p.layout[id]?).join

/-- The slots read by all instructions, one instruction after the other. -/
def sourceList (p : Tape) : List Nat := p.steps.flatMap (·.sources)

/-- Where the slots read by each instruction stand in `sourceList`. -/
def sourceSpans (p : Tape) : List Span := spansFrom 0 p.steps
where
  spansFrom (start : Nat) : List Instruction → List Span
    | [] => []
    | s :: rest => ⟨start, s.sources.length⟩ :: spansFrom (start + s.sources.length) rest

/-- The slots that an instruction reads: its stretch of `sourceList`. -/
def sourcesOf (p : Tape) (i : Nat) : Outcome ε (List Nat) := do
  let span ← Outcome.fetchList p.sourceSpans i
  if span.start + span.count ≤ p.sourceList.length then
    return (p.sourceList.drop span.start).take span.count
  else Outcome.outOfRange

end Tape

namespace NodeTable

variable {α : Type}

/-- The position of each listed node in the list, for the nodes below `n`. -/
def slotLayout (n : Nat) (order : List NodeId) : Array (Option Nat) :=
  order.zipIdx.foldl (fun layout (id, slot) => layout.setIfInBounds id (some slot))
    (Array.replicate n none)

/-- The slot of a parent. -/
def parentSlot (t : NodeTable α) (layout : Array (Option Nat)) (id parent : NodeId) :
    Outcome GraphError Nat :=
  match layout[parent]? with
  | none => Outcome.outOfRange
  | some (some slot) => .ok slot
  | some none => do
    let node ← Outcome.fetch t.labels id
    let label ← Outcome.fetch t.labels parent
    Outcome.fail (.inactiveParent node label)

/-- The instruction that computes a node. -/
def instruction (t : NodeTable α) (layout : Array (Option Nat)) (id : NodeId) :
    Outcome GraphError Instruction := do
  let parents ← t.parents id
  let sources ← parents.mapM (t.parentSlot layout id)
  return ⟨id, sources⟩

/-- The active nodes, every one after its parents. -/
def activeOrder (t : NodeTable α) : Outcome GraphError (List NodeId) := do
  let sorted ← Outcome.mapFailure (fun c : Cycle => .cycle c.message) t.sort
  sorted.filterM (Outcome.fetch t.active)

/-- The tape of the active nodes. -/
def compile (t : NodeTable α) : Outcome GraphError Tape := do
  let order ← t.activeOrder
  let layout := slotLayout t.size order
  let steps ← order.mapM (t.instruction layout)
  return ⟨steps, layout⟩

end NodeTable

end FeatureGraph
