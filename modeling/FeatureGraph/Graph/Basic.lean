import FeatureGraph.Graph.Ancestry
import FeatureGraph.Graph.Sweep

/-!
# Computation graphs

A graph owns a table of nodes and remembers which of them are outputs, targets and
objectives.  It also caches the tape of its active nodes and the columns of the
last evaluation.

An operation that changes which nodes there are, or which are active, drops the
cached tape.  Without a tape no values are visible, so the columns need not be
dropped with it.  An operation that can fail and leaves a changed graph behind
even then answers the graph beside its outcome; every other failing operation
leaves the graph as it was.
-/

namespace FeatureGraph

structure Graph (α : Type) where
  table : NodeTable α := {}
  /-- The column that the next input reads. -/
  nextColumn : Nat := 0
  outputs : List NodeId := []
  targets : List NodeId := []
  objectives : List NodeId := []
  /-- The tape of the active nodes, if it has been compiled since they changed. -/
  tape : Option Tape := none
  /-- The columns of the last evaluation. -/
  values : Slots α := {}

namespace Graph

variable {α : Type}

def empty : Graph α := {}

def size (g : Graph α) : Nat := g.table.size

/-! ## Adding nodes -/

section Adding

variable [Arith α]

/-- Appends a node without checks. -/
def push (g : Graph α) (op : Primitive) (parents : List NodeId) (name : String) :
    NodeId × Graph α :=
  let (id, table) := g.table.addNode op parents name
  (id, { g with table, tape := none })

/-- Appends an input that reads the next column, whatever its number. -/
def appendInput (g : Graph α) (name : String) : NodeId × Graph α :=
  push { g with nextColumn := g.nextColumn + 1 } (.input g.nextColumn) [] name

/-- Adds an input that reads the next column.  The number of the column after it
must have 32 bits too, so the last number is never read. -/
def addInput (g : Graph α) (name : String) : Outcome GraphError (NodeId × Graph α) :=
  if g.nextColumn + 1 < 1 <<< 32 then .ok (g.appendInput name) else Outcome.outOfRange

/-- Refuses a node that is not there. -/
def checkNode (g : Graph α) (id : NodeId) : Outcome GraphError Unit :=
  if g.table.contains id then .ok () else Outcome.fail (.unknownNode id)

/-- The parents have to be there, and the primitive has to admit their number. -/
def checkParents (g : Graph α) (op : Primitive) (parents : List NodeId) (name : String) :
    Outcome GraphError Unit := do
  parents.forM g.checkNode
  if op.admits parents.length then return ()
  else Outcome.fail (.arityMismatch name op (op.arity?.getD 1) parents.length)

/-- Whether nodes of this primitive are added in a way of their own. -/
def isReserved : Primitive → Bool
  | .input _ | .output | .target | .objective => true
  | _ => false

/-- Adds an intermediate node. -/
def addNode (g : Graph α) (op : Primitive) (parents : List NodeId) (name : String) :
    Outcome GraphError (NodeId × Graph α) :=
  if isReserved op then Outcome.fail (.mismatch (.reserved op name))
  else do
    g.checkParents op parents name
    return g.push op parents name

/-- Adds an output over the given nodes. -/
def addOutput (g : Graph α) (parents : List NodeId) (name : String) :
    Outcome GraphError (NodeId × Graph α) := do
  g.checkParents .output parents name
  let (id, g) := g.push .output parents name
  return (id, { g with outputs := g.outputs ++ [id] })

/-- Adds a node that holds the training target. -/
def addTarget (g : Graph α) (name : String) : NodeId × Graph α :=
  let (id, g) := g.push .target [] name
  (id, { g with targets := g.targets ++ [id] })

/-- Adds the mean squared error between an output and a target. -/
def addObjective (g : Graph α) (output target : NodeId) (name : String) :
    Outcome GraphError (NodeId × Graph α) := do
  g.checkParents .objective [output, target] name
  let (id, g) := g.push .objective [output, target] name
  return (id, { g with objectives := g.objectives ++ [id] })

end Adding

/-! ## Nodes -/

section Nodes

variable [Arith α]

def op (g : Graph α) (id : NodeId) : Outcome GraphError Primitive := do
  g.checkNode id
  Outcome.fetch g.table.ops id

def name (g : Graph α) (id : NodeId) : Outcome GraphError String := do
  g.checkNode id
  Outcome.fetch g.table.labels id

def parents (g : Graph α) (id : NodeId) : Outcome GraphError (List NodeId) := do
  g.checkNode id
  g.table.parents id

def params (g : Graph α) (id : NodeId) : Outcome GraphError (List α) := do
  g.checkNode id
  Outcome.fetch g.table.params id

/-- Replaces the parameters of a node by as many others. -/
def setParams (g : Graph α) (id : NodeId) (params : List α) : Outcome GraphError (Graph α) := do
  g.checkNode id
  let op ← Outcome.fetch g.table.ops id
  let parents ← g.table.parents id
  let expected := op.paramCount parents.length
  if params.length ≠ expected then
    let label ← Outcome.fetch g.table.labels id
    Outcome.fail (.paramCount label expected params.length)
  else
    let column ← Outcome.store g.table.params id params
    return { g with table := { g.table with params := column } }

/-- Protects the parameters of a node from training, or frees them. -/
def setConstant (g : Graph α) (id : NodeId) (value : Bool) : Outcome GraphError (Graph α) := do
  g.checkNode id
  let column ← Outcome.store g.table.constant id value
  return { g with table := { g.table with constant := column } }

def isConstant (g : Graph α) (id : NodeId) : Bool := (g.table.constant[id]?).getD false

end Nodes

/-! ## Activation -/

section Activation

variable [Arith α]

def isActive (g : Graph α) (id : NodeId) : Bool := (g.table.active[id]?).getD false

/-- Replaces the activation flags, and forgets the tape. -/
def withActive (g : Graph α) (active : Array Bool) : Graph α :=
  { g with table := { g.table with active }, tape := none }

def setActive (g : Graph α) (id : NodeId) (value : Bool) : Outcome GraphError (Graph α) := do
  g.checkNode id
  let column ← Outcome.store g.table.active id value
  return g.withActive column

def setAllActive (g : Graph α) (value : Bool) : Graph α :=
  g.withActive (g.table.active.map fun _ => value)

/-- Activates a node and all nodes that it depends on; answers their number too. -/
def activateBranch (g : Graph α) (id : NodeId) : Outcome GraphError (Nat × Graph α) := do
  g.checkNode id
  let branch ← g.table.ancestry [id]
  let column ← branch.foldlM (fun active i => Outcome.store active i true) g.table.active
  return (branch.length, g.withActive column)

/-- Activates the listed nodes and no others. -/
def activateOnly (g : Graph α) (keep : List NodeId) : Graph α :=
  g.withActive (g.table.active.mapIdx fun i _ => keep.contains i)

/-- Compiles the tape of the active nodes, so that both passes bypass the others;
answers the number of active nodes too. -/
def bypassInactive (g : Graph α) : Outcome GraphError (Nat × Graph α) := do
  let tape ← g.table.compile
  return (tape.size, { g with tape := some tape, values := {} })

end Activation

/-! ## Dropping nodes -/

section Dropping

variable [Arith α]

def isDropped (g : Graph α) (id : NodeId) : Bool := (g.table.dropped[id]?).getD false

def setDropped (g : Graph α) (id : NodeId) (value : Bool) : Outcome GraphError (Graph α) := do
  g.checkNode id
  let column ← Outcome.store g.table.dropped id value
  return { g with table := { g.table with dropped := column } }

/-- Restores all dropped nodes. -/
def clearDropped (g : Graph α) : Graph α :=
  { g with table := { g.table with dropped := g.table.dropped.map fun _ => false } }

end Dropping

/-! ## Evaluation -/

section Evaluation

variable [Arith α]

/-- The cached tape, or a new one. -/
def currentTape (g : Graph α) : Outcome GraphError Tape :=
  match g.tape with
  | some tape => .ok tape
  | none => g.table.compile

/-- The tape and the columns of a forward pass. -/
def runForward (g : Graph α) (x : Matrix α) (y : Option (List α)) :
    Outcome GraphError (Tape × Slots α) := do
  let tape ← g.currentTape
  let values ← tape.forward g.table x y
  return (tape, values)

/-- The graph after a forward pass: a failed pass costs the tape. -/
def afterForward (g : Graph α) : Outcome GraphError (Tape × Slots α) → Graph α
  | .ok (tape, values) => { g with tape := some tape, values }
  | .error _ => { g with tape := none }

/-- Evaluates all active nodes over the rows of a matrix, with or without a
target. -/
def evaluate (g : Graph α) (x : Matrix α) (y : Option (List α)) :
    Outcome GraphError Unit × Graph α :=
  let result := g.runForward x y
  (result.map fun _ => (), g.afterForward result)

/-- The column of a node from the last evaluation; a bypassed node has none. -/
def vals? (g : Graph α) (id : NodeId) : Option (List α) := do
  let tape ← g.tape
  let slot ← tape.slotOf? id
  g.values.columns[slot]?

/-- Mean of the first objective over the rows of the last evaluation. -/
def loss? (g : Graph α) : Option α := do
  let tape ← g.tape
  let objective ← g.objectives.head?
  tape.loss? g.values objective

/-- Evaluates the graph against a target and answers the gradients of the first
objective's loss. -/
def gradients (g : Graph α) (x : Matrix α) (y : List α) :
    Outcome GraphError (Gradients α) × Graph α :=
  match g.objectives with
  | [] => (Outcome.fail .noObjective, g)
  | objective :: _ =>
    let result := g.runForward x (some y)
    let grads := do
      let (tape, values) ← result
      let adjoint ← tape.backward g.table values objective
      return adjoint.params
    (grads, g.afterForward result)

end Evaluation

end Graph

end FeatureGraph
