import FeatureGraph.Graph.Basic

/-!
# Edits

Operations that change a graph in place.  An edit works on its graph step by step: a step
reads the graph, or it writes to it.  What has been written before a failure stays written,
so `Edit.on` answers the graph that is left behind in either case.

A forward pass takes the cached tape out of the graph while it runs, and puts it back when it
has succeeded.
-/

namespace FeatureGraph

/-- A change of a graph that answers something or fails. -/
abbrev Edit (α β : Type) := ExceptT (Fault GraphError) (StateM (Graph α)) β

namespace Edit

variable {α β : Type}

/-- What an edit answers, and the graph that it leaves behind. -/
def on (e : Edit α β) (g : Graph α) : Outcome GraphError β × Graph α := e.run.run g

/-! ## Steps -/

/-- Reads the graph. -/
def read (f : Graph α → Outcome GraphError β) : Edit α β := do
  match f (← get) with
  | .ok b => return b
  | .error fault => throw fault

/-- Writes to the graph. -/
def write (f : Graph α → Graph α) : Edit α Unit := modify f

/-- Writes to a place of the graph, if the place is there. -/
def assign (f : Graph α → Outcome GraphError (Graph α)) : Edit α Unit := do
  let g ← read f
  set g

/-- Switches a node on or off.  The tape stays as it is. -/
def assignActive (id : NodeId) (value : Bool) : Edit α Unit :=
  assign fun g => do
    let column ← Outcome.store g.table.active id value
    return { g with table := { g.table with active := column } }

def forgetTape : Edit α Unit := write fun g => { g with tape := none }

def putTape (tape : Tape) : Edit α Unit := write fun g => { g with tape := some tape }

/-- Takes the tape out of the graph; compiles one if there is none. -/
def takeTape : Edit α Tape := do
  let cached ← read fun g => .ok g.tape
  forgetTape
  match cached with
  | some tape => return tape
  | none => read fun g => g.table.compile

variable [Arith α]

/-- Appends a node without checks. -/
def push (op : Primitive) (parents : List NodeId) (name : String) : Edit α NodeId := do
  forgetTape
  let (id, table) ← read fun g => .ok (g.table.addNode op parents name)
  write fun g => { g with table }
  return id

/-! ## Adding nodes -/

/-- Appends an input that reads the next column, whatever its number. -/
def appendInput (name : String) : Edit α NodeId := do
  let column ← read fun g => .ok g.nextColumn
  write fun g => { g with nextColumn := column + 1 }
  push (.input column) [] name

/-- Adds an input that reads the next column, if its number is not the last one. -/
def addInput (name : String) : Edit α NodeId := do
  let column ← read fun g => .ok g.nextColumn
  if column + 1 < 1 <<< 32 then appendInput name else throw .outOfRange

/-- Adds an intermediate node. -/
def addNode (op : Primitive) (parents : List NodeId) (name : String) : Edit α NodeId := do
  if Graph.isReserved op then throw (.failure (.mismatch (.reserved op name)))
  read fun g => g.checkParents op parents name
  push op parents name

/-- Adds an output over the given nodes. -/
def addOutput (parents : List NodeId) (name : String) : Edit α NodeId := do
  read fun g => g.checkParents .output parents name
  let id ← push .output parents name
  write fun g => { g with outputs := g.outputs ++ [id] }
  return id

/-- Adds a node that holds the training target. -/
def addTarget (name : String) : Edit α NodeId := do
  let id ← push .target [] name
  write fun g => { g with targets := g.targets ++ [id] }
  return id

/-- Adds the mean squared error between an output and a target. -/
def addObjective (output target : NodeId) (name : String) : Edit α NodeId := do
  read fun g => g.checkParents .objective [output, target] name
  let id ← push .objective [output, target] name
  write fun g => { g with objectives := g.objectives ++ [id] }
  return id

/-! ## Changing nodes -/

/-- Replaces the parameters of a node by as many others. -/
def setParams (id : NodeId) (params : List α) : Edit α Unit := do
  read fun g => g.checkNode id
  let op ← read fun g => Outcome.fetch g.table.ops id
  let parents ← read fun g => g.table.parents id
  let expected := op.paramCount parents.length
  if params.length ≠ expected then
    let label ← read fun g => Outcome.fetch g.table.labels id
    throw (.failure (.paramCount label expected params.length))
  assign fun g => do
    let column ← Outcome.store g.table.params id params
    return { g with table := { g.table with params := column } }

/-- Protects the parameters of a node from training, or frees them. -/
def setConstant (id : NodeId) (value : Bool) : Edit α Unit := do
  read fun g => g.checkNode id
  assign fun g => do
    let column ← Outcome.store g.table.constant id value
    return { g with table := { g.table with constant := column } }

def setDropped (id : NodeId) (value : Bool) : Edit α Unit := do
  read fun g => g.checkNode id
  assign fun g => do
    let column ← Outcome.store g.table.dropped id value
    return { g with table := { g.table with dropped := column } }

/-- Restores all dropped nodes. -/
def clearDropped : Edit α Unit := write Graph.clearDropped

/-! ## Activation -/

def setActive (id : NodeId) (value : Bool) : Edit α Unit := do
  read fun g => g.checkNode id
  assignActive id value
  forgetTape

def setAllActive (value : Bool) : Edit α Unit := write fun g => g.setAllActive value

/-- Activates a node and all nodes that it depends on, one after the other; answers their
number. -/
def activateBranch (id : NodeId) : Edit α Nat := do
  read fun g => g.checkNode id
  let branch ← read fun g => g.table.ancestry [id]
  branch.forM fun node => assignActive node true
  forgetTape
  return branch.length

/-- Activates the listed nodes and no others. -/
def activateOnly (keep : List NodeId) : Edit α Unit := write fun g => g.activateOnly keep

/-- Compiles the tape of the active nodes; answers their number. -/
def bypassInactive : Edit α Nat := do
  let tape ← read fun g => g.table.compile
  putTape tape
  write fun g => { g with values := {} }
  return tape.size

/-! ## Passes -/

/-- A forward pass.  Afterwards the tape is not in the graph. -/
def runForward (x : Matrix α) (y : Option (List α)) : Edit α Tape := do
  let tape ← takeTape
  let values ← read fun g => tape.forward g.table x y
  write fun g => { g with values }
  return tape

/-- Evaluates all active nodes over the rows of a matrix, with or without a target. -/
def evaluate (x : Matrix α) (y : Option (List α)) : Edit α Unit := do
  let tape ← runForward x y
  putTape tape

/-- Evaluates the graph against a target and answers the gradients of the first objective's
loss. -/
def gradients (x : Matrix α) (y : List α) : Edit α (Gradients α) := do
  let objective ← read fun g =>
    match g.objectives with
    | [] => Outcome.fail .noObjective
    | objective :: _ => .ok objective
  let tape ← runForward x (some y)
  let result ← read fun g => .ok (tape.backward g.table g.values objective)
  putTape tape
  let adjoint ← read fun _ => result
  return adjoint.params

end Edit

end FeatureGraph
