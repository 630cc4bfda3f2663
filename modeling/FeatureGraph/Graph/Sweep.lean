import FeatureGraph.Graph.Slots
import FeatureGraph.Graph.Tape
import FeatureGraph.Matrix
import FeatureGraph.Primitive.Rule

/-!
# Passes over a tape

`Tape.forward` computes the columns of all instructions from first to last.
`Tape.backward` goes from the objective back to the first instruction and hands
the gradient of each column on to what the column was computed from.  Both are
folds of one step per instruction.

The loss is the mean of the objective's column, so its gradient starts out as one
over the number of rows.  A node that is dropped has the value zero and passes no
gradient on.  A node whose gradient is zero in all rows is skipped as well, since
it has nothing to pass on.
-/

namespace FeatureGraph

/-- Gradients of the parameters by node; empty for a node without any. -/
structure Gradients (α : Type) where
  params : Array (List α) := #[]

/-- The gradient of a node's parameters; empty for an unknown node. -/
def Gradients.get {α : Type} (g : Gradients α) (id : NodeId) : List α :=
  (g.params[id]?).getD []

theorem Gradients.get_replicate {α : Type} (n : Nat) (id : NodeId) :
    (Gradients.get ⟨Array.replicate n []⟩ id : List α) = [] := by
  rw [get, Array.getElem?_replicate]
  split <;> rfl

theorem Gradients.get_set_self {α : Type} {params : Array (List α)} {node : NodeId}
    (h : node < params.size) (grad : List α) :
    Gradients.get ⟨params.setIfInBounds node grad⟩ node = grad := by
  simp [get, h]

theorem Gradients.get_set_ne {α : Type} {params : Array (List α)} {node id : NodeId}
    (h : node ≠ id) (grad : List α) :
    Gradients.get ⟨params.setIfInBounds node grad⟩ id = Gradients.get ⟨params⟩ id := by
  rw [get, get, Array.getElem?_setIfInBounds_ne h]

namespace Tape

variable {α : Type} [Arith α]

/-- The target has one entry per row of the matrix. -/
def checkTarget (x : Matrix α) : Option (List α) → Outcome GraphError Unit
  | some y =>
    if y.length ≠ x.nRows then Outcome.fail (.mismatch (.targetRows y.length x.nRows)) else .ok ()
  | none => .ok ()

/-- An input reads one of the columns of the matrix. -/
def checkInput (t : NodeTable α) (x : Matrix α) (step : Instruction) :
    Outcome GraphError Unit := do
  match ← Outcome.fetch t.ops step.node with
  | .input column =>
    if x.nCols ≤ column then
      let label ← Outcome.fetch t.labels step.node
      Outcome.fail (.mismatch (.missingColumn label column x.nCols))
    else return ()
  | _ => return ()

/-- What has to hold of the data before a pass starts. -/
def checkData (t : NodeTable α) (p : Tape) (x : Matrix α) (y : Option (List α)) :
    Outcome GraphError Unit := do
  checkTarget x y
  p.steps.forM (checkInput t x)

/-- The column of an instruction, from the columns of the instructions before it. -/
def stepColumn (t : NodeTable α) (x : Matrix α) (y : Option (List α)) (done : Slots α)
    (step : Instruction) : Outcome GraphError (List α) := do
  match ← Outcome.fetch t.ops step.node, y with
  | .input column, _ => Outcome.ofOption (x.column? column)
  | .target, some y => return Column.overwrite id (Column.zeros x.nRows) y
  | .target, none => return Column.zeros x.nRows
  | .objective, none => return Column.zeros x.nRows
  | op, _ =>
    let srcs ← step.sources.mapM done.get
    let params ← Outcome.fetch t.params step.node
    op.forward params srcs x.nRows

/-- Computes one more column. -/
def forwardStep (t : NodeTable α) (x : Matrix α) (y : Option (List α)) (done : Slots α)
    (step : Instruction) : Outcome GraphError (Slots α) := do
  let column ← stepColumn t x y done step
  let dropped ← Outcome.fetch t.dropped step.node
  return { done with
    columns := done.columns.push (if dropped then Column.zeros x.nRows else column) }

/-- The columns of all instructions.  Without a target, the columns of targets
and objectives are zero. -/
def forward (t : NodeTable α) (p : Tape) (x : Matrix α) (y : Option (List α)) :
    Outcome GraphError (Slots α) := do
  checkData t p x y
  p.steps.foldlM (forwardStep t x y) ⟨x.nRows, #[]⟩

/-- Gradients of the columns and of the parameters. -/
structure Adjoint (α : Type) where
  slots : Slots α
  params : Gradients α

/-- Adds the gradient of a source column, which must stand before slot `i`. -/
def accumulate (i : Nat) (slots : Slots α) (source : Nat × List α) :
    Outcome GraphError (Slots α) := do
  if slots.nRows ≠ 0 ∧ i ≤ source.1 then Outcome.outOfRange
  else
    let old ← slots.get source.1
    slots.set source.1 (Column.addScaled 1 old source.2)

/-- Hands the gradient of slot `i` on. -/
def backwardStep (t : NodeTable α) (values : Slots α) (adj : Adjoint α)
    (entry : Instruction × Nat) : Outcome GraphError (Adjoint α) := do
  let (step, i) := entry
  if ← Outcome.fetch t.dropped step.node then return adj
  let op ← Outcome.fetch t.ops step.node
  let params ← Outcome.fetch t.params step.node
  let grad ← adj.slots.get i
  if step.sources.isEmpty && params.isEmpty then return adj
  if grad.all (Arith.eqv · 0) then return adj
  let srcs ← step.sources.mapM values.get
  let out ← values.get i
  let pulled ← op.backward params srcs out grad
  let slots ← (step.sources.zip pulled.srcs).foldlM (accumulate i) adj.slots
  let gradients ← Outcome.store adj.params.params step.node pulled.params
  return ⟨slots, ⟨gradients⟩⟩

/-- The gradient before the first step: one over the number of rows at the
objective and zero elsewhere. -/
def seed (t : NodeTable α) (p : Tape) (nRows objectiveSlot : Nat) :
    Outcome GraphError (Adjoint α) := do
  let slots ← (Slots.zeros p.size nRows).set objectiveSlot
    (List.replicate nRows (1 / (nRows : α)))
  return ⟨slots, ⟨Array.replicate t.size []⟩⟩

/-- The gradients of the loss, from the columns that a forward pass with a target
has left. -/
def backward (t : NodeTable α) (p : Tape) (values : Slots α) (objective : NodeId) :
    Outcome GraphError (Adjoint α) :=
  match p.slotOf? objective with
  | none => Outcome.fail .noObjective
  | some slot =>
    if values.size ≠ p.size then
      Outcome.fail (.mismatch (.slotCount values.size p.size))
    else do
      let start ← seed t p values.nRows slot
      ((p.steps.zipIdx.take (slot + 1)).reverse).foldlM (backwardStep t values) start

/-- Mean of the objective's column, if there are rows. -/
def loss? (p : Tape) (values : Slots α) (objective : NodeId) : Option α := do
  let slot ← p.slotOf? objective
  let column ← values.columns[slot]?
  if values.nRows = 0 then none else some (Arith.mean column)

end Tape

end FeatureGraph
