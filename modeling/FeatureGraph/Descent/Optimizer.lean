import FeatureGraph.Descent.Method
import FeatureGraph.Event

/-!
# Gradient descent on graphs

An optimizer updates the trainable parameters of a graph along the gradients of
its loss.  Adam's running means, one pair per node, and the step counter stay
with the optimizer from one run to the next.

`Optimizer.run` takes a number of steps.  Each step evaluates the graph first, so
the losses that it answers are those before the first and before the last update.
-/

namespace FeatureGraph

/-- Running means of a node's gradient and of its square. -/
structure Moments (α : Type) where
  first : List α
  second : List α
deriving DecidableEq, Repr

structure Optimizer (α : Type) where
  method : Method
  moments : List (NodeId × Moments α) := []
  /-- Number of steps taken. -/
  steps : Nat := 0

/-- The loss before the first and before the last update of a run. -/
structure Losses (α : Type) where
  initial : α
  final : α
deriving DecidableEq, Repr

namespace Optimizer

variable {α : Type}

def ofMethod (method : Method) : Optimizer α := { method }

/-- The running means of a node, if it has been updated before. -/
def moments? (o : Optimizer α) (id : NodeId) : Option (Moments α) := o.moments.lookup id

/-- Replaces the running means of a node. -/
def setMoments (o : Optimizer α) (id : NodeId) (m : Moments α) : Optimizer α :=
  { o with moments := (id, m) :: o.moments.filter (·.1 != id) }

variable [Arith α]

/-- Decay of the running mean of the gradient. -/
def decay₁ : α := 0.9

/-- Decay of the running mean of the squared gradient. -/
def decay₂ : α := 0.999

/-- Keeps Adam's denominators away from zero. -/
def guard : α := 1e-8

/-- Steepest descent on the parameters of one node. -/
def steepUpdate (rate : α) (params grad : List α) : List α :=
  Column.update (fun p d => p - rate * d) params grad

/-- The exponent that corrects the bias of running means after `t` steps.  It is
the step number as a signed word of 32 bits. -/
def biasExponent (t : Nat) : Int := Int.bmod t (1 <<< 32)

/-- One minus the power of a decay: the weight of the gradients seen in `t` steps. -/
def seenWeight (decay : α) (t : Nat) : α := 1 - Arith.powInt decay (biasExponent t)

/-- The running means after one more gradient. -/
def Moments.advance (m : Moments α) (grad : List α) : Moments α where
  first := Column.update (fun m g => decay₁ * m + (1 - decay₁) * g) m.first grad
  second := Column.update (fun v g => decay₂ * v + (1 - decay₂) * g * g) m.second grad

/-- Adam's change of one parameter in step `t`. -/
def adamChange (rate : α) (t : Nat) (m v : α) : α :=
  rate * (m / seenWeight decay₁ t) / (Arith.sqrt (v / seenWeight decay₂ t) + guard)

/-- Adam on the parameters of one node in step `t`.  The running means and the
parameters must be as many as the gradients. -/
def adamUpdate {ε : Type} (rate : α) (t : Nat) (m : Moments α) (params grad : List α) :
    Outcome ε (List α × Moments α) :=
  let n := grad.length
  if m.first.length < n ∨ m.second.length < n ∨ params.length < n then Outcome.outOfRange
  else
    let m := Moments.advance m grad
    let pairs := (m.first.zip m.second).take n
    .ok (Column.update (fun p (mv : α × α) => p - adamChange rate t mv.1 mv.2) params pairs, m)

/-- Updates the parameters of one node, unless its gradient is empty. -/
def updateNode (rate : α) (grads : Gradients α) (s : Graph α × Optimizer α) (id : NodeId) :
    Outcome GraphError (Graph α × Optimizer α) :=
  let (g, o) := s
  let grad := grads.get id
  if grad.isEmpty then .ok s
  else do
    let params ← Outcome.fetch g.table.params id
    let (params, o) ← match o.method with
      | .steep => pure (steepUpdate rate params grad, o)
      | .adam => do
        let zeros := Column.zeros grad.length
        let m := (o.moments? id).getD ⟨zeros, zeros⟩
        let (params, m) ← adamUpdate rate o.steps m params grad
        pure (params, o.setMoments id m)
    let column ← Outcome.store g.table.params id params
    return ({ g with table := { g.table with params := column } }, o)

/-- The graph and the optimizer after a step, or what a failed step leaves behind. -/
structure Stepped (α β : Type) where
  outcome : Outcome GraphError β
  graph : Graph α
  optimizer : Optimizer α

/-- One update of the given nodes; answers the loss before it. -/
def step (o : Optimizer α) (g : Graph α) (x : Matrix α) (y : List α) (rate : α)
    (nodes : List NodeId) : Stepped α α :=
  match g.gradients x y with
  | (.error fault, g) => ⟨.error fault, g, o⟩
  | (.ok grads, g) =>
    let loss := g.loss?.getD Arith.nan
    let o := { o with steps := o.steps + 1 }
    match nodes.foldlM (updateNode rate grads) (g, o) with
    | .error fault => ⟨.error fault, g, o⟩
    | .ok (g, o) => ⟨.ok loss, g, o⟩

/-- `n` updates of the given nodes; answers the losses before each of them. -/
def steps? (x : Matrix α) (y : List α) (rate : α) (nodes : List NodeId) :
    Nat → Optimizer α → Graph α → Stepped α (List α)
  | 0, o, g => ⟨.ok [], g, o⟩
  | n + 1, o, g =>
    match o.step g x y rate nodes with
    | ⟨.error fault, g, o⟩ => ⟨.error fault, g, o⟩
    | ⟨.ok loss, g, o⟩ =>
      let rest := steps? x y rate nodes n o g
      { rest with outcome := rest.outcome.map (loss :: ·) }

/-- The first and the last of a list of losses. -/
def Losses.ofList (losses : List α) : Losses α where
  initial := losses.head?.getD Arith.nan
  final := losses.getLast?.getD Arith.nan

/-- Reports a loss that is not finite after at least one step. -/
def divergence (n : Nat) (l : Losses α) : List (Event α) :=
  if !Arith.isFinite l.final && decide (0 < n) then [.diverged n l.final] else []

/-- `n` updates of all trainable parameters against a target. -/
def run (o : Optimizer α) (g : Graph α) (x : Matrix α) (y : List α) (n : Nat) (rate : α) :
    Stepped α (Losses α) × List (Event α) :=
  match g.table.trainable with
  | .error fault => (⟨.error fault, g, o⟩, [])
  | .ok nodes =>
    let s := steps? x y rate nodes n o g
    match s.outcome with
    | .error fault => ({ s with outcome := .error fault }, [])
    | .ok losses =>
      let l := Losses.ofList losses
      ({ s with outcome := .ok l }, divergence n l)

end Optimizer

end FeatureGraph
