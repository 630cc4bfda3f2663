import FeatureGraph.Forest.Basic
import FeatureGraph.Model.Error

/-!
# Lowering

Every feature of a forest becomes a short chain of primitive nodes.  The chain
ends in the node whose column is the feature's value, and the mapping binds the
feature to that node.

A root becomes an input and a constant scaling.  Any other operand passes through
an affine node of its own, which starts out as the identity and can be trained.
Square roots and squares are powers of a magnitude with a trainable exponent; the
exponent of a reciprocal is constant.
-/

namespace FeatureGraph

/-- The node that stands for a feature. -/
structure Binding where
  index : Nat
  expr : String
  node : NodeId
deriving DecidableEq, Repr

/-- The nodes that stand for features, in the order of the forest. -/
structure NodeMapping where
  bindings : List Binding := []
deriving DecidableEq, Repr

namespace NodeMapping

def size (m : NodeMapping) : Nat := m.bindings.length

/-- The node of an expression. -/
def get? (m : NodeMapping) (expr : String) : Option NodeId :=
  (m.bindings.find? (·.expr == expr)).map (·.node)

/-- The node of a position in the forest. -/
def getIndex? (m : NodeMapping) (index : Nat) : Option NodeId :=
  (m.bindings.find? (·.index == index)).map (·.node)

/-- Binds a feature that is not bound yet. -/
def bind {α : Type} (m : NodeMapping) (b : Binding) : Outcome (ModelError α) NodeMapping :=
  if m.bindings.any fun c => c.expr == b.expr || c.index == b.index then
    Outcome.fail (.duplicateBinding b.expr)
  else .ok ⟨m.bindings ++ [b]⟩

end NodeMapping

namespace Lowering

variable {α : Type} [Arith α]

/-- Adds a node with other parameters than the default ones. -/
def addWith (g : Graph α) (op : Primitive) (parents : List NodeId) (name : String)
    (params : List α) : Outcome GraphError (NodeId × Graph α) := do
  let (id, g) ← g.addNode op parents name
  let g ← g.setParams id params
  return (id, g)

/-- An affine node that starts out as the identity. -/
def affine (g : Graph α) (parent : NodeId) (label : String) :
    Outcome GraphError (NodeId × Graph α) :=
  addWith g .linear [parent] s!"{label}.lin" [1, 0]

/-- A primitive of one operand, behind an affine node. -/
def unary (g : Graph α) (parent : NodeId) (label : String) (op : Primitive) :
    Outcome GraphError (NodeId × Graph α) := do
  let (lin, g) ← affine g parent label
  g.addNode op [lin] s!"{label}.{op.name}"

/-- The magnitude of an operand to a trainable power. -/
def magnitudePower (g : Graph α) (parent : NodeId) (label : String) (exponent : α) :
    Outcome GraphError (NodeId × Graph α) := do
  let (abs, g) ← unary g parent label .modulus
  addWith g .pow [abs] s!"{label}.pow" [exponent]

/-- The reciprocal of an operand.  The exponent is constant, since it has no
gradient at negative operands. -/
def reciprocal (g : Graph α) (parent : NodeId) (label : String) :
    Outcome GraphError (NodeId × Graph α) := do
  let (lin, g) ← affine g parent label
  let (pow, g) ← addWith g .pow [lin] s!"{label}.pow" [-1]
  let g ← g.setConstant pow true
  return (pow, g)

/-- A sum of two operands with the given sign of the second. -/
def signedSum (g : Graph α) (parents : List NodeId) (label : String) (sign : α) :
    Outcome GraphError (NodeId × Graph α) :=
  addWith g .linear parents s!"{label}.lin" [1, sign, 0]

/-- A primitive of two operands, each behind an affine node. -/
def binary (g : Graph α) (lhs rhs : NodeId) (label : String) (op : Primitive) :
    Outcome GraphError (NodeId × Graph α) := do
  let (l, g) ← affine g lhs s!"{label}.lhs"
  let (r, g) ← affine g rhs s!"{label}.rhs"
  g.addNode op [l, r] s!"{label}.{op.name}"

/-- An input with a constant scaling. -/
def root (g : Graph α) (label : String) (scale : α) : Outcome GraphError (NodeId × Graph α) := do
  let (input, g) := g.appendInput label
  let (id, g) ← addWith g .linear [input] s!"{label}.scale" [scale, 0]
  let g ← g.setConstant id true
  return (id, g)

/-- The chain of an operator over the nodes of its operands. -/
def chain (g : Graph α) (op : Operator) (operands : List NodeId) (label : String) :
    Outcome GraphError (NodeId × Graph α) :=
  match op, operands with
  | .exp, a :: _ => unary g a label .exp
  | .log, a :: _ => unary g a label .log
  | .abs, a :: _ => unary g a label .modulus
  | .sqrt, a :: _ => magnitudePower g a label 0.5
  | .square, a :: _ => magnitudePower g a label 2.0
  | .reciprocal, a :: _ => reciprocal g a label
  | .add, _ => signedSum g operands label 1
  | .subtract, _ => signedSum g operands label (-1)
  | .divide, a :: b :: _ => binary g a b label .div
  | .multiply, a :: b :: _ => binary g a b label .mult
  | _, _ => Outcome.outOfRange

/-- The nodes of the features that a feature is built from. -/
def operands (f : Forest α) (m : NodeMapping) (feature : Feature α) :
    Outcome (ModelError α) (List NodeId) :=
  feature.parents.mapM fun p =>
    match m.getIndex? p with
    | some id => .ok id
    | none =>
      Outcome.fail (.unresolvedParent feature.expr (((f.get? p).map (·.expr)).getD s!"#{p}"))

/-- Adds the chain of a feature; answers its last node too. -/
def lower (g : Graph α) (feature : Feature α) (operands : List NodeId) :
    Outcome (ModelError α) (NodeId × Graph α) :=
  if feature.isRoot then Outcome.mapFailure .graph (root g feature.expr feature.scale)
  else if feature.op = .identity then
    Outcome.fail (.untranslatable feature.expr feature.op.symbol)
  else Outcome.mapFailure .graph (chain g feature.op operands feature.expr)

/-- Adds and binds the chain of the feature at a position. -/
def lowerAt (f : Forest α) (s : Graph α × NodeMapping) (i : Nat) (feature : Feature α) :
    Outcome (ModelError α) (Graph α × NodeMapping) := do
  let (g, m) := s
  let parents ← operands f m feature
  let (node, g) ← lower g feature parents
  let m ← m.bind ⟨i, feature.expr, node⟩
  return (g, m)

/-- Adds and binds the chains of the remaining features. -/
def lowerFrom (f : Forest α) :
    List (Nat × Feature α) → Graph α × NodeMapping → Report α (Graph α × NodeMapping)
  | [], s => ⟨.ok s, [.lowered s.1.size f.size]⟩
  | (i, feature) :: rest, s =>
    Report.after (.lowering (i + 1) f.size feature.expr) <|
      match lowerAt f s i feature with
      | .error fault => ⟨.error fault, []⟩
      | .ok s => lowerFrom f rest s

end Lowering

/-- The graph of a forest, and the nodes that stand for its features. -/
def Forest.lower {α : Type} [Arith α] (f : Forest α) : Report α (Graph α × NodeMapping) :=
  Lowering.lowerFrom f f.entries (.empty, {})

end FeatureGraph
