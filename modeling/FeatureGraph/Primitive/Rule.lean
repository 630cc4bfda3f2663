import FeatureGraph.Primitive.Basic
import FeatureGraph.Primitive.Column
import FeatureGraph.Outcome

/-!
# Local rules of the primitives

`Primitive.forward` computes the column of a node from its parameters and the
columns of its parents.  `Primitive.backward` turns the gradient of that column
into gradients of the parents' columns and of the parameters, by the local
partial derivatives.  Both read exactly the parameters and columns that the
primitive needs, and read outside of the data if there are fewer.

Inputs and targets take their values from the data; here they are inert.
-/

namespace FeatureGraph.Primitive

variable {ε α : Type} [Arith α]

/-- The column of `n` rows of a node.  What the primitive reads is looked up before
the column is made. -/
def forward (op : Primitive) (params : List α) (srcs : List (List α)) (n : Nat) :
    Outcome ε (List α) :=
  match op with
  | linear | output => do
    let bias ← Outcome.fetchList params srcs.length
    return (params.zip srcs).foldl (fun d p => Column.addScaled p.1 d p.2) (List.replicate n bias)
  | exp => do
    let a ← Outcome.fetchList srcs 0
    return Column.overwrite Arith.exp (Column.zeros n) a
  | log => do
    let a ← Outcome.fetchList srcs 0
    return Column.overwrite Arith.log (Column.zeros n) a
  | modulus => do
    let a ← Outcome.fetchList srcs 0
    return Column.overwrite Arith.abs (Column.zeros n) a
  | pow => do
    let p ← Outcome.fetchList params 0
    let a ← Outcome.fetchList srcs 0
    return Column.overwrite (Arith.pow · p) (Column.zeros n) a
  | div => do
    let a ← Outcome.fetchList srcs 0
    let b ← Outcome.fetchList srcs 1
    return Column.overwrite₂ (· / ·) (Column.zeros n) a b
  | mult => do
    let a ← Outcome.fetchList srcs 0
    let b ← Outcome.fetchList srcs 1
    return Column.overwrite₂ (· * ·) (Column.zeros n) a b
  | objective => do
    let a ← Outcome.fetchList srcs 0
    let b ← Outcome.fetchList srcs 1
    return Column.overwrite₂ (fun o t => (o - t) * (o - t)) (Column.zeros n) a b
  | input _ | target => .ok (Column.zeros n)

/-- Gradients of the parents' columns, in the order of the parents, and of the
parameters. -/
structure Pullback (α : Type) where
  srcs : List (List α)
  params : List α

/-- Gradients of the parents' columns where only the first has one. -/
def firstOnly (n : Nat) (d : List α) : List (List α) → List (List α)
  | [] => []
  | _ :: rest => d :: rest.map fun _ => Column.zeros n

/-- Gradients of the parents' columns where the first two have one. -/
def firstTwo (n : Nat) (d e : List α) : List (List α) → List (List α)
  | _ :: _ :: rest => d :: e :: rest.map fun _ => Column.zeros n
  | srcs => srcs.map fun _ => Column.zeros n

/-- The derivative of the magnitude, times the gradient; zero at zero. -/
def modulusSlope (g x : α) : α :=
  if Arith.lt 0 x then g else if Arith.lt x 0 then -g else 0

/-- The gradient of the exponent, over the rows with a positive base. -/
def exponentGradient (grad src out : List α) : α :=
  Arith.sum (((grad.zip (src.zip out)).filter fun (_, x, _) => Arith.lt 0 x).map
    fun (g, x, y) => g * y * Arith.log x)

/-- The gradient of the denominator of one row. -/
def denominatorGradient (g a b : α) : α := -g * a / (b * b)

/-- Turns the gradient of a node's column into gradients of what it was computed
from.  `out` is the node's own column. -/
def backward (op : Primitive) (params : List α) (srcs : List (List α)) (out grad : List α) :
    Outcome ε (Pullback α) :=
  let n := grad.length
  let dest : List α := Column.zeros n
  match op with
  | linear | output =>
    if params.length ≤ srcs.length then Outcome.outOfRange
    else
      .ok {
        srcs := List.zipWith (fun p (_ : List α) => Column.addScaled p dest grad) params srcs
        params := srcs.map (Column.dot grad) ++ Arith.sum grad ::
          Column.zeros (params.length - srcs.length - 1) }
  | exp => do
    let _ ← Outcome.fetchList srcs 0
    return ⟨firstOnly n (Column.overwrite₂ (· * ·) dest grad out) srcs, Column.zeros params.length⟩
  | log => do
    let a ← Outcome.fetchList srcs 0
    return ⟨firstOnly n (Column.overwrite₂ (· / ·) dest grad a) srcs, Column.zeros params.length⟩
  | modulus => do
    let a ← Outcome.fetchList srcs 0
    return ⟨firstOnly n (Column.overwrite₂ modulusSlope dest grad a) srcs,
      Column.zeros params.length⟩
  | pow => do
    let p ← Outcome.fetchList params 0
    let a ← Outcome.fetchList srcs 0
    return {
      srcs := firstOnly n
        (Column.overwrite₂ (fun g x => g * p * Arith.pow x (p - 1)) dest grad a) srcs
      params := exponentGradient grad a out :: Column.zeros (params.length - 1) }
  | div => do
    let a ← Outcome.fetchList srcs 0
    let b ← Outcome.fetchList srcs 1
    if a.length < n ∨ b.length < n then Outcome.outOfRange
    else return ⟨firstTwo n (Column.overwrite₂ (· / ·) dest grad b)
      (List.zipWith (fun g (p : α × α) => denominatorGradient g p.1 p.2) grad (a.zip b)) srcs,
      Column.zeros params.length⟩
  | mult => do
    let a ← Outcome.fetchList srcs 0
    let b ← Outcome.fetchList srcs 1
    return ⟨firstTwo n (Column.overwrite₂ (· * ·) dest grad b)
      (Column.overwrite₂ (· * ·) dest grad a) srcs, Column.zeros params.length⟩
  | objective => do
    let a ← Outcome.fetchList srcs 0
    let b ← Outcome.fetchList srcs 1
    let residual := Column.overwrite₂ (fun o t => 2.0 * (o - t)) dest a b
    let d := List.zipWith (· * ·) residual grad
    return ⟨firstTwo n d (d.map fun v => -v) srcs, Column.zeros params.length⟩
  | input _ | target => .ok ⟨srcs.map fun _ => dest, Column.zeros params.length⟩

end FeatureGraph.Primitive
