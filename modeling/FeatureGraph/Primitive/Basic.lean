import FeatureGraph.Arith
import FeatureGraph.Json.Decode

/-!
# Primitive operations

The operations that the nodes of a computation graph carry, with their arities
and parameter counts.  A linear node over `n` parents has `n` weights and, at the
end, a bias; a power node has its exponent as parameter.
-/

namespace FeatureGraph

inductive Primitive where
  /-- Reads one column of the sample matrix. -/
  | input (column : Nat)
  /-- Weighted sum of the parents plus a bias. -/
  | linear
  | exp
  | log
  /-- Magnitude. -/
  | modulus
  /-- Power with a parameter as exponent. -/
  | pow
  | div
  | mult
  /-- A linear node that is an output of the graph. -/
  | output
  /-- Holds the training target. -/
  | target
  /-- Squared error between an output and a target. -/
  | objective
deriving DecidableEq, Repr

namespace Primitive

def name : Primitive → String
  | input _ => "input"
  | linear => "linear"
  | exp => "exp"
  | log => "log"
  | modulus => "mod"
  | pow => "pow"
  | div => "div"
  | mult => "mult"
  | output => "output"
  | target => "target"
  | objective => "objective"

/-- Required number of parents; `none` where any positive number will do. -/
def arity? : Primitive → Option Nat
  | input _ | target => some 0
  | exp | log | modulus | pow => some 1
  | div | mult | objective => some 2
  | linear | output => none

/-- Whether the primitive can have `n` parents. -/
def admits (op : Primitive) (n : Nat) : Bool :=
  match op.arity? with
  | some k => n == k
  | none => n != 0

/-- Number of parameters of a node with `n` parents. -/
def paramCount (op : Primitive) (n : Nat) : Nat :=
  match op with
  | linear | output => n + 1
  | pow => 1
  | _ => 0

/-- Parameters of a new node with `n` parents: unit weights and no bias, or the
exponent one. -/
def defaultParams {α : Type} [Arith α] (op : Primitive) (n : Nat) : List α :=
  match op with
  | linear | output => List.replicate n 1 ++ [0]
  | pow => [1]
  | _ => []

/-- The word for a primitive in a document. -/
def documentName : Primitive → String
  | input _ => "Input"
  | linear => "Linear"
  | exp => "Exp"
  | log => "Log"
  | modulus => "Mod"
  | pow => "Pow"
  | div => "Div"
  | mult => "Mult"
  | output => "Output"
  | target => "Target"
  | objective => "Objective"

/-- The primitives without a column. -/
def columnless : List Primitive :=
  [linear, exp, log, modulus, pow, div, mult, output, target, objective]

/-- In a document a primitive goes by its word; an input is a record of its column. -/
def toJson : Primitive → Json.Value
  | input column => .ofMembers [("Input", .ofMembers [("column", .ofNat column)])]
  | op => .ofString op.documentName

/-- The column of an input, from the record that goes with its word. -/
def inputOfJson? (payload : Option Json.Value) : Option Primitive := do
  let v ← payload
  let [column] ← v.fields? ["column"] | none
  return input (← Json.Value.required? Json.Value.word32? column)

def ofJson? (v : Json.Value) : Option Primitive := do
  let (word, payload) ← v.alternative?
  if word = "Input" then inputOfJson? payload
  else if Json.Value.isEmptyPayload payload then columnless.find? (·.documentName == word)
  else none

end Primitive

end FeatureGraph
