import FeatureGraph.Arith
import FeatureGraph.Outcome
import FeatureGraph.Json.Decode

/-!
# Operators of symbolic features

The closed set of operators that build a feature from earlier ones.  The identity
marks the roots of a forest, which read raw input columns and have no parents.
-/

namespace FeatureGraph

inductive Operator where
  | identity
  | exp
  | log
  | abs
  | sqrt
  | reciprocal
  | square
  | add
  | subtract
  | divide
  | multiply
deriving DecidableEq, Repr

namespace Operator

def all : List Operator :=
  [identity, exp, log, abs, sqrt, reciprocal, square, add, subtract, divide, multiply]

/-- The one-character tag of an operator. -/
def symbol : Operator → String
  | identity => "I"
  | exp => "e"
  | log => "l"
  | abs => "|"
  | sqrt => "s"
  | reciprocal => "r"
  | square => "2"
  | add => "+"
  | subtract => "-"
  | divide => ":"
  | multiply => "*"

/-- The full name of an operator. -/
def name : Operator → String
  | identity => "Identity"
  | exp => "Exp"
  | log => "Log"
  | abs => "Abs"
  | sqrt => "Sqrt"
  | reciprocal => "Reciprocal"
  | square => "Square"
  | add => "Add"
  | subtract => "Subtract"
  | divide => "Divide"
  | multiply => "Multiply"

/-- The operator with the given tag. -/
def ofSymbol? (s : String) : Option Operator := all.find? (·.symbol == s)

/-- The operator with the given name. -/
def ofName? (s : String) : Option Operator := all.find? (·.name == s)

/-- Number of parents. -/
def arity : Operator → Nat
  | identity => 0
  | exp | log | abs | sqrt | reciprocal | square => 1
  | add | subtract | divide | multiply => 2

/-- The operator on scalar arguments.  Arguments past the needed ones are not
looked at; the identity passes its first argument on. -/
def apply {ε α : Type} [Arith α] : Operator → List α → Outcome ε α
  | identity, a :: _ => .ok a
  | exp, a :: _ => .ok (Arith.exp a)
  | log, a :: _ => .ok (Arith.log a)
  | abs, a :: _ => .ok (Arith.abs a)
  | sqrt, a :: _ => .ok (Arith.sqrt a)
  | reciprocal, a :: _ => .ok (1 / a)
  | square, a :: _ => .ok (a * a)
  | add, a :: b :: _ => .ok (a + b)
  | subtract, a :: b :: _ => .ok (a - b)
  | divide, a :: b :: _ => .ok (a / b)
  | multiply, a :: b :: _ => .ok (a * b)
  | _, _ => Outcome.outOfRange

/-- In a document an operator goes by its name. -/
def toJson (o : Operator) : Json.Value := .ofString o.name

def ofJson? : Json.Value → Option Operator := Json.Value.named? ofName?

end Operator

end FeatureGraph
