import FeatureGraph.Graph.Error
import FeatureGraph.Outcome

/-!
# Descent methods

Steepest descent subtracts a multiple of the gradient.  Adam scales each step by
running means of the gradient and of its square.
-/

namespace FeatureGraph

inductive Method where
  | steep
  | adam
deriving DecidableEq, Repr

namespace Method

def all : List Method := [steep, adam]

/-- The word by which a method is chosen. -/
def word : Method → String
  | steep => "steep"
  | adam => "adam"

/-- The name of a method. -/
def name : Method → String
  | steep => "Steep"
  | adam => "Adam"

/-- The method with the given word. -/
def ofWord? (s : String) : Option Method := all.find? (·.word == s)

/-- The method with the given word, or the reason why there is none. -/
def ofWord (s : String) : Outcome GraphError Method :=
  match ofWord? s with
  | some m => .ok m
  | none => Outcome.fail (.unknownMethod s)

def toJson (m : Method) : Json.Value := .ofString m.word

def ofJson? : Json.Value → Option Method := Json.Value.named? ofWord?

end Method

end FeatureGraph
