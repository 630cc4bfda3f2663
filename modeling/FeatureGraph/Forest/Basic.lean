import FeatureGraph.Forest.Error

/-!
# Forests of symbolic features

A forest lists symbolic features in the order in which they were added.  A root
reads the next raw input column; any other feature applies an operator to
features that stand before it.  Each feature has an expression that is its own.

Which features are roots, and where an expression stands, is read off the list.
-/

namespace FeatureGraph

/-- One symbolic feature.  `quality` and `coverage` are the scores that a feature
search assigns: higher quality is better, and the coverage is the signed
correlation with the training target. -/
structure Feature (α : Type) where
  expr : String
  op : Operator
  /-- Positions of the features it is built from. -/
  parents : List Nat
  isRoot : Bool
  prefactor : α
  unitPrefactor : α
  quality : α
  coverage : α

namespace Feature

variable {α : Type} [Arith α]

/-- The factor that a root applies to its input column. -/
def scale (f : Feature α) : α := f.prefactor * f.unitPrefactor

/-- How likely the feature is to be kept by activity dropout. -/
def activity (f : Feature α) : α := Arith.abs (f.coverage * f.quality)

end Feature

structure Forest (α : Type) where
  features : Array (Feature α)

namespace Forest

variable {α : Type}

def empty : Forest α := ⟨#[]⟩

def size (f : Forest α) : Nat := f.features.size

/-- The features with their positions. -/
def entries (f : Forest α) : List (Nat × Feature α) :=
  f.features.toList.zipIdx.map fun (feature, i) => (i, feature)

def get? (f : Forest α) (i : Nat) : Option (Feature α) := f.features[i]?

/-- Where an expression stands. -/
def indexOf? (f : Forest α) (expr : String) : Option Nat :=
  f.features.findIdx? (·.expr == expr)

/-- The positions a feature is built from; none for an unknown position. -/
def parents (f : Forest α) (i : Nat) : List Nat :=
  match f.get? i with
  | some feature => feature.parents
  | none => []

/-- Number of roots among the first `n` features. -/
def rootsBefore (f : Forest α) (n : Nat) : Nat :=
  (f.features.toList.take n).countP (·.isRoot)

def rootCount (f : Forest α) : Nat := f.rootsBefore f.size

/-- The input column that a root reads: roots take columns in their order. -/
def rootColumn? (f : Forest α) (i : Nat) : Option Nat :=
  match f.get? i with
  | some feature => if feature.isRoot then some (f.rootsBefore i) else none
  | none => none

/-- Refuses an expression that is already there. -/
def checkFresh (f : Forest α) (expr : String) : Outcome ForestError Unit :=
  match f.indexOf? expr with
  | some _ => Outcome.fail (.duplicateExpr expr)
  | none => .ok ()

/-- Refuses the first parent that does not stand before the new feature. -/
def checkParents (f : Forest α) (expr : String) : List Nat → Outcome ForestError Unit
  | [] => .ok ()
  | p :: ps =>
    if p < f.size then f.checkParents expr ps
    else Outcome.fail (.unknownParent expr s!"#{p}")

/-- The arity of an operator node must be that of its operator, which is not the
identity. -/
def checkArity (expr : String) (op : Operator) (n : Nat) : Outcome ForestError Unit :=
  if op = .identity then Outcome.fail (.arity expr op 1 n)
  else if n ≠ op.arity then Outcome.fail (.arity expr op op.arity n)
  else .ok ()

/-- Appends a root that reads the next input column; answers its position too. -/
def addRoot [Arith α] (f : Forest α) (expr : String) (prefactor unitPrefactor : α) :
    Outcome ForestError (Nat × Forest α) := do
  f.checkFresh expr
  return (f.size, ⟨f.features.push ⟨expr, .identity, [], true, prefactor, unitPrefactor, 0, 0⟩⟩)

/-- Appends an operator over features that are already there; answers its position too. -/
def addNode [Arith α] (f : Forest α) (expr : String) (op : Operator) (parents : List Nat) :
    Outcome ForestError (Nat × Forest α) := do
  f.checkFresh expr
  checkArity expr op parents.length
  f.checkParents expr parents
  return (f.size, ⟨f.features.push ⟨expr, op, parents, false, 1, 1, 0, 0⟩⟩)

/-- Sets the scores of one feature. -/
def setScores (f : Forest α) (i : Nat) (quality coverage : α) : Outcome ForestError (Forest α) :=
  if h : i < f.features.size then
    .ok ⟨f.features.set i { f.features[i] with quality, coverage }⟩
  else Outcome.fail (.unknownIndex i)

end Forest

end FeatureGraph
