import FeatureGraph.Forest.Basic
import FeatureGraph.Json.Reader
import FeatureGraph.Json.Writer
import FeatureGraph.Json.Scalar

/-!
# Feature records

The flat form of a forest: one record per feature, in order, with parents named
by their expressions.  `Forest.ofRecords` accepts a list of records exactly when
adding the features one by one succeeds, and `Forest.toRecords` lists them again.

In a document a record is a JSON object.
-/

namespace FeatureGraph

structure FeatureRecord (α : Type) where
  expr : String
  /-- The tag of the operator. -/
  op : String
  /-- Expressions of the parents. -/
  parents : List String
  isRoot : Bool
  prefactor : α
  unitPrefactor : α
  quality : α
  coverage : α

namespace FeatureRecord

variable {α : Type}

def toJson [DecimalText α] (r : FeatureRecord α) : Json.Value :=
  .ofMembers [
    ("expr", .ofString r.expr),
    ("op", .ofString r.op),
    ("parents", .ofList Json.Value.ofString r.parents),
    ("is_root", .bool r.isRoot),
    ("prefactor", .ofScalar r.prefactor),
    ("unit_prefactor", .ofScalar r.unitPrefactor),
    ("q", .ofScalar r.quality),
    ("cov", .ofScalar r.coverage)]

/-- Only the expression and the operator must be there. -/
def ofJson? [Arith α] [DecimalText α] (v : Json.Value) : Option (FeatureRecord α) := do
  let [expr, op, parents, isRoot, prefactor, unitPrefactor, quality, coverage] ← v.fields?
    ["expr", "op", "parents", "is_root", "prefactor", "unit_prefactor", "q", "cov"] | none
  return {
    expr := ← Json.Value.required? Json.Value.text? expr
    op := ← Json.Value.required? Json.Value.text? op
    parents := ← Json.Value.orDefault? (Json.Value.list? Json.Value.text?) [] parents
    isRoot := ← Json.Value.orDefault? Json.Value.bool? false isRoot
    prefactor := ← Json.Value.orDefault? Json.Value.scalar? 1 prefactor
    unitPrefactor := ← Json.Value.orDefault? Json.Value.scalar? 1 unitPrefactor
    quality := ← Json.Value.orDefault? Json.Value.scalar? 0 quality
    coverage := ← Json.Value.orDefault? Json.Value.scalar? 0 coverage
  }

end FeatureRecord

namespace Forest

variable {α : Type}

/-- Looks up the parents of a record by their expressions. -/
def resolveParents (f : Forest α) (expr : String) : List String → Outcome ForestError (List Nat)
  | [] => .ok []
  | p :: ps =>
    match f.indexOf? p with
    | none => Outcome.fail (.unknownParent expr p)
    | some i => do return i :: (← f.resolveParents expr ps)

/-- Adds the feature that a record describes; answers its position too. -/
def addUnscored [Arith α] (f : Forest α) (r : FeatureRecord α) (op : Operator) :
    Outcome ForestError (Nat × Forest α) :=
  if r.isRoot then
    if op ≠ .identity then Outcome.fail (.invalidRoot r.expr op)
    else f.addRoot r.expr r.prefactor r.unitPrefactor
  else do
    let parents ← f.resolveParents r.expr r.parents
    f.addNode r.expr op parents

/-- Adds the feature that a record describes, with its scores. -/
def addRecord [Arith α] (f : Forest α) (r : FeatureRecord α) : Outcome ForestError (Forest α) :=
  match Operator.ofSymbol? r.op with
  | none => Outcome.fail (.unknownOperator r.op)
  | some op => do
    let (i, f) ← f.addUnscored r op
    f.setScores i r.quality r.coverage

/-- The forest that a list of records describes. -/
def ofRecords [Arith α] (rs : List (FeatureRecord α)) : Outcome ForestError (Forest α) :=
  rs.foldlM addRecord empty

/-- The record of one feature. -/
def recordOf (f : Forest α) (feature : Feature α) : FeatureRecord α where
  expr := feature.expr
  op := feature.op.symbol
  parents := feature.parents.filterMap fun p => (f.get? p).map Feature.expr
  isRoot := feature.isRoot
  prefactor := feature.prefactor
  unitPrefactor := feature.unitPrefactor
  quality := feature.quality
  coverage := feature.coverage

def toRecords (f : Forest α) : List (FeatureRecord α) := f.features.toList.map f.recordOf

end Forest

end FeatureGraph
