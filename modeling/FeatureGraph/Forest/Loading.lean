import FeatureGraph.Forest.Record
import FeatureGraph.Forest.Store

/-!
# Forests from records, in place

A forest is loaded into a new store by one edit for each record.  The parents of a record are looked
up where the expressions before it have been entered.  A failure of any edit is that of the whole,
and nothing is left of the store.

A store writes its records with the expressions of the parents, which it reads at their positions.

A document is a JSON array of records.
-/

namespace FeatureGraph

namespace ForestEdit

variable {α β : Type}

/-- The store that an edit leaves behind if it succeeds. -/
def result (e : ForestEdit α β) (s : ForestStore α) : Outcome ForestError (ForestStore α) :=
  let (answer, s') := e.on s
  answer.map fun _ => s'

/-- Looks up the parents of a record by their expressions. -/
def resolveParents (expr : String) : List String → ForestEdit α (List Nat)
  | [] => return []
  | p :: ps => do
    let i ← read fun s =>
      match s.indexOf? p with
      | some i => .ok i
      | none => Outcome.fail (.unknownParent expr p)
    return i :: (← resolveParents expr ps)

variable [Arith α]

/-- Adds the feature that a record describes; answers its position. -/
def addUnscored (r : FeatureRecord α) (op : Operator) : ForestEdit α Nat :=
  if r.isRoot then
    if op ≠ .identity then read fun _ => Outcome.fail (.invalidRoot r.expr op)
    else addRoot r.expr r.prefactor r.unitPrefactor
  else do
    let parents ← resolveParents r.expr r.parents
    addNode r.expr op parents

/-- Adds the feature that a record describes, with its scores. -/
def addRecord (r : FeatureRecord α) : ForestEdit α Unit :=
  match Operator.ofSymbol? r.op with
  | none => read fun _ => Outcome.fail (.unknownOperator r.op)
  | some op => do
    let i ← addUnscored r op
    setScores i r.quality r.coverage

end ForestEdit

namespace ForestStore

variable {α : Type}

/-- The forest that a list of records describes. -/
def ofRecords [Arith α] (rs : List (FeatureRecord α)) : Outcome ForestError (ForestStore α) :=
  rs.foldlM (fun s r => (ForestEdit.addRecord r).result s) empty

/-- The record of one feature. -/
def recordOf (s : ForestStore α) (feature : Feature α) : Outcome ForestError (FeatureRecord α) := do
  let parents ← feature.parents.mapM fun p => do
    return (← Outcome.ofOption (s.get? p)).expr
  return {
    expr := feature.expr
    op := feature.op.symbol
    parents
    isRoot := feature.isRoot
    prefactor := feature.prefactor
    unitPrefactor := feature.unitPrefactor
    quality := feature.quality
    coverage := feature.coverage
  }

def toRecords (s : ForestStore α) : Outcome ForestError (List (FeatureRecord α)) :=
  s.features.toList.mapM s.recordOf

/-- The records as a document. -/
def recordsText [DecimalText α] (s : ForestStore α) : Outcome ForestError String := do
  return (Json.Value.ofList FeatureRecord.toJson (← s.toRecords)).text

/-- The forest that a document describes. -/
def ofText [Arith α] [DecimalText α] (text : String) : Outcome ForestError (ForestStore α) :=
  match (Json.Value.read? text).bind (Json.Value.list? FeatureRecord.ofJson?) with
  | some rs => ofRecords rs
  | none => Outcome.fail (.serialization "not a list of feature records")

end ForestStore

end FeatureGraph
