import FeatureGraph.Forest.Basic
import FeatureGraph.Matrix

/-!
# Values of symbolic features

The forest's own evaluator: each feature has one column of values over the rows
of a matrix.  `Forest.evaluate` computes all columns in order.
`Forest.evaluateAt` computes one column from the features it is built from, and
touches no others.
-/

namespace FeatureGraph.Forest

variable {α : Type} [Arith α]

/-- The column of one feature, given the columns of its parents. -/
def column (f : Forest α) (x : Matrix α) (parentColumn : Nat → Outcome ForestError (List α))
    (i : Nat) (feature : Feature α) : Outcome ForestError (List α) :=
  if feature.isRoot then do
    let raw ← Outcome.ofOption (x.column? ((f.rootColumn? i).getD 0))
    return raw.map (feature.scale * ·)
  else
    match feature.parents with
    | [p] => do
      let a ← parentColumn p
      a.mapM fun v => feature.op.apply [v]
    | [p, q] => do
      let a ← parentColumn p
      let b ← parentColumn q
      (a.zip b).mapM fun (u, v) => feature.op.apply [u, v]
    | _ => .ok (List.replicate x.nRows Arith.nan)

/-- The matrix needs a column for every root. -/
def checkColumns (f : Forest α) (x : Matrix α) : Outcome ForestError Unit :=
  if x.nCols < f.rootCount then Outcome.fail (.columnMismatch f.rootCount x.nCols) else .ok ()

/-- Appends the column of one more feature. -/
def pushColumn (f : Forest α) (x : Matrix α) (columns : Array (List α))
    (entry : Nat × Feature α) : Outcome ForestError (Array (List α)) := do
  let c ← f.column x (Outcome.fetch columns) entry.1 entry.2
  return columns.push c

/-- The columns of all features, in the order of the forest. -/
def evaluate (f : Forest α) (x : Matrix α) : Outcome ForestError (List (List α)) := do
  f.checkColumns x
  let columns ← f.entries.foldlM (f.pushColumn x) #[]
  return columns.toList

/-- Walks down from position `i`, collecting the positions in `wanted` and those
that they are built from.  The result is in ascending order, in front of `found`. -/
def collectWanted (f : Forest α) : Nat → List Nat → List Nat → List Nat
  | 0, _, found => found
  | i + 1, wanted, found =>
    if i ∈ wanted then f.collectWanted i (f.parents i ++ wanted) (i :: found)
    else f.collectWanted i wanted found

/-- The positions that a feature is built from, directly or through others, and
its own; in ascending order. -/
def closure (f : Forest α) (i : Nat) : List Nat := f.collectWanted (i + 1) [i] []

/-- Enters the column of one more feature of a closure. -/
def enterColumn (f : Forest α) (x : Matrix α) (columns : List (Nat × List α)) (i : Nat) :
    Outcome ForestError (List (Nat × List α)) := do
  let feature ← Outcome.ofOption (f.get? i)
  let c ← f.column x (fun p => Outcome.ofOption (columns.lookup p)) i feature
  return (i, c) :: columns

/-- The column of one feature. -/
def evaluateAt (f : Forest α) (i : Nat) (x : Matrix α) : Outcome ForestError (List α) :=
  if f.size ≤ i then Outcome.fail (.unknownIndex i)
  else do
    f.checkColumns x
    let columns ← (f.closure i).foldlM (f.enterColumn x) []
    Outcome.ofOption (columns.lookup i)

end FeatureGraph.Forest
