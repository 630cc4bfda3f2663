import FeatureGraph.Forest.Columns
import FeatureGraph.Walk

/-!
# Forests in place

A forest as it is kept in memory and changed in place.  Besides its features it has an edge from
each parent to its child, the position of each expression, and the list of its roots.  An edit
writes to them one after the other, and what has been written before a failure stays written.

The store has the same evaluators as the plain forest, but they look up columns in the list of
roots and find the ancestors of a feature along the edges.  Where a root has no column, or a feature
neither one parent nor two, they fall back on something else.

`ForestStore.forest` forgets the additional structures, and `Forest.stored` builds those that fit a
list of features.
-/

namespace FeatureGraph

@[ext] structure ForestStore (α : Type) where
  features : Array (Feature α) := #[]
  /-- From parent to child, in the order in which they were added. -/
  edges : List (Nat × Nat) := []
  /-- Where the expressions stand. -/
  positions : List (String × Nat) := []
  roots : List Nat := []

namespace ForestStore

variable {α : Type}

def empty : ForestStore α := {}

/-- The features alone. -/
def forest (s : ForestStore α) : Forest α := ⟨s.features⟩

def size (s : ForestStore α) : Nat := s.features.size

def get? (s : ForestStore α) (i : Nat) : Option (Feature α) := s.features[i]?

/-- Where an expression stands. -/
def indexOf? (s : ForestStore α) (expr : String) : Option Nat := s.positions.lookup expr

def rootCount (s : ForestStore α) : Nat := s.roots.length

/-- The input column that a root reads: its place among the roots. -/
def rootColumn? (s : ForestStore α) (i : Nat) : Option Nat := s.roots.findIdx? (· == i)

/-- The positions from which edges lead to a position. -/
def sources (s : ForestStore α) (i : Nat) : List Nat := (s.edges.filter (·.2 == i)).map (·.1)

end ForestStore

/-! ## Edits -/

/-- A change of a stored forest that answers something or fails. -/
abbrev ForestEdit (α β : Type) := ExceptT (Fault ForestError) (StateM (ForestStore α)) β

namespace ForestEdit

variable {α β : Type}

/-- What an edit answers, and the forest that it leaves behind. -/
def on (e : ForestEdit α β) (s : ForestStore α) : Outcome ForestError β × ForestStore α :=
  e.run.run s

/-- Reads the forest. -/
def read (f : ForestStore α → Outcome ForestError β) : ForestEdit α β := do
  match f (← get) with
  | .ok b => return b
  | .error fault => throw fault

/-- Writes to the forest. -/
def write (f : ForestStore α → ForestStore α) : ForestEdit α Unit := modify f

/-- Refuses an expression that is already there. -/
def checkUnique (expr : String) : ForestEdit α Unit :=
  read fun s =>
    match s.indexOf? expr with
    | some _ => Outcome.fail (.duplicateExpr expr)
    | none => .ok ()

/-- Appends a feature; answers its position. -/
def push (feature : Feature α) : ForestEdit α Nat := do
  let i ← read fun s => .ok s.size
  write fun s => { s with features := s.features.push feature }
  return i

/-- Adds an edge between features. -/
def connect (parent child : Nat) : ForestEdit α Unit := do
  read fun s => if parent < s.size ∧ child < s.size then .ok () else Outcome.outOfRange
  write fun s => { s with edges := s.edges ++ [(parent, child)] }

/-- Enters where an expression stands, in the place of what had been entered for it. -/
def enter (expr : String) (i : Nat) : ForestEdit α Unit :=
  write fun s =>
    if (s.indexOf? expr).isSome then
      { s with positions := s.positions.map fun e => if e.1 == expr then (expr, i) else e }
    else { s with positions := s.positions ++ [(expr, i)] }

variable [Arith α]

/-- Appends a root that reads the next input column; answers its position. -/
def addRoot (expr : String) (prefactor unitPrefactor : α) : ForestEdit α Nat := do
  checkUnique expr
  let i ← push ⟨expr, .identity, [], true, prefactor, unitPrefactor, 0, 0⟩
  enter expr i
  write fun s => { s with roots := s.roots ++ [i] }
  return i

/-- Appends an operator over features that are already there; answers its position. -/
def addNode (expr : String) (op : Operator) (parents : List Nat) : ForestEdit α Nat := do
  checkUnique expr
  read fun _ => Forest.checkArity expr op parents.length
  read fun s => s.forest.checkParents expr parents
  let i ← push ⟨expr, op, parents, false, 1, 1, 0, 0⟩
  parents.forM fun p => connect p i
  enter expr i
  return i

/-- Sets the scores of one feature, one after the other. -/
def setScores (i : Nat) (quality coverage : α) : ForestEdit α Unit := do
  read fun s => if i < s.size then .ok () else Outcome.fail (.unknownIndex i)
  write fun s => { s with features := s.features.modify i fun f => { f with quality } }
  write fun s => { s with features := s.features.modify i fun f => { f with coverage } }

end ForestEdit

/-! ## Values -/

/-- How the column of a feature is computed from those of its parents. -/
abbrev ColumnRule (α : Type) :=
  (Nat → Outcome ForestError (List α)) → Nat → Feature α → Outcome ForestError (List α)

namespace ForestStore

variable {α : Type} [Arith α]

/-- The column of one feature, given what to fall back on: a column for a root that is not among the
roots, and values for a feature with neither one parent nor two. -/
def columnOr (s : ForestStore α) (x : Matrix α) (fallback : Outcome ForestError Nat)
    (values : Outcome ForestError (List α)) : ColumnRule α := fun parentColumn i feature =>
  if feature.isRoot then do
    let column ← match s.rootColumn? i with
      | some column => .ok column
      | none => fallback
    let raw ← Outcome.ofOption (x.column? column)
    return raw.map (feature.scale * ·)
  else
    match feature.parents with
    | [p] => do
      let a ← parentColumn p
      a.mapM fun v => feature.op.apply [v]
    | [p, q] => do
      let a ← parentColumn p
      let b ← parentColumn q
      (a.zip b).mapM fun (u, v) => feature.op.apply [u, v]
    | _ => values

/-- The column of one feature: it falls back on the first column, and on no number at all. -/
def column (s : ForestStore α) (x : Matrix α) : ColumnRule α :=
  s.columnOr x (.ok 0) (.ok (List.replicate x.nRows Arith.nan))

/-- The matrix needs a column for every root. -/
def checkColumns (s : ForestStore α) (x : Matrix α) : Outcome ForestError Unit :=
  if x.nCols < s.rootCount then Outcome.fail (.columnMismatch s.rootCount x.nCols) else .ok ()

/-- The columns of all features by a rule, in the order of the forest. -/
def evaluateBy (s : ForestStore α) (rule : ColumnRule α) (x : Matrix α) :
    Outcome ForestError (List (List α)) := do
  s.checkColumns x
  let columns ← s.forest.entries.foldlM (fun columns e => do
    return columns.push (← rule (Outcome.fetch columns) e.1 e.2)) #[]
  return columns.toList

def evaluate (s : ForestStore α) (x : Matrix α) : Outcome ForestError (List (List α)) :=
  s.evaluateBy (s.column x) x

/-- Takes positions off the stack until it is empty; answers the positions seen. -/
def explore (s : ForestStore α) (seen : List Nat) : List Nat → Outcome ForestError (List Nat)
  | [] => .ok seen
  | i :: stack =>
    if _known : seen.contains i then s.explore seen stack
    else if _inside : i < s.size then
      s.explore (i :: seen) ((s.sources i).filter (fun p => !(i :: seen).contains p) ++ stack)
    else Outcome.outOfRange
termination_by stack => (unseenBelow s.size seen, stack.length)
decreasing_by
  · exact Prod.Lex.right _ (by simp)
  · exact Prod.Lex.left _ _ (unseenBelow_cons_lt _inside (by simpa using _known))

/-- A position and those from which edges lead to it, directly or through others, in ascending
order. -/
def closure (s : ForestStore α) (i : Nat) : Outcome ForestError (List Nat) := do
  let seen ← s.explore [] [i]
  return seen.mergeSort

/-- Enters the column of one more feature of a closure. -/
def enterColumn (s : ForestStore α) (rule : ColumnRule α) (columns : List (Nat × List α))
    (i : Nat) : Outcome ForestError (List (Nat × List α)) := do
  let feature ← Outcome.ofOption (s.get? i)
  let c ← rule (fun p => Outcome.ofOption (columns.lookup p)) i feature
  return (i, c) :: columns

/-- The column of one feature by a rule. -/
def evaluateAtBy (s : ForestStore α) (rule : ColumnRule α) (i : Nat) (x : Matrix α) :
    Outcome ForestError (List α) :=
  if s.size ≤ i then Outcome.fail (.unknownIndex i)
  else do
    s.checkColumns x
    let closure ← s.closure i
    let columns ← closure.foldlM (s.enterColumn rule) []
    match columns.lookup i with
    | some column => .ok column
    | none => Outcome.fail (.unknownIndex i)

def evaluateAt (s : ForestStore α) (i : Nat) (x : Matrix α) : Outcome ForestError (List α) :=
  s.evaluateAtBy (s.column x) i x

end ForestStore

/-! ## The fitting store -/

namespace Forest

variable {α : Type}

/-- Whether a root stands at a position. -/
def isRootAt (f : Forest α) (i : Nat) : Bool := ((f.get? i).map (·.isRoot)).getD false

/-- The positions of the roots, in their order. -/
def roots (f : Forest α) : List Nat := (List.range f.size).filter f.isRootAt

/-- The store that fits a forest. -/
def stored (f : Forest α) : ForestStore α where
  features := f.features
  edges := f.entries.flatMap fun e => e.2.parents.map fun p => (p, e.1)
  positions := f.entries.map fun e => (e.2.expr, e.1)
  roots := f.roots

end Forest

end FeatureGraph
