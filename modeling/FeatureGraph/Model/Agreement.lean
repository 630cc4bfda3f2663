import FeatureGraph.Forest.Columns
import FeatureGraph.Model.Lowering

/-!
# Agreement of a forest and its graph

The check that a graph computes what its forest says.  Each active feature is
evaluated both ways, and the two columns are compared by their normalized
discrepancy: the largest difference, as a fraction of the range of the symbolic
column.

Rows where both sides are not numbers, or the same infinity, agree.  Any other
difference that is not finite makes the discrepancy infinite.
-/

namespace FeatureGraph

/-- Largest normalized discrepancy that is accepted by default. -/
def defaultTolerance {α : Type} [Arith α] : α := 1e-5

/-- The discrepancy of every feature that was compared, in the order of the
forest, and the number of features whose nodes are inactive. -/
structure Agreement (α : Type) where
  discrepancies : List (String × α) := []
  skipped : Nat := 0
deriving DecidableEq, Repr

namespace Agreement

variable {α : Type} [Arith α]

def checked (a : Agreement α) : Nat := a.discrepancies.length

/-- The largest discrepancy, at least zero. -/
def largest (a : Agreement α) : α := a.discrepancies.foldl (fun m d => Arith.max m d.2) 0

/-- What the rows so far say: the largest difference, and the extremes of the
finite symbolic values. -/
structure Spread (α : Type) where
  difference : α
  lowest : α
  highest : α
deriving DecidableEq, Repr

/-- Whether two values agree although their difference says nothing. -/
def sameSpecial (s c : α) : Bool :=
  (Arith.isNaN s && Arith.isNaN c) || (Arith.isInfinite s && Arith.eqv s c)

/-- Widens the extremes by a finite value. -/
def Spread.widen (w : Spread α) (s : α) : Spread α :=
  if Arith.isFinite s then
    { w with lowest := Arith.min w.lowest s, highest := Arith.max w.highest s }
  else w

@[simp] theorem Spread.difference_widen (w : Spread α) (s : α) :
    (w.widen s).difference = w.difference := by
  unfold Spread.widen
  split <;> rfl

/-- Takes one more row in; `none` if its difference is not finite. -/
def Spread.row? (w : Spread α) (row : α × α) : Option (Spread α) :=
  let (s, c) := row
  let w := w.widen s
  if sameSpecial s c then some w
  else
    let d := Arith.abs (s - c)
    if Arith.isFinite d then some { w with difference := Arith.max w.difference d } else none

/-- A row that no spread takes in ends the pass, wherever it stands. -/
theorem foldlM_row?_eq_none {rows : List (α × α)} {row : α × α} (hrow : row ∈ rows)
    (hends : ∀ w : Spread α, w.row? row = none) (w : Spread α) :
    rows.foldlM Spread.row? w = none := by
  induction rows generalizing w with
  | nil => cases hrow
  | cons first rows ih =>
    rw [List.foldlM_cons]
    rcases List.mem_cons.1 hrow with rfl | hrow
    · rw [hends w]
      rfl
    · cases w.row? first with
      | none => rfl
      | some v => exact ih hrow v

/-- The largest difference as a fraction of the range.  A range that is small
against the values themselves is not divided by. -/
def Spread.normalized (w : Spread α) : α :=
  if Arith.eqv w.difference 0 then 0
  else
    let range := w.highest - w.lowest
    if Arith.lt (Arith.epsilon * Arith.max (Arith.abs w.highest) 1) range then
      w.difference / range
    else w.difference

/-- The normalized discrepancy of a symbolic column and a compiled one. -/
def discrepancy (symbolic compiled : List α) : α :=
  if symbolic.length ≠ compiled.length then Arith.inf
  else
    match (symbolic.zip compiled).foldlM Spread.row? ⟨0, Arith.inf, -Arith.inf⟩ with
    | some w => w.normalized
    | none => Arith.inf

/-- Both columns of a feature, and the node of the compiled one. -/
structure Comparison (α : Type) where
  node : NodeId
  symbolic : List α
  compiled : List α

def Comparison.discrepancy (c : Comparison α) : α := Agreement.discrepancy c.symbolic c.compiled

/-- Evaluates a feature both ways on an evaluated graph; `none` if its node is
inactive. -/
def compare (f : Forest α) (g : Graph α) (m : NodeMapping) (x : Matrix α) (i : Nat)
    (feature : Feature α) : Outcome (ModelError α) (Option (Comparison α)) :=
  match m.getIndex? i with
  | none => Outcome.fail (.unmapped feature.expr)
  | some node =>
    if g.isActive node then do
      let symbolic ← Outcome.mapFailure .forest (f.evaluateAt i x)
      match g.vals? node with
      | none => Outcome.fail (.graph (.mismatch (.noValues feature.expr)))
      | some compiled => return some ⟨node, symbolic, compiled⟩
    else .ok none

/-- The name of a node and the lines of its trace, if they are in the stored data. -/
def traceOf? (g : Graph α) (node : NodeId) : Option (String × List (AuditLine α)) :=
  let trace : Outcome GraphError (String × List (AuditLine α)) := do
    return (← g.name node, ← g.audit node)
  trace.toOption

/-- Refuses a discrepancy above the tolerance. -/
def refuse (g : Graph α) (expr : String) (c : Comparison α) (tolerance : α) :
    Report α (Agreement α) :=
  ⟨Outcome.fail (.disagreement expr c.discrepancy),
    [.disagreed expr c.discrepancy tolerance c.symbolic c.compiled (traceOf? g c.node)]⟩

/-- Compares the remaining features. -/
def checkFrom (f : Forest α) (g : Graph α) (m : NodeMapping) (x : Matrix α) (tolerance : α) :
    List (Nat × Feature α) → Agreement α → Report α (Agreement α)
  | [], a => ⟨.ok a, [.agreed a.checked a.skipped]⟩
  | (i, feature) :: rest, a =>
    match compare f g m x i feature with
    | .error fault => ⟨.error fault, []⟩
    | .ok none => checkFrom f g m x tolerance rest { a with skipped := a.skipped + 1 }
    | .ok (some c) =>
      Report.after (.compared feature.expr c.discrepancy) <|
        if Arith.lt tolerance c.discrepancy then refuse g feature.expr c tolerance
        else checkFrom f g m x tolerance rest
          { a with discrepancies := a.discrepancies ++ [(feature.expr, c.discrepancy)] }

/-- Checks all active features of a forest on the rows of a matrix; answers the
evaluated graph too. -/
def check (f : Forest α) (g : Graph α) (m : NodeMapping) (x : Matrix α) (tolerance : α) :
    Report α (Agreement α) × Graph α :=
  let (result, g) := g.evaluate x none
  let report : Report α (Agreement α) :=
    match Outcome.mapFailure ModelError.graph result with
    | .error fault => ⟨.error fault, []⟩
    | .ok () => checkFrom f g m x tolerance f.entries {}
  (report.after (.comparing f.size), g)

end Agreement

end FeatureGraph
