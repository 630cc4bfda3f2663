import FeatureGraph.Decimal.Scalar
import FeatureGraph.Graph.Basic

/-!
# Audit traces

What the value of a node was computed from: the node, its parents, their parents
and so on, with the parameters and the values of the last evaluation.  Each node
is described once, at the place where the walk meets it first; further edges to
it become references to the level of that place.

`Graph.audit` makes the lines, `AuditLine.text` writes one, and `Graph.trace` is
the whole text under its heading.
-/

namespace FeatureGraph

/-- What a trace shows of a node's column. -/
inductive AuditValue (α : Type) where
  | bypassed
  | unevaluated
  | empty
  | single (v : α)
  /-- The first of several rows. -/
  | leading (v : α)
deriving DecidableEq, Repr

inductive AuditEntry (α : Type) where
  /-- The node has been described at this level. -/
  | reference (level : Nat)
  | input (name : String) (value : AuditValue α) (column : Nat)
  | node (name : String) (value : AuditValue α) (op : String) (args : List String)
      (params : List α) (constant : Bool)
deriving DecidableEq, Repr

/-- A line of a trace.  `path` leads from the target to the node: for each edge,
whether it is the last one of its child. -/
structure AuditLine (α : Type) where
  path : List Bool
  entry : AuditEntry α
deriving DecidableEq, Repr

/-- Levels count from one. -/
def AuditLine.level {α : Type} (l : AuditLine α) : Nat := l.path.length + 1

/-- The lines so far, and the level at which each node was described. -/
structure AuditWalk (α : Type) where
  seen : List (NodeId × Nat) := []
  lines : List (AuditLine α) := []

namespace Graph

variable {α : Type} [Arith α]

/-- A stand-in for what an unknown node does not have. -/
def orElse {ε β : Type} (standIn : β) : Outcome GraphError β → Outcome ε β
  | .ok b => .ok b
  | .error (.failure _) => .ok standIn
  | .error .outOfRange => Outcome.outOfRange

def auditValue (g : Graph α) (id : NodeId) : AuditValue α :=
  if g.isActive id then
    match g.vals? id with
    | none => .unevaluated
    | some [] => .empty
    | some [v] => .single v
    | some (v :: _) => .leading v
  else .bypassed

/-- The description of a node, and the parents to go on with. -/
def auditEntry {ε : Type} (g : Graph α) (id : NodeId) :
    Outcome ε (AuditEntry α × List NodeId) := do
  let name ← orElse "?" (g.name id)
  let params ← orElse [] (g.params id)
  match ← orElse none ((g.op id).map some) with
  | some (.input column) => return (.input name (g.auditValue id) column, [])
  | op =>
    let parents ← orElse [] (g.parents id)
    let args ← parents.mapM fun p => orElse "?" (g.name p)
    let word := (op.map Primitive.name).getD "?"
    return (.node name (g.auditValue id) word args params (g.isConstant id), parents)

/-- The path to each parent. -/
def parentPaths (path : List Bool) (parents : List NodeId) : List (NodeId × List Bool) :=
  parents.zipIdx.map fun (p, i) => (p, path ++ [i + 1 == parents.length])

/-- Walks on from a node.  Every level of the descent has met one more node, so
the number of nodes bounds its depth; an unknown node has no parents. -/
def auditFrom {ε : Type} (g : Graph α) : Nat → AuditWalk α → NodeId × List Bool →
    Outcome ε (AuditWalk α)
  | 0, _, _ => Outcome.outOfRange
  | depth + 1, w, (id, path) =>
    match w.seen.lookup id with
    | some level => .ok { w with lines := w.lines ++ [⟨path, .reference level⟩] }
    | none => do
      let (entry, parents) ← g.auditEntry id
      let w := { seen := (id, path.length + 1) :: w.seen, lines := w.lines ++ [⟨path, entry⟩] }
      (parentPaths path parents).foldlM (g.auditFrom depth) w

/-- The lines of the trace of a node. -/
def audit {ε : Type} (g : Graph α) (id : NodeId) : Outcome ε (List (AuditLine α)) := do
  let w ← g.auditFrom (g.size + 2) {} (id, [])
  return w.lines

end Graph

variable {α : Type} [DecimalText α]

def AuditValue.text : AuditValue α → String
  | bypassed => "[bypassed]"
  | unevaluated => "[?]"
  | empty => "[empty]"
  | single v => s!"[{(DecimalText.exact v).fixed 3}]"
  | leading v => s!"[{(DecimalText.exact v).fixed 3}, ...]"

/-- The branches drawn in front of a line. -/
def branches : List Bool → String
  | [] => ""
  | [last] => if last then "`--" else "|--"
  | last :: path => (if last then "   " else "|  ") ++ branches path

/-- Parameters in braces, and a mark if they are constant. -/
def paramsText (params : List α) (constant : Bool) : String :=
  if params.isEmpty then ""
  else
    let body := ", ".intercalate (params.map fun p => (DecimalText.exact p).fixed 4)
    " \x7b" ++ body ++ "\x7d" ++ if constant then " const" else ""

def AuditLine.text (l : AuditLine α) : String :=
  branches l.path ++
    match l.entry with
    | .reference level => s!"-> (Ref to L{level})"
    | .input name value column => s!"[L{l.level}] {name}{value.text} -> X[:, {column}]"
    | .node name value op args params constant =>
      s!"[L{l.level}] {name}{value.text} = {op}(" ++ ", ".intercalate args ++ ")" ++
        paramsText params constant

/-- Lines under the heading of a trace, each closed by a line feed. -/
def traceText (name : String) (lines : List (AuditLine α)) : String :=
  let heading := [s!"AUDIT TRACE for node '{name}':", "".pushn '-' 50]
  String.join ((heading ++ lines.map AuditLine.text).map (· ++ "\n"))

/-- The trace of a node as a text. -/
def Graph.trace {ε : Type} [Arith α] (g : Graph α) (id : NodeId) : Outcome ε String := do
  match ← Graph.orElse none ((g.name id).map some) with
  | none => return s!"Error: Invalid Node ID NodeId({id})\n"
  | some name => return traceText name (← g.audit id)

end FeatureGraph
