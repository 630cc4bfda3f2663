import FeatureGraph.Graph.Basic
import FeatureGraph.Json.Reader
import FeatureGraph.Json.Writer
import FeatureGraph.Json.Scalar

/-!
# Graph documents

A graph as a JSON document: the columns of its table, and the lists of its
outputs, targets and objectives.  What the graph caches is not written.  The
names in use are taken from the nodes when a document is read.

Reading checks the shape of the document, not that its columns fit together.
-/

namespace FeatureGraph

namespace NodeTable

variable {α : Type}

def labelToJson (label : String) : Json.Value := .ofMembers [("name", .ofString label)]

def labelOfJson? (v : Json.Value) : Option String := do
  let [name] ← v.fields? ["name"] | none
  Json.Value.required? Json.Value.text? name

def spanToJson (s : Span) : Json.Value := .array [.ofNat s.start, .ofNat s.count]

def spanOfJson? (v : Json.Value) : Option Span :=
  (v.pair? Json.Value.word32? Json.Value.word32?).map fun (start, count) => ⟨start, count⟩

def toJson [DecimalText α] (t : NodeTable α) : Json.Value :=
  .ofMembers [
    ("ops", .ofList Primitive.toJson t.ops.toList),
    ("meta", .ofList labelToJson t.labels.toList),
    ("parents_flat", .ofList Json.Value.ofNat t.parentIds.toList),
    ("parents_ranges", .ofList spanToJson t.parentSpans.toList),
    ("params", .ofList (Json.Value.ofList Json.Value.ofScalar) t.params.toList),
    ("active", .ofList Json.Value.bool t.active.toList),
    ("params_constant", .ofList Json.Value.bool t.constant.toList),
    ("dropped", .ofList Json.Value.bool t.dropped.toList)]

/-- A column of the document. -/
def columnOfJson? {β : Type} (element? : Json.Value → Option β) (field : Option Json.Value) :
    Option (Array β) :=
  (Json.Value.required? (Json.Value.list? element?) field).map List.toArray

/-- The table without the names in use. -/
def ofJson? [DecimalText α] (v : Json.Value) : Option (NodeTable α) := do
  let [ops, labels, parentIds, parentSpans, params, active, constant, dropped] ← v.fields?
    ["ops", "meta", "parents_flat", "parents_ranges", "params", "active", "params_constant",
      "dropped"] | none
  return {
    ops := ← columnOfJson? Primitive.ofJson? ops
    labels := ← columnOfJson? labelOfJson? labels
    parentIds := ← columnOfJson? Json.Value.word32? parentIds
    parentSpans := ← columnOfJson? spanOfJson? parentSpans
    params := ← columnOfJson? (Json.Value.list? Json.Value.scalar?) params
    active := ← columnOfJson? Json.Value.bool? active
    constant := ← columnOfJson? Json.Value.bool? constant
    dropped := ← columnOfJson? Json.Value.bool? dropped
  }

end NodeTable

namespace Graph

variable {α : Type}

def toJson [DecimalText α] (g : Graph α) : Json.Value :=
  .ofMembers [
    ("registry", g.table.toJson),
    ("n_inputs", .ofNat g.nextColumn),
    ("outputs", .ofList Json.Value.ofNat g.outputs),
    ("targets", .ofList Json.Value.ofNat g.targets),
    ("objectives", .ofList Json.Value.ofNat g.objectives)]

def ofJson? [DecimalText α] (v : Json.Value) : Option (Graph α) := do
  let [table, nextColumn, outputs, targets, objectives] ← v.fields?
    ["registry", "n_inputs", "outputs", "targets", "objectives"] | none
  let ids := Json.Value.required? (Json.Value.list? Json.Value.word32?)
  return {
    table := (← Json.Value.required? NodeTable.ofJson? table).refreshNames
    nextColumn := ← Json.Value.required? Json.Value.word32? nextColumn
    outputs := ← ids outputs
    targets := ← ids targets
    objectives := ← ids objectives
  }

/-- The document of a graph. -/
def toText [DecimalText α] (g : Graph α) : String := g.toJson.text

/-- The graph of a document. -/
def ofText [DecimalText α] (text : String) : Outcome GraphError (Graph α) :=
  match (Json.Value.read? text).bind ofJson? with
  | some g => .ok g
  | none => Outcome.fail (.serialization "not a graph document")

end Graph

end FeatureGraph
