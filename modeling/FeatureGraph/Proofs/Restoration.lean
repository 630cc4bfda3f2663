import FeatureGraph.Arith.Double
import FeatureGraph.Graph.Census
import FeatureGraph.Proofs.DecimalText
import FeatureGraph.Proofs.Document
import FeatureGraph.Proofs.Relisting
import FeatureGraph.Proofs.Representation

/-!
# Graphs restored from their documents

A graph with finite parameters comes back from its document, and goes on as it would have gone on
without the document.

* `Graph.ReadsAlike` says that whatever can be asked of a graph has the same answer on two graphs.
  `Relisted.readsAlike` says so of graphs with the same names in use.
* `Reachable.addressed` says that the numbers in a document have 32 bits if there are not too many
  nodes and parents.
* `relisted_reloaded` is the reason why nothing is lost: the names in use are the names of the
  nodes.
* `document_restores` is the statement on graphs with finite parameters, and `document_loads_iff`
  says that these are the ones that come back.
-/

namespace FeatureGraph

namespace Graph

variable {α : Type}

/-! ## What can be asked of a graph -/

/-- Two graphs with the same contents: the columns of the table and the lists beside it. -/
structure SameContent (g g' : Graph α) : Prop where
  ops : g'.table.ops = g.table.ops
  labels : g'.table.labels = g.table.labels
  parentIds : g'.table.parentIds = g.table.parentIds
  parentSpans : g'.table.parentSpans = g.table.parentSpans
  params : g'.table.params = g.table.params
  active : g'.table.active = g.table.active
  constant : g'.table.constant = g.table.constant
  dropped : g'.table.dropped = g.table.dropped
  nextColumn : g'.nextColumn = g.nextColumn
  outputs : g'.outputs = g.outputs
  targets : g'.targets = g.targets
  objectives : g'.objectives = g.objectives

/-- Two graphs of which whatever is asked has the same answer. -/
structure ReadsAlike [Arith α] [DecimalText α] (g g' : Graph α) : Prop
    extends SameContent g g' where
  op : ∀ id, g'.op id = g.op id
  name : ∀ id, g'.name id = g.name id
  parents : ∀ id, g'.parents id = g.parents id
  paramsOf : ∀ id, g'.params id = g.params id
  isActive : ∀ id, g'.isActive id = g.isActive id
  isConstant : ∀ id, g'.isConstant id = g.isConstant id
  isDropped : ∀ id, g'.isDropped id = g.isDropped id
  trainable : (g'.table.trainable : Outcome GraphError _) = g.table.trainable
  census : (g'.table.census : Outcome GraphError _) = g.table.census
  sort : g'.table.sort = g.table.sort
  ancestry : ∀ start, (g'.table.ancestry start : Outcome GraphError _) = g.table.ancestry start
  compile : g'.table.compile = g.table.compile
  vals? : ∀ id, g'.vals? id = g.vals? id
  loss? : g'.loss? = g.loss?
  trace : ∀ id, (g'.trace id : Outcome GraphError String) = g.trace id
  toText : g'.toText = g.toText

/-- No line of a trace depends on the names in use. -/
theorem auditFrom_withNames {ε : Type} (g : Graph α) (names : List String) (depth : Nat) :
    ((g.withNames names).auditFrom depth : _ → _ → Outcome ε _) = g.auditFrom depth := by
  induction depth with
  | zero => rfl
  | succ depth ih =>
    funext w p
    rw [auditFrom, auditFrom, ih]
    rfl

theorem trace_withNames [Arith α] [DecimalText α] {ε : Type} (g : Graph α) (names : List String)
    (id : NodeId) : ((g.withNames names).trace id : Outcome ε String) = g.trace id := by
  have haudit : ((g.withNames names).audit id : Outcome ε _) = g.audit id := by
    rw [audit, audit, auditFrom_withNames]
    rfl
  rw [trace, trace, haudit]
  rfl

/-- The names in use are all that relisted graphs differ in, and they cannot be asked for. -/
theorem Relisted.readsAlike [Arith α] [DecimalText α] {g g' : Graph α} (h : Relisted g g') :
    ReadsAlike g g' := by
  have hshape : NodeTable.SameShape g.table (g.withNames g'.table.names).table :=
    ⟨rfl, rfl, rfl, rfl, rfl⟩
  rw [h.rest]
  exact {
    ops := rfl, labels := rfl, parentIds := rfl, parentSpans := rfl, params := rfl, active := rfl
    constant := rfl, dropped := rfl, nextColumn := rfl, outputs := rfl, targets := rfl
    objectives := rfl
    op := fun _ => rfl
    name := fun _ => rfl
    parents := fun _ => rfl
    paramsOf := fun _ => rfl
    isActive := fun _ => rfl
    isConstant := fun _ => rfl
    isDropped := fun _ => rfl
    trainable := rfl
    census := rfl
    sort := hshape.sort
    ancestry := g.table.ancestry_withNames g'.table.names
    compile := hshape.compile
    vals? := fun _ => rfl
    loss? := rfl
    trace := g.trace_withNames g'.table.names
    toText := rfl }

/-! ## Numbers in documents -/

namespace Recorded

variable {g : Graph α} {past : List (NodeId × List NodeId)}

/-- There are no more columns than nodes. -/
theorem nextColumn_le (h : g.Recorded past) : g.nextColumn ≤ g.size := by
  calc g.nextColumn = g.inputColumns.length := by rw [h.inputs, List.length_range]
    _ ≤ g.table.ops.toList.length := List.length_filterMap_le _ _
    _ = g.size := Array.length_toList

/-- The inputs read the columns up to the next one. -/
theorem column_lt (h : g.Recorded past) {column : Nat} (hop : .input column ∈ g.table.ops) :
    column < g.nextColumn := by
  have hcolumn : column ∈ g.inputColumns :=
    List.mem_filterMap.2 ⟨.input column, Array.mem_toList_iff.2 hop, rfl⟩
  rwa [h.inputs, List.mem_range] at hcolumn

/-- Whatever is stored as a parent is a node. -/
theorem parent_lt (h : g.Recorded past) (hg : g.table.Sound) {p : NodeId}
    (hp : p ∈ g.table.parentIds) : p < g.size := by
  have hgiven : p ∈ past.flatMap Prod.snd := h.parentIds ▸ Array.mem_toList_iff.2 hp
  obtain ⟨node, hnode, hmem⟩ := List.mem_flatMap.1 hgiven
  rw [h.nodes] at hnode
  obtain ⟨id, _, rfl⟩ := List.mem_map.1 hnode
  exact hg.parent_lt_size hmem

theorem addressed (h : g.Recorded past) (hg : g.table.Sound) (hsize : g.size < 1 <<< 32)
    (hparents : g.table.parentIds.size < 1 <<< 32) : g.Addressed := by
  have hrole : ∀ role, ∀ id ∈ g.nodesWith role, id < 1 <<< 32 := fun role id hid =>
    Nat.lt_trans (List.mem_range.1 (List.mem_of_mem_filter hid)) hsize
  have hnext : g.nextColumn < 1 <<< 32 := Nat.lt_of_le_of_lt h.nextColumn_le hsize
  have htable : g.table.Addressed := by
    refine ⟨fun column hop => Nat.lt_trans (h.column_lt hop) hnext,
      fun p hp => Nat.lt_trans (h.parent_lt hg hp) hsize, fun s hs => ?_⟩
    have hinside := hg.inside s hs
    omega
  exact ⟨htable, hnext, h.outputs ▸ hrole .output, h.targets ▸ hrole .target,
    h.objectives ▸ hrole .objective⟩

end Recorded

/-- The numbers of a reachable graph have 32 bits if its nodes and parents can be counted with
them. -/
theorem Reachable.addressed [Arith α] {g : Graph α} (hg : g.Reachable) (hsize : g.size < 1 <<< 32)
    (hparents : g.table.parentIds.size < 1 <<< 32) : g.Addressed := by
  obtain ⟨acts, rfl⟩ := hg.exists_run
  exact (recorded_run acts).addressed hg.sound.table hsize hparents

/-! ## Restoring -/

/-- The graph without its cached tape and the columns of its last evaluation. -/
def uncached (g : Graph α) : Graph α := { g with tape := none, values := {} }

theorem Sound.uncached {g : Graph α} (hg : g.Sound) : g.uncached.Sound := .of_table hg.table rfl

/-- The names of the nodes are the names in use, so that nothing but the caches is lost. -/
theorem relisted_reloaded {g : Graph α} (hg : g.table.Named) : Relisted g.uncached g.reloaded where
  names s := (g.table.named_refreshNames s).trans (hg s).symm
  rest := rfl

section Restoring

variable [Arith α] [DecimalText α] [Faithful α] {g : Graph α}

/-- A reachable graph with finite parameters, whose nodes and parents can be counted with 32 bits,
comes back from its document with the same contents.  Whatever is done to it then and whatever is
asked of it, the answers are those of the graph itself without its caches. -/
theorem document_restores (hg : g.Reachable) (hsize : g.size < 1 <<< 32)
    (hparents : g.table.parentIds.size < 1 <<< 32) (hfinite : g.table.Finite) :
    ∃ g' : Graph α, ofText g.toText = .ok g' ∧ SameContent g g' ∧
      ∀ acts : List (Action α),
        ReadsAlike (g.uncached.afterAll acts) (g'.afterAll acts) ∧
        ∀ a, ((g'.afterAll acts).respond a).1 = ((g.uncached.afterAll acts).respond a).1 := by
  have hrelisted := relisted_reloaded hg.named
  have hsound := hg.sound.uncached
  refine ⟨g.reloaded, ofText_toText (hg.addressed hsize hparents) hfinite,
    ⟨rfl, rfl, rfl, rfl, rfl, rfl, rfl, rfl, rfl, rfl, rfl, rfl⟩, fun acts => ?_⟩
  have hlater := hrelisted.afterAll hsound acts
  exact ⟨hlater.readsAlike, fun a => (hlater.respond (hsound.afterAll acts) a).1⟩

end Restoring

/-- A power of an input. -/
def inputPower : List (Action Float) := [.addInput "x", .addNode .pow [0] "p"]

/-- An input that asks for a name in use gets the same number as without the document. -/
theorem document_restores_inputPower :
    ((run inputPower).size < 1 <<< 32 ∧ (run inputPower).table.parentIds.size < 1 <<< 32 ∧
      (run inputPower).table.Finite) ∧
    ∃ g' : Graph Float, ofText (run inputPower).toText = .ok g' ∧
      (g'.afterAll [.addInput "x"]).name 2 = .ok "x_1" := by
  have hsize : (run inputPower).size < 1 <<< 32 := by decide
  have hparents : (run inputPower).table.parentIds.size < 1 <<< 32 := by decide
  have hfinite : (run inputPower).table.Finite := by
    have hparams : (run inputPower).table.params = #[[], [1]] := rfl
    simp only [NodeTable.Finite, hparams]
    decide
  have hlabel : NodeTable.freeName ["p", "x"] "x" = "x_1" := by
    obtain ⟨k, hk, _, hleast⟩ := NodeTable.freeName_of_mem (by decide : "x" ∈ ["p", "x"])
    rcases Nat.eq_zero_or_pos k with rfl | hpos
    · exact hk
    · exact absurd (hleast 0 hpos) (by decide)
  have hname : ((run inputPower).uncached.afterAll [.addInput "x"]).name 2 =
      .ok (NodeTable.freeName ["p", "x"] "x") := rfl
  obtain ⟨g', hread, _, hlater⟩ :=
    document_restores (reachable_run inputPower) hsize hparents hfinite
  refine ⟨⟨hsize, hparents, hfinite⟩, g', hread, ?_⟩
  rw [(hlater [.addInput "x"]).1.name 2, hname, hlabel]

section Loading

variable [Arith α] [DecimalText α] [Faithful α] {g : Graph α}

/-- The document of a reachable graph can be read exactly if all parameters are finite. -/
theorem document_loads_iff (hg : g.Reachable) (hsize : g.size < 1 <<< 32)
    (hparents : g.table.parentIds.size < 1 <<< 32) :
    (∃ g' : Graph α, ofText g.toText = .ok g') ↔ g.table.Finite := by
  constructor
  · rintro ⟨g', hread⟩
    by_contra hfinite
    rw [ofText_toText_of_not_finite hfinite] at hread
    cases hread
  · intro hfinite
    exact ⟨g.reloaded, ofText_toText (hg.addressed hsize hparents) hfinite⟩

end Loading

/-- A power whose exponent is infinite. -/
def infinitePower : List (Action Float) :=
  [.addInput "x", .addNode .pow [0] "p", .setParams 1 [Arith.inf]]

theorem document_loads_iff_infinitePower :
    ((run infinitePower).size < 1 <<< 32 ∧ (run infinitePower).table.parentIds.size < 1 <<< 32) ∧
      ((∃ g' : Graph Float, ofText (run infinitePower).toText = .ok g') ↔
        (run infinitePower).table.Finite) := by
  have hsize : (run infinitePower).size < 1 <<< 32 := by decide
  have hparents : (run infinitePower).table.parentIds.size < 1 <<< 32 := by decide
  exact ⟨⟨hsize, hparents⟩, document_loads_iff (reachable_run infinitePower) hsize hparents⟩

/-- The document of this graph cannot be read, although the graph is reachable. -/
theorem unreadable_infinitePower : (run infinitePower).Reachable ∧
    (ofText (run infinitePower).toText : Outcome GraphError (Graph Float)) =
      Outcome.fail (.serialization "not a graph document") := by
  refine ⟨reachable_run infinitePower, ofText_toText_of_not_finite fun hfinite => ?_⟩
  have hparams : (run infinitePower).table.params = #[[], [Arith.inf]] := rfl
  have hexponent := hfinite [Arith.inf] (by rw [hparams]; simp) Arith.inf (by simp)
  revert hexponent
  decide

end Graph

end FeatureGraph
