import FeatureGraph.Proofs.ForwardPass
import FeatureGraph.Model.Selection

/-!
# Wiring an output

Wiring adds an output over some nodes of a graph, a target and an objective, and compiles
the tape.

* `Wirable` is what wiring asks for, and its lemmas go through the additions one by one.
* `wire_eq_ok` says when wiring succeeds, and what it answers.
* `Wired` is what it leaves of a graph: the nodes that were there keep their values, and the
  output lists its weights in the order of its parents.
-/

namespace FeatureGraph

variable {α : Type} [Arith α]

/-- A new node that is no input leaves the inputs as they were. -/
theorem input_of_push {ops : Array Primitive} {op : Primitive} {id column : Nat}
    (hop : ∀ column, op ≠ .input column) (h : (ops.push op)[id]? = some (.input column)) :
    ops[id]? = some (.input column) := by
  rw [Array.getElem?_push] at h
  split at h
  · exact absurd (Option.some.inj h) (hop column)
  · exact h

namespace Model

/-- The graph with an output over the given nodes. -/
def withOutput (g : Graph α) (nodes : List NodeId) (weights : List α) : Graph α :=
  (g.pushOutput nodes "output").replaceParams g.size (weights ++ [0])

/-- The graph with an output and a target. -/
def withTarget (g : Graph α) (nodes : List NodeId) (weights : List α) : Graph α :=
  ((withOutput g nodes weights).addTarget "target").2

/-- The graph with an output, a target and an objective. -/
def withObjective (g : Graph α) (nodes : List NodeId) (weights : List α) : Graph α :=
  (withTarget g nodes weights).pushObjective g.size (withOutput g nodes weights).size "objective"

/-- What wiring asks for: an output needs a parent, and a weight for each. -/
structure Wirable (g : Graph α) (nodes : List NodeId) (weights : List α) : Prop where
  sound : g.Sound
  inside : ∀ p ∈ nodes, p < g.size
  nonempty : nodes ≠ []
  length : weights.length = nodes.length

variable {g : Graph α} {nodes : List NodeId} {weights : List α} {w : Wiring α}

@[simp] theorem size_withOutput : (withOutput g nodes weights).size = g.size + 1 := by
  simp [withOutput, Graph.replaceParams, Graph.pushOutput, Graph.size, NodeTable.size,
    NodeTable.addNode]

@[simp] theorem size_withTarget : (withTarget g nodes weights).size = g.size + 2 := by
  have hsize : (withTarget g nodes weights).size = (withOutput g nodes weights).size + 1 :=
    NodeTable.size_addNode _ _ _ _
  rw [hsize, size_withOutput]

@[simp] theorem size_withObjective : (withObjective g nodes weights).size = g.size + 3 := by
  have hsize : (withObjective g nodes weights).size = (withTarget g nodes weights).size + 1 :=
    NodeTable.size_addNode _ _ _ _
  rw [hsize, size_withTarget]

/-- An output, a target and an objective are no inputs. -/
theorem input_of_withObjective {id column : Nat}
    (hid : (withObjective g nodes weights).table.ops[id]? = some (.input column)) :
    g.table.ops[id]? = some (.input column) := by
  have hops : (withObjective g nodes weights).table.ops =
      ((g.table.ops.push .output).push .target).push .objective := rfl
  rw [hops] at hid
  exact input_of_push (by simp) (input_of_push (by simp) (input_of_push (by simp) hid))

namespace Wirable

theorem sound_pushOutput (h : Wirable g nodes weights) : (g.pushOutput nodes "output").Sound :=
  h.sound.pushOutput "output" h.inside h.nonempty

theorem holds_withOutput (h : Wirable g nodes weights) :
    (withOutput g nodes weights).table.Holds g.size .output nodes (weights ++ [0]) :=
  (h.sound.table.holds_addNode .output nodes "output").setParams (weights ++ [0])

theorem setParams_eq_ok (h : Wirable g nodes weights) :
    (g.pushOutput nodes "output").setParams g.size (weights ++ [0]) =
      .ok (withOutput g nodes weights) := by
  have hnode := h.holds_withOutput
  have hparents : (g.pushOutput nodes "output").table.parentList g.size = nodes := hnode.parents
  refine (Graph.setParams_eq_ok h.sound_pushOutput.table).2 ⟨⟨.output, hnode.op, ?_⟩, rfl⟩
  simp [hparents, Primitive.paramCount, h.length]

theorem sound_withOutput (h : Wirable g nodes weights) : (withOutput g nodes weights).Sound :=
  h.sound_pushOutput.setParams h.setParams_eq_ok

theorem sound_withTarget (h : Wirable g nodes weights) : (withTarget g nodes weights).Sound :=
  h.sound_withOutput.of_change (Graph.change_addTarget _ "target")

theorem sound_withObjective (h : Wirable g nodes weights) :
    (withObjective g nodes weights).Sound :=
  h.sound_withTarget.of_change
    (Graph.change_addObjective (Graph.addObjective_eq_ok.2 ⟨by simp, by simp, rfl⟩))

/-- The nodes that were there and the output stay as they are. -/
theorem agree_withObjective (h : Wirable g nodes weights) :
    NodeTable.Agree (g.size + 1) (withOutput g nodes weights).table
      (withObjective g nodes weights).table := by
  have htarget := h.sound_withOutput.table.agree_addNode .target [] "target"
  have hobjective := h.sound_withTarget.table.agree_addNode .objective
    [g.size, (withOutput g nodes weights).size] "objective"
  have hsize : (withOutput g nodes weights).table.size = g.size + 1 := size_withOutput
  have hsize' : (withTarget g nodes weights).table.size = g.size + 2 := size_withTarget
  exact hsize ▸ htarget.trans hobjective (by omega)

theorem agree (h : Wirable g nodes weights) :
    NodeTable.Agree g.size g.table (withObjective g nodes weights).table := by
  have houtput : NodeTable.Agree g.size g.table (g.pushOutput nodes "output").table :=
    h.sound.table.agree_addNode .output nodes "output"
  have hparams : NodeTable.Agree g.size (g.pushOutput nodes "output").table
      (withOutput g nodes weights).table :=
    NodeTable.agree_setParams _ g.size (weights ++ [0])
  exact (houtput.trans hparams (Nat.le_refl _)).trans h.agree_withObjective (Nat.le_succ _)

/-- The new nodes are active. -/
theorem activeIds_withTarget (h : Wirable g nodes weights) :
    (withTarget g nodes weights).table.activeIds =
      g.table.activeIds ++ [g.size] ++ [(withOutput g nodes weights).size] := by
  have houtput : (withOutput g nodes weights).table.activeIds = g.table.activeIds ++ [g.size] :=
    NodeTable.activeIds_addNode h.sound.table .output nodes "output"
  rw [← houtput]
  exact NodeTable.activeIds_addNode h.sound_withOutput.table .target [] "target"

theorem activeIds_withObjective (h : Wirable g nodes weights) :
    (withObjective g nodes weights).table.activeIds =
      g.table.activeIds ++ [g.size, g.size + 1, g.size + 2] := by
  have hobjective : (withObjective g nodes weights).table.activeIds =
      (withTarget g nodes weights).table.activeIds ++ [(withTarget g nodes weights).size] :=
    NodeTable.activeIds_addNode h.sound_withTarget.table .objective
      [g.size, (withOutput g nodes weights).size] "objective"
  rw [hobjective, h.activeIds_withTarget]
  simp

theorem mem_activeIds_output (h : Wirable g nodes weights) :
    g.size ∈ (withObjective g nodes weights).table.activeIds := by
  rw [h.activeIds_withObjective]
  simp

/-- Over active nodes the graph stays closed. -/
theorem closed_withObjective (h : Wirable g nodes weights) (hclosed : g.table.Closed)
    (hnodes : ∀ p ∈ nodes, p ∈ g.table.activeIds) :
    (withObjective g nodes weights).table.Closed := by
  have houtput : (withOutput g nodes weights).table.Closed :=
    hclosed.addNode h.sound.table .output "output" hnodes
  have htarget : (withTarget g nodes weights).table.Closed :=
    houtput.addNode h.sound_withOutput.table .target "target" (by simp)
  refine htarget.addNode h.sound_withTarget.table .objective "objective" ?_
  intro p hp
  rw [h.activeIds_withTarget]
  simp only [List.mem_cons, List.not_mem_nil, or_false] at hp
  rcases hp with rfl | rfl
  · simp
  · simp

end Wirable

/-- The wiring of a graph with a tape. -/
def wired (g : Graph α) (nodes : List NodeId) (weights : List α) (tape : Tape) : Wiring α where
  graph := { withObjective g nodes weights with tape := some tape, values := {} }
  output := g.size
  target := (withOutput g nodes weights).size
  objective := (withTarget g nodes weights).size

/-- A wiring that has been made, over any graph: the output has parents, as many parameters as its
primitive asks for, and the objective comes last. -/
theorem of_wire_eq_ok (h : wire g nodes weights = .ok w) :
    ((∀ p ∈ nodes, p < g.size) ∧ nodes ≠ []) ∧
      (∃ op : Primitive, (g.pushOutput nodes "output").table.ops[g.size]? = some op ∧
        (weights ++ [0]).length =
          op.paramCount ((g.pushOutput nodes "output").table.parentList g.size).length) ∧
      ∃ tape, (withObjective g nodes weights).table.compile = .ok tape ∧
        w = wired g nodes weights tape := by
  obtain ⟨⟨output, g₁⟩, houtput, h⟩ := Outcome.bind_eq_ok.1 h
  obtain ⟨hinside, hne, heq⟩ := Graph.addOutput_eq_ok.1 houtput
  obtain ⟨rfl, rfl⟩ := Prod.mk.inj heq
  obtain ⟨g₂, hparams, h⟩ := Outcome.bind_eq_ok.1 h
  obtain ⟨hcount, rfl⟩ := Graph.of_setParams_eq_ok hparams
  obtain ⟨⟨objective, g₃⟩, hobjective, h⟩ := Outcome.bind_eq_ok.1 h
  obtain ⟨_, _, heq⟩ := Graph.addObjective_eq_ok.1 hobjective
  obtain ⟨rfl, rfl⟩ := Prod.mk.inj heq
  obtain ⟨⟨n, g₄⟩, hbypass, h⟩ := Outcome.bind_eq_ok.1 h
  obtain ⟨tape, htape, heq⟩ := Graph.bypassInactive_eq_ok.1 hbypass
  obtain ⟨rfl, rfl⟩ := Prod.mk.inj heq
  exact ⟨⟨hinside, hne⟩, hcount, tape, htape, Outcome.ok_eq_iff.1 h⟩

/-- What wiring asks for, and what it answers. -/
theorem wire_eq_ok (hg : g.Sound) :
    wire g nodes weights = .ok w ↔ Wirable g nodes weights ∧
      ∃ tape, (withObjective g nodes weights).table.compile = .ok tape ∧
        w = wired g nodes weights tape := by
  constructor
  · intro h
    obtain ⟨⟨hinside, hne⟩, ⟨op, hop, hcount⟩, hwired⟩ := of_wire_eq_ok h
    have hnode := hg.table.holds_addNode .output nodes "output"
    have hlength : weights.length = nodes.length := by
      have hparents : (g.pushOutput nodes "output").table.parentList g.size = nodes :=
        hnode.parents
      rw [← Option.some.inj (hnode.op.symm.trans hop), hparents] at hcount
      simpa [Primitive.paramCount] using hcount
    exact ⟨⟨hg, hinside, hne, hlength⟩, hwired⟩
  · rintro ⟨h, tape, htape, rfl⟩
    have houtput : g.addOutput nodes "output" = .ok (g.size, g.pushOutput nodes "output") :=
      Graph.addOutput_eq_ok.2 ⟨h.inside, h.nonempty, rfl⟩
    have hobjective : (withTarget g nodes weights).addObjective g.size
        (withOutput g nodes weights).size "objective" =
          .ok ((withTarget g nodes weights).size, withObjective g nodes weights) :=
      Graph.addObjective_eq_ok.2 ⟨by simp, by simp, rfl⟩
    have hbypass := Graph.bypassInactive_eq_ok.2 ⟨tape, htape, rfl⟩
    exact Outcome.bind_eq_ok.2 ⟨_, houtput, Outcome.bind_eq_ok.2 ⟨_, h.setParams_eq_ok,
      Outcome.bind_eq_ok.2 ⟨_, hobjective, Outcome.bind_eq_ok.2 ⟨_, hbypass, rfl⟩⟩⟩⟩

/-- What wiring leaves of a graph. -/
structure Wired (g : Graph α) (nodes : List NodeId) (weights : List α) (w : Wiring α) : Prop where
  wirable : Wirable g nodes weights
  sound : w.graph.Sound
  closed : w.graph.table.Closed
  agree : NodeTable.Agree g.size g.table w.graph.table
  inputs : ∀ (id : NodeId) (column : Nat), w.graph.table.ops[id]? = some (.input column) →
    g.table.ops[id]? = some (.input column)
  node : w.graph.table.Holds w.output .output nodes (weights ++ [0])
  active : w.graph.isActive w.output = true

/-- Wiring adds an output that weighs the given nodes, and changes no node that was there. -/
theorem wired_of_wire_eq_ok (hg : g.Sound) (h : wire g nodes weights = .ok w) :
    Wired g nodes weights w := by
  obtain ⟨hwirable, tape, htape, rfl⟩ := (wire_eq_ok hg).1 h
  have hsound := hwirable.sound_withObjective
  have hactive := (Graph.isActive_iff_mem_activeIds hsound).2 hwirable.mem_activeIds_output
  exact {
    wirable := hwirable
    sound := ⟨hsound.table, fun tape' htape' => Option.some.inj htape' ▸ htape⟩
    closed := ((NodeTable.compile_eq_ok_iff hsound.table).1 htape).1
    agree := hwirable.agree
    inputs := fun _ _ hid => input_of_withObjective hid
    node := hwirable.agree_withObjective.holds (Nat.lt_succ_self _) hwirable.holds_withOutput
    active := hactive }

/-- An output can be wired over active nodes of a closed graph. -/
theorem Wirable.exists_wire (h : Wirable g nodes weights) (hclosed : g.table.Closed)
    (hnodes : ∀ p ∈ nodes, p ∈ g.table.activeIds) : ∃ w, wire g nodes weights = .ok w := by
  have htape := (NodeTable.compile_eq_ok_iff h.sound_withObjective.table).2
    ⟨h.closed_withObjective hclosed hnodes, rfl⟩
  exact ⟨_, (wire_eq_ok h.sound).2 ⟨h, _, htape, rfl⟩⟩

end Model

end FeatureGraph
