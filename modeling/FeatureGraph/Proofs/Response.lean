import FeatureGraph.Proofs.Alike
import FeatureGraph.Proofs.Edit

/-!
# What actions answer

`Edit.perform` says of an action which graph it leaves behind, and which node it has added.
`Graph.respond` says all that it answers: numbers of nodes, gradients, the losses of a descent,
the optimizer that it leaves behind and what it reports.

* `respond_snd` says that the two leave the same graph behind.
* `Twins.respond` says that twins answer the same to passes and descents, and `Twins.afterAll` is
  the sequence of them.
-/

namespace FeatureGraph

/-- What an action answers that succeeds. -/
inductive Answer (α : Type) where
  | done
  | node (id : NodeId)
  | count (n : Nat)
  | gradients (grads : Gradients α)
  | losses (l : Losses α)

/-- What an action answers, successful or not. -/
structure Response (α : Type) where
  outcome : Outcome GraphError (Answer α)
  /-- The optimizer after a descent. -/
  optimizer : Option (Optimizer α) := none
  events : List (Event α) := []

namespace Graph

variable {α β : Type}

/-- The answer of an edit, and the graph that it leaves behind. -/
def answering (g : Graph α) (e : Edit α β) (f : β → Answer α) : Response α × Graph α :=
  (⟨(e.on g).1.map f, none, []⟩, (e.on g).2)

variable [Arith α]

/-- What an action answers, and the graph that it leaves behind. -/
def respond (g : Graph α) : Action α → Response α × Graph α
  | .addInput name => g.answering (Edit.addInput name) .node
  | .appendInput name => g.answering (Edit.appendInput name) .node
  | .addNode op parents name => g.answering (Edit.addNode op parents name) .node
  | .addOutput parents name => g.answering (Edit.addOutput parents name) .node
  | .addTarget name => g.answering (Edit.addTarget name) .node
  | .addObjective output target name => g.answering (Edit.addObjective output target name) .node
  | .setParams id params => g.answering (Edit.setParams id params) fun _ => .done
  | .setConstant id value => g.answering (Edit.setConstant id value) fun _ => .done
  | .setActive id value => g.answering (Edit.setActive id value) fun _ => .done
  | .setAllActive value => g.answering (Edit.setAllActive value) fun _ => .done
  | .activateBranch id => g.answering (Edit.activateBranch id) .count
  | .activateOnly keep => g.answering (Edit.activateOnly keep) fun _ => .done
  | .bypassInactive => g.answering Edit.bypassInactive .count
  | .setDropped id value => g.answering (Edit.setDropped id value) fun _ => .done
  | .clearDropped => g.answering Edit.clearDropped fun _ => .done
  | .evaluate x y => g.answering (Edit.evaluate x y) fun _ => .done
  | .gradients x y => g.answering (Edit.gradients x y) .gradients
  | .optimize o x y n rate =>
    let (s, events) := o.run g x y n rate
    (⟨s.outcome.map .losses, some s.optimizer, events⟩, s.graph)

/-- The response leaves behind what the action leaves behind. -/
theorem respond_snd (g : Graph α) (a : Action α) :
    (g.respond a).2 = ((Edit.perform a).on g).2 := by
  cases a with
  | addInput | appendInput | addNode | addOutput | addTarget | addObjective =>
    rw [Edit.perform, Edit.on_map]
    rfl
  | _ =>
    rw [Edit.perform, Edit.addingNone, Edit.on_map]
    rfl

section Twins

variable {P : NodeId → Prop} {g g' : Graph α}

/-- No pass and no descent can tell twins apart. -/
theorem Twins.respond (h : Twins P g g') {a : Action α} (ha : a.isPass = true) :
    (g'.respond a).1 = (g.respond a).1 ∧ Twins P (g.respond a).2 (g'.respond a).2 := by
  cases a with
  | evaluate x y =>
    obtain ⟨houtcome, htwins⟩ := h.evaluate x y
    rw [Graph.respond, Graph.respond, answering, answering, Edit.on_evaluate, Edit.on_evaluate,
      houtcome]
    exact ⟨rfl, htwins⟩
  | gradients x y =>
    obtain ⟨houtcome, htwins⟩ := h.gradients x y
    rw [Graph.respond, Graph.respond, answering, answering, Edit.on_gradients, Edit.on_gradients,
      houtcome]
    exact ⟨rfl, htwins⟩
  | optimize o x y n rate =>
    obtain ⟨hrun, hevents⟩ := h.run o x y n rate
    refine ⟨?_, hrun.twins⟩
    unfold Graph.respond
    dsimp only
    rw [hrun.outcome, hrun.optimizer, hevents]
  | _ => cases ha

/-- Nor can any sequence of them. -/
theorem Twins.afterAll (h : Twins P g g') {acts : List (Action α)}
    (hacts : ∀ a ∈ acts, a.isPass = true) : Twins P (g.afterAll acts) (g'.afterAll acts) := by
  induction acts generalizing g g' with
  | nil => exact h
  | cons a acts ih =>
    have hfirst := (h.respond (hacts a (by simp))).2
    rw [respond_snd, respond_snd] at hfirst
    exact ih hfirst fun b hb => hacts b (by simp [hb])

end Twins

end Graph

end FeatureGraph
