import FeatureGraph.Proofs.Frame
import FeatureGraph.Proofs.Pinned
import FeatureGraph.Proofs.ExtendedReal
import FeatureGraph.Model.Ensemble
import FeatureGraph.Random.ChaCha

/-!
# What training and prediction change

A call trains a model or makes it predict.  `onlyTrained_afterCalls` is the frame of any
sequence of calls, successful or not: what a graph computes, which nodes are active or
constant, and the parameters of all frozen nodes stay as they were.

* `Stable` is a property that the parts of a call keep, and `Stable.afterCalls` says that every
  call keeps it then.  A mask holds drop flags and nothing else, so that nothing need be known of
  controllers.
* `stable_onlyTrained` is the frame, and `stable_of_change` the way from one change of a graph.
* `afterCalls_keeps` adds what lowering has pinned: constant nodes are frozen.
-/

namespace FeatureGraph

variable {α : Type}

/-- Training leaves pinned nodes as they are. -/
theorem NodeTable.Pinned.afterTraining {g g' : Graph α} {id : NodeId} {op : Primitive}
    {params : List α} (h : g.table.Pinned id op params) (hkeep : OnlyTrained g g') :
    g'.table.Pinned id op params where
  op := hkeep.ops ▸ h.op
  params := (hkeep.params id (.inl h.constant)).trans h.params
  constant := hkeep.constant ▸ h.constant

theorem Lowering.PinsFeature.afterTraining [Arith α] {g g' : Graph α} {feature : Feature α}
    {id : NodeId} (h : PinsFeature g.table feature id) (hkeep : OnlyTrained g g') :
    PinsFeature g'.table feature id where
  root hroot := (h.root hroot).afterTraining hkeep
  reciprocal hroot hop := (h.reciprocal hroot hop).afterTraining hkeep

namespace Model

variable [Arith α] {γ σ : Type}

/-! ## Passes of an ensemble -/

section Passes

variable {P : Graph α → Prop} {x : Matrix α}

theorem keeps_outputColumn (hpass : ∀ g : Graph α, P g → P (g.evaluate x none).2)
    (output : NodeId) {g : Graph α} (h : P g) : P (outputColumn output g x).2 := by
  have hleft := hpass g h
  unfold outputColumn
  split
  · rename_i hfailed
    rw [hfailed] at hleft
    exact hleft
  · rename_i hpassed
    rw [hpassed] at hleft
    split <;> exact hleft

/-- What the masks of a controller and the evaluations keep is kept by the passes of an ensemble, up
to the first one that fails. -/
theorem keeps_outputColumns {controller : Option (Controller γ σ)}
    (hmask : ∀ (g : Graph α) (state : γ) (source : σ), P g →
      P (g.withMask (sampleMask controller g state source).mask))
    (hpass : ∀ g : Graph α, P g → P (g.evaluate x none).2) (output : NodeId) (n : Nat)
    {g : Graph α} (state : γ) (source : σ) (h : P g) :
    P (outputColumns controller output x n g state source).graph := by
  induction n generalizing g state source with
  | zero => exact h
  | succ n ih =>
    have hmasked := hmask g state source h
    have hleft := keeps_outputColumn hpass output hmasked
    unfold outputColumns
    dsimp only
    split
    · exact hmasked
    · split
      · rename_i hfailed
        rw [hfailed] at hleft
        exact hleft
      · rename_i hpassed
        rw [hpassed] at hleft
        exact ih _ _ hleft

end Passes

/-! ## Parts of a call -/

/-- A property of graphs that the parts of a call keep, successful or not: a mask and its release,
a descent and an evaluation. -/
structure Stable (P : Graph α → Prop) : Prop where
  mask : ∀ (g : Graph α) (m : Mask g.size g.table.dropped.size), P g → P (g.withMask m)
  clear : ∀ g : Graph α, P g → P g.clearDropped
  run : ∀ (g : Graph α) (o : Optimizer α) (x : Matrix α) (y : List α) (n : Nat) (rate : α),
    P g → P (o.run g x y n rate).1.graph
  evaluate : ∀ (g : Graph α) (x : Matrix α) (y : Option (List α)), P g → P (g.evaluate x y).2

theorem stable_onlyTrained (g₀ : Graph α) : Stable (OnlyTrained g₀) where
  mask _ _ h := h.withCaches _ _ _
  clear _ h := h.withCaches _ _ _
  run g o x y n rate h := h.trans (onlyTrained_run g o x y n rate)
  evaluate g x y h := h.trans (onlyTrained_evaluate g x y)

/-- What every change of a graph keeps. -/
theorem stable_of_change {P : Graph α → Prop}
    (hchange : ∀ g g' : Graph α, P g → g.Change g' → P g') : Stable P where
  mask g m h := hchange g _ h (.flags rfl (by simp))
  clear g h := hchange g _ h g.change_clearDropped
  run g o x y n rate h := (o.changes_run g x y n rate).keep h hchange
  evaluate g x y h := hchange g _ h (g.change_evaluate x y)

namespace Stable

variable {P : Graph α → Prop}

theorem releaseMask (hP : Stable P) (controller : Option (Controller γ σ)) {g : Graph α}
    (h : P g) : P (Model.releaseMask controller g) := by
  cases controller with
  | none => exact h
  | some _ => exact hP.clear g h

/-! ## Training -/

section Training

variable [RandomSource σ]

/-- A batch, whether the controller or the descent fails or not. -/
theorem fitBatch (hP : Stable P) (controller : Option (Controller γ σ)) (plan : FitPlan α)
    (x : Matrix α) (y : List α) (batch : Nat) {s : FitState α γ σ} (h : P s.graph) :
    P (Model.fitBatch controller plan x y batch s).state.graph := by
  unfold Model.fitBatch
  generalize batchRows plan x y s.source = rows
  obtain ⟨⟨xb, yb⟩, source⟩ := rows
  dsimp only
  set sampled := sampleMask controller s.graph s.controller source
  have hmasked : P (s.graph.withMask sampled.mask) := hP.mask s.graph sampled.mask h
  cases sampled.outcome with
  | error fault => exact hmasked
  | ok _ =>
    have hrun := hP.run _ s.optimizer xb yb plan.stepsPerBatch plan.rate hmasked
    dsimp only
    split
    · exact hP.clear _ hrun
    · exact hrun

theorem fitFrom (hP : Stable P) (controller : Option (Controller γ σ)) (plan : FitPlan α)
    (x : Matrix α) (y : List α) (n batch : Nat) {s : FitState α γ σ} (h : P s.graph) :
    P (Model.fitFrom controller plan x y n batch s).state.graph := by
  induction n generalizing batch s with
  | zero => exact h
  | succ n ih =>
    have hfirst := hP.fitBatch controller plan x y batch h
    unfold Model.fitFrom
    dsimp only
    split
    · exact hfirst
    · exact ih (batch + 1) hfirst

theorem fit (hP : Stable P) {model : Model α} (h : P model.graph)
    (controller : Option (Controller γ σ)) (state : γ) (plan : FitPlan α) (x : Matrix α)
    (y : List α) (source : σ) : P (model.fit controller state plan x y source).state.graph := by
  unfold Model.fit
  dsimp only
  split
  · exact h
  · split
    · exact h
    · rename_i method _ _
      have hbatches := hP.fitFrom controller plan x y plan.batches 0
        (s := ⟨model.graph, .ofMethod method, state, source⟩) h
      split
      · exact hbatches
      · exact hP.releaseMask controller hbatches

end Training

/-! ## Prediction -/

/-- The passes of an ensemble, up to the first one that fails. -/
theorem outputColumns (hP : Stable P) (controller : Option (Controller γ σ)) (output : NodeId)
    (x : Matrix α) (n : Nat) {g : Graph α} (state : γ) (source : σ) (h : P g) :
    P (Model.outputColumns controller output x n g state source).graph :=
  keeps_outputColumns (fun g _ _ hg => hP.mask g _ hg)
    (fun g hg => hP.evaluate g x none hg) output n state source h

theorem predict (hP : Stable P) {model : Model α} (h : P model.graph)
    (controller : Option (Controller γ σ)) (state : γ) (x : Matrix α) (n : Nat) (source : σ) :
    P (model.predict controller state x n source).graph := by
  unfold Model.predict
  split
  · exact h
  · exact hP.releaseMask controller (hP.outputColumns controller model.output x n state source h)

end Stable

/-! ## Calls -/

/-- A training or a prediction, with a controller and a random source of its own. -/
inductive Call (α : Type) : Type 1 where
  | fit {γ σ : Type} (random : RandomSource σ) (controller : Option (Controller γ σ)) (state : γ)
      (plan : FitPlan α) (x : Matrix α) (y : List α) (source : σ)
  | predict {γ σ : Type} (controller : Option (Controller γ σ)) (state : γ) (x : Matrix α)
      (n : Nat) (source : σ)

/-- The model after a call, whether it succeeds or not. -/
def afterCall (model : Model α) : Call α → Model α
  | .fit _ controller state plan x y source =>
    { model with graph := (model.fit controller state plan x y source).state.graph }
  | .predict controller state x n source =>
    { model with graph := (model.predict controller state x n source).graph }

/-- The model after some calls, one after the other. -/
def afterCalls (model : Model α) (calls : List (Call α)) : Model α := calls.foldl afterCall model

theorem Stable.afterCall {P : Graph α → Prop} (hP : Stable P) {model : Model α}
    (h : P model.graph) (call : Call α) : P (model.afterCall call).graph := by
  cases call with
  | fit random controller state plan x y source => exact hP.fit h controller state plan x y source
  | predict controller state x n source => exact hP.predict h controller state x n source

/-- What the parts of a call keep is kept by any sequence of calls. -/
theorem Stable.afterCalls {P : Graph α → Prop} (hP : Stable P) {model : Model α}
    (h : P model.graph) (calls : List (Call α)) : P (model.afterCalls calls).graph := by
  induction calls generalizing model with
  | nil => exact h
  | cons call rest ih => exact ih (hP.afterCall h call)

/-- No sequence of calls changes more than training may. -/
theorem onlyTrained_afterCalls (model : Model α) (calls : List (Call α)) :
    OnlyTrained model.graph (model.afterCalls calls).graph :=
  (stable_onlyTrained model.graph).afterCalls (.refl _) calls

/-- Calls keep of any model what training must leave alone.  If the model was made from the
graph of a forest, each root still has its constant scaling, and each reciprocal its constant
exponent. -/
theorem afterCalls_keeps (model : Model α) (calls : List (Call α)) :
    OnlyTrained model.graph (model.afterCalls calls).graph ∧
      ∀ (f : Forest α) (g₀ g : Graph α) (m : NodeMapping) (keep : Feature α → Bool),
        f.lower.outcome = .ok (g₀, m) → g.table = g₀.table →
        (select f g m keep).outcome = .ok model →
          ∀ (i : Nat) (feature : Feature α), f.get? i = some feature →
            (feature.isRoot = true → ∃ scaling, m.getIndex? i = some scaling ∧
              (model.afterCalls calls).graph.table.Pinned scaling .linear
                [feature.prefactor * feature.unitPrefactor, 0]) ∧
            (feature.isRoot = false → feature.op = .reciprocal →
              ∃ power, m.getIndex? i = some power ∧
                (model.afterCalls calls).graph.table.Pinned power .pow [-1]) := by
  have hkeep := onlyTrained_afterCalls model calls
  refine ⟨hkeep, fun f g₀ g m keep hlower htable hselect i feature hi => ?_⟩
  obtain ⟨id, hid, hpinned⟩ := pinned_of_select hlower htable hselect hi
  have hafter := hpinned.afterTraining hkeep
  exact ⟨fun hroot => ⟨id, hid, hafter.root hroot⟩,
    fun hroot hop => ⟨id, hid, hafter.reciprocal hroot hop⟩⟩

/-- A column and its reciprocal, which is selected. -/
def columnAndReciprocal : Forest α :=
  let f : Forest α := Forest.empty.push ⟨"a", .identity, [], true, 3, 1, 0, 0⟩
  (f.push ⟨"1/a", .reciprocal, [0], false, 1, 1, 0, 0⟩).withScores 1 1 1

theorem built_columnAndReciprocal : (columnAndReciprocal : Forest α).Built := by
  have hcolumn : (Forest.empty.push (⟨"a", .identity, [], true, 3, 1, 0, 0⟩ : Feature α)).Built :=
    Forest.Built.empty.pushRoot (by simp [Forest.empty])
  refine (hcolumn.pushOperator ?_ ⟨by decide, rfl⟩ ?_).withScores ?_ 1 1
  · simp [Forest.push, Forest.empty]
  · simp [Forest.push, Forest.empty, Forest.size]
  · simp [Forest.push, Forest.empty, Forest.size]

/-- A training with dropped nodes, one by an unknown method and a prediction. -/
def someCalls : List (Call α) :=
  [.fit inferInstance (some (Dropout.fixed [2])) () ⟨"adam", 1, 3, 2, true⟩
      (.ofFn 1 1 fun _ _ => 4) [1] (ChaCha.ofSeed 7),
    .fit inferInstance (none : Option (Controller Unit ChaCha)) () ⟨"newton", 1, 3, 2, true⟩
      (.ofFn 1 1 fun _ _ => 4) [1] (ChaCha.ofSeed 7),
    .predict (some (Dropout.fixed [2])) () (.ofFn 1 1 fun _ _ => 4) 5 ()]

/-- What is kept of the column and its reciprocal. -/
theorem afterCalls_keeps_columnAndReciprocal :
    ∃ g m model, (columnAndReciprocal : Forest ExtendedReal).lower.outcome = .ok (g, m) ∧
      (select columnAndReciprocal g m (qualityAtLeast 1)).outcome = .ok model ∧
      OnlyTrained model.graph (model.afterCalls someCalls).graph ∧
      (∃ scaling, m.getIndex? 0 = some scaling ∧
        (model.afterCalls someCalls).graph.table.Pinned scaling .linear [3 * 1, 0]) ∧
      ∃ power, m.getIndex? 1 = some power ∧
        (model.afterCalls someCalls).graph.table.Pinned power .pow [-1] := by
  obtain ⟨g, m, node, hlower, h⟩ :=
    (built_columnAndReciprocal (α := ExtendedReal)).sound.exists_lower
  have hne : (columnAndReciprocal : Forest ExtendedReal).ofQuality 1 ≠ [] :=
    Forest.ofQuality_ne_nil (i := 1) rfl ExtendedReal.one_le_one
  obtain ⟨model, hselect⟩ := exists_select h h.intact.sound rfl hne
  obtain ⟨hkeep, hpinned⟩ := afterCalls_keeps model someCalls
  have hfeature := hpinned columnAndReciprocal g g m _ hlower rfl hselect
  exact ⟨g, m, model, hlower, hselect, hkeep, (hfeature 0 _ rfl).1 rfl,
    (hfeature 1 _ rfl).2 rfl rfl⟩

end Model

end FeatureGraph
