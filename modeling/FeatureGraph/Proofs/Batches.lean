import FeatureGraph.Proofs.Refusal

/-!
# Training batch by batch

Which way a training with a controller ends, and what it leaves of the mask.

* `Reaches` says that some batches have succeeded, and `fitFrom_cases` that a training either goes
  through all of its batches or ends with the first one that fails.
* A batch fails by its controller or by its descent.  `fitBatch_of_sample` and
  `isDropped_fitBatch` say what either leaves of the mask.
* `mask_outlives_fit_iff` is the statement about trainings: a node stays dropped exactly if the
  controller fails and has dropped it.
-/

namespace FeatureGraph

variable {α γ σ : Type}

/-- The graph under a mask drops what the mask drops. -/
@[simp] theorem Graph.isDropped_withMask (g : Graph α) {size width : Nat} (m : Mask size width)
    (id : NodeId) : (g.withMask m).isDropped id = m.isDropped id := by
  simp [isDropped, withMask, Mask.isDropped]

namespace Model

variable [Arith α] [RandomSource σ] {controller : Option (Controller γ σ)} {c : Controller γ σ}
  {plan : FitPlan α} {x : Matrix α} {y : List α} {s t : FitState α γ σ} {batch k n : Nat}

/-! ## Runs of batches -/

/-- The batches from the first number on and before the second one succeed, and lead from one
state to the other. -/
inductive Reaches (controller : Option (Controller γ σ)) (plan : FitPlan α) (x : Matrix α)
    (y : List α) : Nat → FitState α γ σ → Nat → FitState α γ σ → Prop where
  | start (batch : Nat) (s : FitState α γ σ) : Reaches controller plan x y batch s batch s
  | next {batch k : Nat} {s t : FitState α γ σ} {losses : Losses α}
      (h : (fitBatch controller plan x y batch s).outcome = .ok losses)
      (rest : Reaches controller plan x y (batch + 1)
        (fitBatch controller plan x y batch s).state k t) :
      Reaches controller plan x y batch s k t

theorem Reaches.le (h : Reaches controller plan x y batch s k t) : batch ≤ k := by
  induction h with
  | start batch s => exact Nat.le_refl _
  | next _ _ ih => exact Nat.le_of_succ_le ih

/-- A training goes through all of its batches, or ends with the first one that fails. -/
theorem fitFrom_cases (controller : Option (Controller γ σ)) (plan : FitPlan α) (x : Matrix α)
    (y : List α) (n batch : Nat) (s : FitState α γ σ) :
    (∃ losses, (fitFrom controller plan x y n batch s).outcome = .ok losses ∧
      Reaches controller plan x y batch s (batch + n)
        (fitFrom controller plan x y n batch s).state) ∨
    ∃ k t fault, k < batch + n ∧ Reaches controller plan x y batch s k t ∧
      (fitBatch controller plan x y k t).outcome = .error fault ∧
      (fitFrom controller plan x y n batch s).outcome = .error fault ∧
      (fitFrom controller plan x y n batch s).state = (fitBatch controller plan x y k t).state := by
  induction n generalizing batch s with
  | zero => exact .inl ⟨[], rfl, .start batch s⟩
  | succ n ih =>
    unfold fitFrom
    dsimp only
    cases hfirst : (fitBatch controller plan x y batch s).outcome with
    | error fault => exact .inr ⟨batch, s, fault, by omega, .start batch s, hfirst, rfl, rfl⟩
    | ok losses =>
      dsimp only
      rcases ih (batch + 1) (fitBatch controller plan x y batch s).state with
        ⟨rest, hrest, hreaches⟩ | ⟨k, t, fault, hk, hreaches, hfailed, houtcome, hstate⟩
      · refine .inl ⟨losses :: rest, by rw [hrest]; rfl, ?_⟩
        rw [Nat.add_assoc, Nat.add_comm 1] at hreaches
        exact .next hfirst hreaches
      · exact .inr ⟨k, t, fault, by omega, .next hfirst hreaches, hfailed, by rw [houtcome]; rfl,
          hstate⟩

/-- A training that reaches a batch that fails ends with it. -/
theorem fitFrom_of_reaches (hreaches : Reaches controller plan x y batch s k t)
    (hk : k < batch + n) {fault : Fault (ModelError α)}
    (hfailed : (fitBatch controller plan x y k t).outcome = .error fault) :
    (fitFrom controller plan x y n batch s).outcome = .error fault ∧
      (fitFrom controller plan x y n batch s).state = (fitBatch controller plan x y k t).state := by
  induction hreaches generalizing n with
  | start batch s =>
    obtain ⟨n, rfl⟩ : ∃ m, n = m + 1 := ⟨n - 1, by omega⟩
    unfold fitFrom
    dsimp only
    rw [hfailed]
    exact ⟨rfl, rfl⟩
  | @next batch k s t losses hfirst hrest ih =>
    have hle := hrest.le
    obtain ⟨n, rfl⟩ : ∃ m, n = m + 1 := ⟨n - 1, by omega⟩
    obtain ⟨houtcome, hstate⟩ := ih (n := n) (by omega) hfailed
    unfold fitFrom
    dsimp only
    rw [hfirst]
    exact ⟨by rw [houtcome]; rfl, hstate⟩

/-! ## One batch -/

/-- What a controller answers when a batch begins. -/
def sampledFor (c : Controller γ σ) (plan : FitPlan α) (x : Matrix α) (y : List α)
    (s : FitState α γ σ) : Sampled γ σ s.graph.size s.graph.table.dropped.size :=
  c.sample s.controller s.graph.mask (batchRows plan x y s.source).2

/-- A controller that fails ends the batch, and leaves the mask as it is. -/
theorem fitBatch_of_sample (batch : Nat) {fault : Fault GraphError}
    (h : (sampledFor c plan x y s).outcome = .error fault) :
    (fitBatch (some c) plan x y batch s).outcome =
        Outcome.mapFailure ModelError.graph (.error fault : Outcome GraphError (Losses α)) ∧
      (fitBatch (some c) plan x y batch s).state.graph =
        s.graph.withMask (sampledFor c plan x y s).mask := by
  have hsample : (c.sample s.controller s.graph.mask (batchRows plan x y s.source).2).outcome =
      .error fault := h
  constructor
  · simp only [fitBatch, sampleMask, hsample]
  · simp only [fitBatch, sampleMask, hsample]
    rfl

/-- A descent that fails clears the mask. -/
theorem isDropped_fitBatch (hsample : (sampledFor c plan x y s).outcome = .ok ())
    {fault : Fault (ModelError α)}
    (h : (fitBatch (some c) plan x y batch s).outcome = .error fault) (id : NodeId) :
    (fitBatch (some c) plan x y batch s).state.graph.isDropped id = false := by
  have hsample : (c.sample s.controller s.graph.mask (batchRows plan x y s.source).2).outcome =
      .ok () := hsample
  unfold fitBatch at h ⊢
  simp only [sampleMask, hsample] at h ⊢
  split at h
  · exact Graph.isDropped_clearDropped _ id
  · cases h

/-! ## Trainings -/

/-- Behind the checks, a node stays dropped after a training with a controller exactly if in some
batch the controller fails with the node dropped in its mask.  So no node does after a training
that succeeds or whose descent fails.  A training whose controller fails answers that failure, and
leaves the mask of the controller. -/
theorem mask_outlives_fit_iff (model : Model α) (c : Controller γ σ) (state : γ) (plan : FitPlan α)
    (x : Matrix α) (y : List α) (source : σ) {method : Method}
    (hmethod : Method.ofWord? plan.method = some method) (hrows : x.nRows = y.length) :
    (∀ id, (model.fit (some c) state plan x y source).state.graph.isDropped id = true ↔
      ∃ k < plan.batches, ∃ s fault,
        Reaches (some c) plan x y 0 ⟨model.graph, .ofMethod method, state, source⟩ k s ∧
          (sampledFor c plan x y s).outcome = .error fault ∧
          (sampledFor c plan x y s).mask.isDropped id = true) ∧
    ∀ k < plan.batches, ∀ s fault,
      Reaches (some c) plan x y 0 ⟨model.graph, .ofMethod method, state, source⟩ k s →
        (sampledFor c plan x y s).outcome = .error fault →
          (model.fit (some c) state plan x y source).outcome =
              Outcome.mapFailure ModelError.graph
                (.error fault : Outcome GraphError (List (Losses α))) ∧
            (model.fit (some c) state plan x y source).state.graph =
              s.graph.withMask (sampledFor c plan x y s).mask := by
  set start : FitState α γ σ := ⟨model.graph, .ofMethod method, state, source⟩ with hstart
  obtain ⟨houtcome, hgraph⟩ := fit_of_checked model (some c) state source hmethod hrows
    (rfl : fitFrom (some c) plan x y plan.batches 0 start = _)
  -- a training whose controller fails ends there
  have hends : ∀ k < plan.batches, ∀ s fault, Reaches (some c) plan x y 0 start k s →
      (sampledFor c plan x y s).outcome = .error fault →
        (model.fit (some c) state plan x y source).outcome =
            Outcome.mapFailure ModelError.graph
              (.error fault : Outcome GraphError (List (Losses α))) ∧
          (model.fit (some c) state plan x y source).state.graph =
            s.graph.withMask (sampledFor c plan x y s).mask := by
    intro k hk s fault hreaches hsample
    obtain ⟨hbatch, hmask⟩ := fitBatch_of_sample k hsample
    cases hfault : (Outcome.mapFailure ModelError.graph
        (.error fault : Outcome GraphError (Losses α))) with
    | ok losses => cases fault <;> cases hfault
    | error fault' =>
      obtain ⟨hfailed, hstate⟩ := fitFrom_of_reaches hreaches (n := plan.batches) (by omega)
        (hbatch.trans hfault)
      rw [hfailed] at houtcome hgraph
      refine ⟨houtcome.trans ?_, hgraph.trans ((congrArg FitState.graph hstate).trans hmask)⟩
      cases fault <;> cases hfault <;> rfl
  refine ⟨fun id => ⟨fun hdropped => ?_, ?_⟩, hends⟩
  · rcases fitFrom_cases (some c) plan x y plan.batches 0 start with
      ⟨losses, hpassed, _⟩ | ⟨k, s, fault, hk, hreaches, hbatch, hfailed, hstate⟩
    · rw [hpassed] at hgraph
      rw [hgraph] at hdropped
      exact absurd ((Graph.isDropped_clearDropped _ id).symm.trans hdropped) Bool.false_ne_true
    · rw [hfailed] at hgraph
      rw [hgraph, hstate] at hdropped
      cases hsample : (sampledFor c plan x y s).outcome with
      | ok _ =>
        rw [isDropped_fitBatch hsample hbatch] at hdropped
        cases hdropped
      | error fault' =>
        rw [(fitBatch_of_sample k hsample).2, Graph.isDropped_withMask] at hdropped
        exact ⟨k, by omega, s, fault', hreaches, hsample, hdropped⟩
  · rintro ⟨k, hk, s, fault, hreaches, hsample, hdropped⟩
    rw [(hends k hk s fault hreaches hsample).2, Graph.isDropped_withMask]
    exact hdropped

/-- A training of the column with a fixed mask, over a matrix of some columns. -/
def maskedTraining (nodes : List NodeId) (nCols : Nat) :
    Fitted Float Unit ChaCha (List (Losses Float)) :=
  (columnModel false).fit (some (Dropout.fixed nodes)) () ⟨"steep", 0.5, 1, 1, false⟩
    (.ofFn 1 nCols fun _ _ => 1) [1] (ChaCha.ofSeed 0)

/-- The descent is refused while the scaling is dropped, and no node stays dropped. -/
theorem mask_outlives_fit_columnless :
    Method.ofWord? "steep" = some .steep ∧
      (maskedTraining [1] 0).outcome.isOk = false ∧
      ∀ id, (maskedTraining [1] 0).state.graph.isDropped id ≠ true := by
  have hrefused : (maskedTraining [1] 0).outcome.isOk = false := by decide +kernel
  refine ⟨rfl, hrefused, fun id hdropped => ?_⟩
  unfold maskedTraining at hdropped
  obtain ⟨k, hk, s, fault, hreaches, hsample, _⟩ :=
    ((mask_outlives_fit_iff (columnModel false) (Dropout.fixed [1]) () ⟨"steep", 0.5, 1, 1, false⟩
      (.ofFn 1 0 fun _ _ => 1) [1] (ChaCha.ofSeed 0)
      (rfl : Method.ofWord? "steep" = some .steep) rfl).1 id).1 hdropped
  -- there is one batch, and in it the controller succeeds
  obtain rfl : k = 0 := by
    change k < 1 at hk
    omega
  cases hreaches with
  | start =>
    have hok : (sampledFor (Dropout.fixed [1] : Controller Unit ChaCha)
        (⟨"steep", 0.5, 1, 1, false⟩ : FitPlan Float) (.ofFn 1 0 fun _ _ => 1) [1]
        ⟨(columnModel false).graph, .ofMethod .steep, (), ChaCha.ofSeed 0⟩).outcome.isOk =
          true := by
      decide +kernel
    rw [hsample] at hok
    cases hok
  | next _ rest => exact absurd rest.le (by omega)

/-- The controller drops the scaling of the column, then asks for a node that is not there, and the
scaling stays dropped. -/
theorem mask_outlives_fit_column :
    ∃ g m model, (Forest.oneColumn : Forest Float).lower.outcome = .ok (g, m) ∧
      (select Forest.oneColumn g m fun _ => true).outcome = .ok model ∧
      Method.ofWord? "steep" = some .steep ∧
      (∃ reason, (model.fit (some (Dropout.fixed [1, 99])) () ⟨"steep", 0.5, 1, 1, false⟩
        (.ofFn 1 1 fun _ _ => 1) [1] (ChaCha.ofSeed 0)).outcome = .error (.failure reason)) ∧
      (model.fit (some (Dropout.fixed [1, 99])) () ⟨"steep", 0.5, 1, 1, false⟩
        (.ofFn 1 1 fun _ _ => 1) [1] (ChaCha.ofSeed 0)).state.graph.isDropped 1 = true := by
  have hrefused : Outcome.isFailure (maskedTraining [1, 99] 1).outcome = true := by decide +kernel
  have hdropped : (maskedTraining [1, 99] 1).state.graph.isDropped 1 = true := by decide +kernel
  unfold maskedTraining at hrefused hdropped
  exact ⟨_, _, columnModel false, lower_oneColumn, select_oneColumn false, rfl,
    Outcome.isFailure_iff.1 hrefused, hdropped⟩

end Model

end FeatureGraph
