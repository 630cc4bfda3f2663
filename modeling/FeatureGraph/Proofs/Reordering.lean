import FeatureGraph.Proofs.Averages
import FeatureGraph.Proofs.Training

/-!
# The order of the rows does not matter

In exact arithmetic a training on the rows in another order answers the same losses and leaves the
same parameters.  The columns of the two runs hold their rows in different orders, and everything
else is the same.

* `reorders_pick` says that picking each row once gives the rows in another order.
* `Mirrored` are the gradients that two backward passes have so far.  `Mirrored.backwardStep` is
  one step of both, and `rel_backward` are the passes.
* `Graph.withValues` is a graph with other columns.  The passes, the descents and the batches of a
  graph and of the same graph with other columns differ in the columns again.
* `averages_over_rows` is the statement about losses, gradients and trainings.
-/

namespace FeatureGraph

variable {α : Type}

/-- The rows of some data in another order. -/
def Matrix.Reorders (x : Matrix α) (y : List α) (x' : Matrix α) (y' : List α) : Prop :=
  y.length = x.nRows ∧ ∃ σ : Fin x'.nRows ≃ Fin x.nRows, x.Draws y x' y' σ

namespace Matrix

variable {x x' : Matrix α} {y y' : List α}

theorem nRows_eq_of_equiv (σ : Fin x'.nRows ≃ Fin x.nRows) : x'.nRows = x.nRows :=
  Fin.equiv_iff_eq.1 ⟨σ⟩

/-- All rows, each of them picked once. -/
theorem reorders_pick (hy : y.length = x.nRows) {rows : List (Fin x.nRows)}
    (hrows : rows.Perm (List.finRange x.nRows)) :
    x.Reorders y (x.pick y rows).1 (x.pick y rows).2 := by
  have hnodup : rows.Nodup := hrows.nodup_iff.2 (List.nodup_finRange _)
  have hall : ∀ r, r ∈ rows := fun r => hrows.mem_iff.2 (List.mem_finRange r)
  exact ⟨hy, (finCongr (x.nRows_pick y rows)).trans
    (hnodup.getEquivOfForallMemList rows hall), x.draws_pick hy rows⟩

end Matrix

/-! ## Passes -/

section Passes

variable [ExactArith α] {x x' : Matrix α} {y y' : List α} {σ : Fin x'.nRows ≃ Fin x.nRows}

/-- The mean does not depend on the order. -/
theorem Arith.mean_comp_equiv (σ : Fin x'.nRows ≃ Fin x.nRows) (f : Fin x.nRows → α) :
    Arith.mean (List.ofFn fun k => f (σ k)) = Arith.mean (List.ofFn f) := by
  rw [Arith.mean_ofFn_eq_div, Arith.mean_ofFn_eq_div, Equiv.sum_comp σ f,
    Matrix.nRows_eq_of_equiv σ]

/-- Adding gradients whose rows are in another order. -/
theorem addAll_comp {n n' : Nat} (σ : Fin n' → Fin n) (a : Nat → Fin n → α)
    (l : List (Nat × (Fin n → α))) :
    addAll (fun k => a k ∘ σ) (l.map fun e => (e.1, e.2 ∘ σ)) = fun k => addAll a l k ∘ σ := by
  induction l generalizing a with
  | nil => rfl
  | cons e l ih =>
    have hfirst : Function.update (fun k => a k ∘ σ) e.1 (a e.1 ∘ σ + e.2 ∘ σ) =
        fun k => Function.update a e.1 (a e.1 + e.2) k ∘ σ := by
      funext k
      by_cases hk : k = e.1
      · subst hk
        simp [Pi.add_comp]
      · simp [hk]
    exact (congrArg (addAll · _) hfirst).trans (ih _)

namespace NodeTable

variable {t : NodeTable α}

theorem handedOn_comp (hdraws : x.Draws y x' y' σ) (op : Primitive) (ps : List α) (node : NodeId)
    (grad : Fin x.nRows → α) :
    t.handedOn x' (some y') op ps node (grad ∘ σ) =
      (t.handedOn x (some y) op ps node grad).map fun e => (e.1, e.2 ∘ σ) := by
  simp [handedOn, hdraws.sample, Function.comp_def]

theorem collected_comp (hdraws : x.Draws y x' y' σ) (op : Primitive) (ps : List α) (node : NodeId)
    (grad : Fin x.nRows → α) :
    t.collected x' (some y') op ps node (grad ∘ σ) =
      t.collected x (some y) op ps node grad := by
  simp only [collected, hdraws.sample, Function.comp_apply]
  refine List.map_congr_left fun j _ => ?_
  exact Equiv.sum_comp σ fun r => grad r *
    (op.paramSlopes ((t.parentList node).map (t.valueAt (x.sample (some y) r)))
      (t.valueAt (x.sample (some y) r) node)).getD j 0

theorem skips_comp (σ : Fin x'.nRows ≃ Fin x.nRows) (node : NodeId) (grad : Fin x.nRows → α) :
    t.Skips node (grad ∘ σ) ↔ t.Skips node grad := by
  have hzero : (∀ k, (grad ∘ σ) k = 0) ↔ ∀ r, grad r = 0 :=
    (σ.surjective.forall (p := fun r => grad r = 0)).symm
  rw [Skips, Skips, hzero]

/-- Two backward passes have the same gradients so far, with the rows of the second one in another
order. -/
structure Mirrored (t : NodeTable α) (σ : Fin x'.nRows ≃ Fin x.nRows)
    (adj adj' : Tape.Adjoint α) : Prop where
  slots : ∃ a : Nat → Fin x.nRows → α, adj.slots = gradientSlots t.activeIds.length a ∧
    adj'.slots = gradientSlots t.activeIds.length fun k => a k ∘ σ
  params : adj'.params = adj.params
  size : adj.params.params.size = t.size

/-- One step of both passes. -/
theorem Mirrored.backwardStep {adj adj' : Tape.Adjoint α} (h : t.Mirrored σ adj adj')
    (ht : t.Sound) (hclosed : t.Closed) (hdraws : x.Draws y x' y' σ) {i : Nat}
    (hi : i < t.activeIds.length) :
    Outcome.Rel (t.Mirrored σ)
      (Tape.backwardStep t (t.computed x (some y) t.activeIds.length) adj
        (⟨t.activeIds[i], (t.parentList t.activeIds[i]).map t.activeIds.idxOf⟩, i))
      (Tape.backwardStep t (t.computed x' (some y') t.activeIds.length) adj'
        (⟨t.activeIds[i], (t.parentList t.activeIds[i]).map t.activeIds.idxOf⟩, i)) := by
  obtain ⟨a, ha, ha'⟩ := h.slots
  have hsize' : adj'.params.params.size = t.size := by rw [h.params, h.size]
  by_cases hskips : t.Skips t.activeIds[i] (a i)
  · rw [backwardStep_of_skips ht hi ha hskips,
      backwardStep_of_skips ht hi ha' ((skips_comp σ _ _).2 hskips)]
    exact .ok h
  · have hlt := lt_size_of_mem_activeIds (List.getElem_mem hi)
    have hop := ht.ops_getElem? hlt
    obtain ⟨ps, hps⟩ := ht.params_getElem? hlt
    rw [backwardStep_of_not_skips ht hclosed hi ha h.size hop hps hskips,
      backwardStep_of_not_skips ht hclosed hi ha' hsize' hop hps
        fun hskips' => hskips ((skips_comp σ _ _).1 hskips')]
    refine .ok ⟨⟨_, rfl, ?_⟩, ?_, by simpa using h.size⟩
    · rw [handedOn_comp hdraws, addAll_comp]
    · rw [collected_comp hdraws, h.params]

/-- Both passes start with one over the same number of rows at the objective. -/
theorem mirrored_seed (σ : Fin x'.nRows ≃ Fin x.nRows) {slot : Nat}
    (hslot : slot < t.activeIds.length) :
    Outcome.Rel (t.Mirrored σ) (Tape.seed t t.straightTape x.nRows slot)
      (Tape.seed t t.straightTape x'.nRows slot) := by
  have hones : ∀ n : Nat, List.replicate n (1 / (n : α)) =
      List.ofFn fun _ : Fin n => 1 / (n : α) := fun n => (List.ofFn_const n _).symm
  simp only [Tape.seed, size_straightTape, zeros_eq_gradientSlots, hones, set_gradientSlots hslot,
    Outcome.ok_bind, Outcome.pure_eq_ok]
  refine .ok ⟨⟨_, rfl, ?_⟩, rfl, by simp⟩
  refine congrArg (gradientSlots _) (funext fun k => ?_)
  by_cases hk : k = slot
  · subst hk
    simp [Matrix.nRows_eq_of_equiv σ, Function.comp_def]
  · simp [hk, Function.comp_def]

/-- The two passes answer the same gradients of the parameters. -/
theorem rel_backward (ht : t.Sound) (hclosed : t.Closed) (hdraws : x.Draws y x' y' σ)
    (objective : NodeId) :
    Outcome.Rel (fun adj adj' => adj'.params = adj.params)
      (t.straightTape.backward t (t.computed x (some y) t.activeIds.length) objective)
      (t.straightTape.backward t (t.computed x' (some y') t.activeIds.length) objective) := by
  by_cases hobjective : objective ∈ t.activeIds
  · rw [backward_of_mem hobjective, backward_of_mem hobjective]
    have hslot := List.idxOf_lt_length_iff.2 hobjective
    refine (mirrored_seed σ hslot).bind fun start start' hstart => ?_
    refine Outcome.Rel.mono (Outcome.Rel.foldlM hstart fun entry hentry adj adj' h => ?_)
      fun _ _ h => h.params
    obtain ⟨i, hi, rfl⟩ := List.getElem_of_mem (List.mem_of_mem_take (List.mem_reverse.1 hentry))
    have hactive : i < t.activeIds.length := by simpa [straightTape] using hi
    rw [getElem_zipIdx_steps hactive]
    exact h.backwardStep ht hclosed hdraws hactive
  · rw [Tape.backward, Tape.backward, slotOf?_straightTape, if_neg hobjective]
    exact .error _

end NodeTable

end Passes

/-! ## Graphs with other columns -/

/-- The graph with other columns from its last evaluation. -/
def Graph.withValues (g : Graph α) (values : Slots α) : Graph α := { g with values }

theorem Graph.Sound.withValues {g : Graph α} (hg : g.Sound) (values : Slots α) :
    (g.withValues values).Sound :=
  ⟨hg.table, hg.tape⟩

/-- The data are checked in the same way. -/
theorem Tape.checkData_draw {x x' : Matrix α} {y y' : List α} {σ : Fin x'.nRows → Fin x.nRows}
    (hy : y.length = x.nRows) (hdraws : x.Draws y x' y' σ) (t : NodeTable α) (p : Tape) :
    checkData t p x' (some y') = checkData t p x (some y) := by
  have hinput : checkInput t x' = checkInput t x := by
    funext step
    rw [checkInput, checkInput, hdraws.nCols]
  rw [checkData, checkData, hinput, checkTarget, checkTarget,
    if_neg (not_not.2 hy), if_neg (not_not.2 hdraws.length)]

namespace Graph

variable {g : Graph α} {x x' : Matrix α} {y y' : List α}

/-- A pass fails as the compilation of its tape does. -/
theorem runForward_of_compile_eq_error [Arith α] (hg : g.Sound) {fault : Fault GraphError}
    (h : g.table.compile = .error fault) (x : Matrix α) (y : Option (List α)) :
    g.runForward x y = .error fault := by
  rw [runForward, hg.currentTape_eq, h]
  rfl

/-- A pass over a closed graph fails as the check of its data does. -/
theorem runForward_of_checkData_eq_error [Arith α] (hg : g.Sound) (hclosed : g.table.Closed)
    {target : Option (List α)} {fault : Fault GraphError}
    (h : Tape.checkData g.table g.table.straightTape x target = .error fault) :
    g.runForward x target = .error fault := by
  rw [runForward, hg.currentTape_eq, (NodeTable.compile_eq_ok_iff hg.table).2 ⟨hclosed, rfl⟩,
    Outcome.ok_bind, Tape.forward, h]
  rfl

/-- Both forward passes fail for the same reason, or both can be made. -/
theorem runForward_reorder [Arith α] {σ : Fin x'.nRows → Fin x.nRows} (hg : g.Sound)
    (hy : y.length = x.nRows) (hdraws : x.Draws y x' y' σ) (values : Slots α) :
    (∃ fault, g.runForward x (some y) = .error fault ∧
      (g.withValues values).runForward x' (some y') = .error fault) ∨
    g.table.Closed ∧ g.table.Accepts x (some y) := by
  have hother := hg.withValues values
  cases hcompile : (g.table.compile : Outcome GraphError Tape) with
  | error fault =>
    exact .inl ⟨fault, runForward_of_compile_eq_error hg hcompile x _,
      runForward_of_compile_eq_error hother hcompile x' _⟩
  | ok tape =>
    obtain ⟨hclosed, _⟩ := (NodeTable.compile_eq_ok_iff hg.table).1 hcompile
    cases hcheck : Tape.checkData g.table g.table.straightTape x (some y) with
    | error fault =>
      exact .inl ⟨fault, runForward_of_checkData_eq_error hg hclosed hcheck,
        runForward_of_checkData_eq_error hother hclosed
          ((Tape.checkData_draw hy hdraws _ _).trans hcheck)⟩
    | ok _ => exact .inr ⟨hclosed, (NodeTable.checkData_eq_ok_iff hg.table).1 hcheck⟩

variable [ExactArith α]

/-- A gradient pass over the rows in another order answers the same gradients. -/
theorem gradients_reorder (hg : g.Sound) (h : x.Reorders y x' y') (values : Slots α) :
    ((g.withValues values).gradients x' y').1 = (g.gradients x y).1 ∧
      ∃ values', ((g.withValues values).gradients x' y').2 =
        (g.gradients x y).2.withValues values' := by
  obtain ⟨hy, σ, hdraws⟩ := h
  cases hhead : g.objectives.head? with
  | none =>
    rw [gradients_of_head?_none hhead, gradients_of_head?_none (g := g.withValues values) hhead]
    exact ⟨rfl, values, rfl⟩
  | some objective =>
    rw [gradients_of_head? hhead, gradients_of_head? (g := g.withValues values) hhead]
    rcases runForward_reorder hg hy hdraws values with ⟨fault, hrun, hrun'⟩ | ⟨hclosed, hdata⟩
    · rw [hrun, hrun']
      exact ⟨rfl, values, rfl⟩
    · have hrun := (runForward_eq_ok_iff hg).2 ⟨hclosed, hdata, rfl⟩
      have hrun' := (runForward_eq_ok_iff (hg.withValues values)).2
        ⟨hclosed, accepts_draw hdraws hdata, rfl⟩
      have hbackward := NodeTable.rel_backward hg.table hclosed hdraws objective
      rw [hrun, hrun', Outcome.ok_bind, Outcome.ok_bind]
      refine ⟨?_, _, rfl⟩
      change (g.table.straightTape.backward g.table
        (g.table.computed x' (some y') g.table.activeIds.length) objective).map _ = _
      generalize g.table.straightTape.backward g.table
        (g.table.computed x (some y) g.table.activeIds.length) objective = adj at hbackward ⊢
      generalize g.table.straightTape.backward g.table
        (g.table.computed x' (some y') g.table.activeIds.length) objective = adj' at hbackward ⊢
      cases hbackward with
      | ok hparams => exact congrArg Except.ok hparams
      | error fault => rfl

/-- After a successful pass over the rows in another order the loss is the same. -/
theorem loss?_reorder (hg : g.Sound) (h : x.Reorders y x' y') (values : Slots α)
    {grads : Gradients α} (hpass : (g.gradients x y).1 = .ok grads) :
    ((g.withValues values).gradients x' y').2.loss? = (g.gradients x y).2.loss? := by
  obtain ⟨_, σ, hdraws⟩ := h
  obtain ⟨objective, rest, hobjectives, hclosed, hdata, hactive⟩ := of_gradients_eq_ok hg hpass
  have hobjective : g.objectives.head? = some objective := by rw [hobjectives, List.head?_cons]
  have hloss : ((g.withValues values).gradients x' y').2.loss? = _ :=
    loss?_gradients (hg.withValues values) hobjective hactive hclosed (accepts_draw hdraws hdata)
  have hmean : Arith.mean (List.ofFn fun k =>
        (g.withValues values).table.valueAt (x'.sample (some y') k) objective) =
      Arith.mean (List.ofFn fun r => g.table.valueAt (x.sample (some y) r) objective) := by
    simp only [hdraws.sample]
    exact Arith.mean_comp_equiv σ fun r => g.table.valueAt (x.sample (some y) r) objective
  rw [hloss, hmean, loss?_gradients hg hobjective hactive hclosed hdata,
    Matrix.nRows_eq_of_equiv σ]

end Graph

/-! ## Descents -/

namespace Optimizer

variable {g : Graph α} {x x' : Matrix α} {y y' : List α}

/-- A step or a run that leaves other columns. -/
def Stepped.withValues {β : Type} (s : Stepped α β) (values : Slots α) : Stepped α β :=
  { s with graph := s.graph.withValues values }

/-- Updates do not look at the columns. -/
theorem updates_withValues [Arith α] (rate : α) (grads : Gradients α) (g : Graph α)
    (o : Optimizer α) (values : Slots α) (nodes : List NodeId) :
    Outcome.Rel (fun s s' => s'.1 = s.1.withValues values ∧ s'.2 = s.2)
      (nodes.foldlM (updateNode rate grads) (g, o))
      (nodes.foldlM (updateNode rate grads) (g.withValues values, o)) :=
  rel_updates (R := fun g g' => g' = g.withValues values) (fun _ _ _ _ h => h ▸ rfl)
    (fun _ _ _ _ _ h => h ▸ rfl) rfl rate grads o

variable [ExactArith α]

/-- A step on the rows in another order. -/
theorem step_reorder (hg : g.Sound) (h : x.Reorders y x' y') (o : Optimizer α) (rate : α)
    (nodes : List NodeId) (values : Slots α) :
    ∃ values', o.step (g.withValues values) x' y' rate nodes =
      (o.step g x y rate nodes).withValues values' := by
  obtain ⟨hgrads, values₁, hleft⟩ := g.gradients_reorder hg h values
  have hloss : ∀ grads, (g.gradients x y).1 = .ok grads →
      ((g.withValues values).gradients x' y').2.loss? = (g.gradients x y).2.loss? :=
    fun _ hpass => g.loss?_reorder hg h values hpass
  unfold step
  generalize g.gradients x y = pass at hgrads hleft hloss ⊢
  generalize (g.withValues values).gradients x' y' = pass' at hgrads hleft hloss ⊢
  obtain ⟨result, g₁⟩ := pass
  obtain ⟨result', g₁'⟩ := pass'
  obtain rfl : result' = result := hgrads
  obtain rfl : g₁' = g₁.withValues values₁ := hleft
  cases result' with
  | error fault => exact ⟨values₁, rfl⟩
  | ok grads =>
    have hrun := updates_withValues rate grads g₁ { o with steps := o.steps + 1 } values₁ nodes
    dsimp only
    rw [hloss grads rfl]
    generalize nodes.foldlM (updateNode rate grads)
      (g₁, { o with steps := o.steps + 1 }) = run at hrun ⊢
    generalize nodes.foldlM (updateNode rate grads)
      (g₁.withValues values₁, { o with steps := o.steps + 1 }) = run' at hrun ⊢
    cases hrun with
    | error fault => exact ⟨values₁, rfl⟩
    | ok hboth =>
      refine ⟨values₁, ?_⟩
      dsimp only
      rw [hboth.1, hboth.2]
      rfl

/-- Any number of steps. -/
theorem steps?_reorder (hg : g.Sound) (h : x.Reorders y x' y') (o : Optimizer α) (rate : α)
    (nodes : List NodeId) (n : Nat) (values : Slots α) :
    ∃ values', steps? x' y' rate nodes n o (g.withValues values) =
      (steps? x y rate nodes n o g).withValues values' := by
  induction n generalizing o g values with
  | zero => exact ⟨values, rfl⟩
  | succ n ih =>
    obtain ⟨values₁, hstep⟩ := step_reorder hg h o rate nodes values
    have hsound := hg.step o x y rate nodes
    unfold steps?
    rw [hstep]
    generalize o.step g x y rate nodes = s at hsound ⊢
    obtain ⟨outcome, g₁, o₁⟩ := s
    cases outcome with
    | error fault => exact ⟨values₁, rfl⟩
    | ok loss =>
      obtain ⟨values₂, hrest⟩ := ih hsound o₁ values₁
      refine ⟨values₂, ?_⟩
      dsimp only [Stepped.withValues] at hrest ⊢
      rw [hrest]

/-- A descent. -/
theorem run_reorder (hg : g.Sound) (h : x.Reorders y x' y') (o : Optimizer α) (n : Nat) (rate : α)
    (values : Slots α) :
    ∃ values', o.run (g.withValues values) x' y' n rate =
      ((o.run g x y n rate).1.withValues values', (o.run g x y n rate).2) := by
  have htable : (g.withValues values).table = g.table := rfl
  unfold run
  rw [htable]
  cases (g.table.trainable : Outcome GraphError (List NodeId)) with
  | error fault => exact ⟨values, rfl⟩
  | ok nodes =>
    obtain ⟨values', hsteps⟩ := steps?_reorder hg h o rate nodes n values
    refine ⟨values', ?_⟩
    dsimp only
    rw [hsteps]
    generalize steps? x y rate nodes n o g = s
    obtain ⟨outcome, g₁, o₁⟩ := s
    cases outcome <;> rfl

end Optimizer

/-! ## Trainings -/

/-- A training that leaves other columns. -/
def Fitted.withValues {γ σ β : Type} (r : Fitted α γ σ β) (values : Slots α) : Fitted α γ σ β :=
  { r with state := { r.state with graph := r.state.graph.withValues values } }

namespace Model

variable {γ σ : Type}

theorem stable_sound [Arith α] : Stable (Graph.Sound (α := α)) :=
  stable_of_change fun _ _ hg => hg.of_change

variable [ExactArith α] [RandomSource σ] {plan : FitPlan α} {x x' : Matrix α} {y y' : List α}
  {s : FitState α γ σ}

/-- A batch on the rows in another order. -/
theorem fitBatch_reorder (hs : s.graph.Sound) (h : x.Reorders y x' y')
    (hplan : plan.resample = false) (batch : Nat) (values : Slots α) :
    ∃ values', fitBatch none plan x' y' batch { s with graph := s.graph.withValues values } =
      (fitBatch none plan x y batch s).withValues values' := by
  have hrows : ∀ (x : Matrix α) (y : List α) (source : σ),
      batchRows plan x y source = ((x, y), source) := fun x y source => by
    rw [batchRows, hplan]
    rfl
  have hmasked : (s.graph.withMask s.graph.mask).Sound := stable_sound.mask _ _ hs
  obtain ⟨values', hrun⟩ :=
    s.optimizer.run_reorder hmasked h plan.stepsPerBatch plan.rate values
  have hsame : ∀ g : Graph α, (g.withValues values).withMask (g.withValues values).mask =
      (g.withMask g.mask).withValues values := fun _ => rfl
  refine ⟨values', ?_⟩
  simp only [fitBatch, hrows, sampleMask, hsame, hrun]
  generalize s.optimizer.run (s.graph.withMask s.graph.mask) x y plan.stepsPerBatch plan.rate = r
  obtain ⟨⟨outcome, g, o⟩, events⟩ := r
  cases outcome <;> rfl

/-- Any number of batches. -/
theorem fitFrom_reorder (hs : s.graph.Sound) (h : x.Reorders y x' y')
    (hplan : plan.resample = false) (n batch : Nat) (values : Slots α) :
    ∃ values', fitFrom none plan x' y' n batch { s with graph := s.graph.withValues values } =
      (fitFrom none plan x y n batch s).withValues values' := by
  induction n generalizing batch s values with
  | zero => exact ⟨values, rfl⟩
  | succ n ih =>
    obtain ⟨values₁, hbatch⟩ := fitBatch_reorder hs h hplan batch values
    have hsound := stable_sound.fitBatch none plan x y batch hs
    unfold fitFrom
    rw [hbatch]
    generalize fitBatch none plan x y batch s = first at hsound ⊢
    obtain ⟨outcome, left, events⟩ := first
    cases outcome with
    | error fault => exact ⟨values₁, rfl⟩
    | ok losses =>
      obtain ⟨values₂, hrest⟩ := ih hsound (batch + 1) values₁
      refine ⟨values₂, ?_⟩
      dsimp only [Fitted.withValues] at hrest ⊢
      rw [hrest]

/-- A training without a controller on the rows in another order. -/
theorem fit_reorder {model : Model α} (hg : model.graph.Sound) (h : x.Reorders y x' y')
    (hplan : plan.resample = false) (state : γ) (source : σ) :
    ∃ values, model.fit none state plan x' y' source =
      (model.fit none state plan x y source).withValues values := by
  have hlength : ¬x.nRows ≠ y.length := not_not.2 h.1.symm
  have hlength' : ¬x'.nRows ≠ y'.length := by
    obtain ⟨_, _, hdraws⟩ := h
    exact not_not.2 hdraws.length.symm
  unfold fit
  dsimp only
  cases Method.ofWord? plan.method with
  | none => exact ⟨model.graph.values, rfl⟩
  | some method =>
    dsimp only
    rw [if_neg hlength, if_neg hlength']
    let start : FitState α γ σ := ⟨model.graph, .ofMethod method, state, source⟩
    obtain ⟨values, hbatches⟩ :=
      fitFrom_reorder (s := start) hg h hplan plan.batches 0 model.graph.values
    have hbatches : fitFrom none plan x' y' plan.batches 0 start =
        (fitFrom none plan x y plan.batches 0 start).withValues values := hbatches
    refine ⟨values, ?_⟩
    rw [hbatches]
    generalize fitFrom none plan x y plan.batches 0 start = result
    obtain ⟨outcome, left, events⟩ := result
    cases outcome <;> rfl

end Model

namespace Graph

variable [ExactArith α] {γ σ : Type} [RandomSource σ] {g : Graph α}

/-- In exact arithmetic a gradient pass over a graph that actions lead to answers the means of what
passes over its single rows answer, and leaves the mean of their losses.  Over picked rows, in any
order and with repetitions, each row counts as often as it has been picked.  So a training without
resampling and without a controller comes to the same losses and the same parameters, whatever the
order of the rows. -/
theorem averages_over_rows (hone : (1 : α) / 1 = 1) (hg : g.Reachable) :
    (∀ (x : Matrix α) (y : List α) (grads : Gradients α), 0 < x.nRows →
      (g.gradients x y).1 = .ok grads →
      ∃ (rowGrads : Fin x.nRows → Gradients α) (rowLoss : Fin x.nRows → α),
        (∀ r, g.Answers (x.pick y [r]) (rowGrads r) (rowLoss r)) ∧
        (g.Answers (x, y) grads ((∑ r, rowLoss r) / (x.nRows : α)) ∧
          ∀ id j, (grads.get id).getD j 0 =
            (∑ r, ((rowGrads r).get id).getD j 0) / (x.nRows : α)) ∧
        ∀ rows : List (Fin x.nRows), rows ≠ [] → ∃ picked,
          g.Answers (x.pick y rows) picked
            ((∑ r, (rows.count r : α) * rowLoss r) / (rows.length : α)) ∧
          ∀ id j, (picked.get id).getD j 0 =
            (∑ r, (rows.count r : α) * ((rowGrads r).get id).getD j 0) / (rows.length : α)) ∧
    ∀ model : Model α, model.graph.Sound → ∀ (state : γ) (source : σ) (plan : FitPlan α)
      (x : Matrix α) (y : List α) (rows : List (Fin x.nRows)), plan.resample = false →
      y.length = x.nRows → rows.Perm (List.finRange x.nRows) →
      let fitted := model.fit none state plan x y source
      let reordered := model.fit none state plan (x.pick y rows).1 (x.pick y rows).2 source
      reordered.outcome = fitted.outcome ∧ reordered.events = fitted.events ∧
        reordered.state.graph.table = fitted.state.graph.table ∧
        reordered.state.optimizer = fitted.state.optimizer := by
  have hsound := hg.sound
  refine ⟨fun x y grads hrows hpass => ?_, ?_⟩
  · obtain ⟨objective, rest, hobjectives, _, hdata, _⟩ := of_gradients_eq_ok hsound hpass
    have hobjective : g.objectives.head? = some objective := by rw [hobjectives, List.head?_cons]
    have hy : y.length = x.nRows := hdata.target y rfl
    choose rowGrads hanswers hgrads using answers_row hone hsound hpass hobjective hy
    refine ⟨rowGrads, fun r => g.table.valueAt (x.sample (some y) r) objective, hanswers, ?_,
      fun rows hne => ?_⟩
    · simp only [hgrads]
      exact answers_all hsound hpass hobjective hy hrows
    · simp only [hgrads]
      exact answers_pick hsound hpass hobjective hy hne
  · intro model hmodel state source plan x y rows hplan hy hperm
    obtain ⟨values, hfit⟩ :=
      Model.fit_reorder hmodel (x.reorders_pick hy hperm) hplan state source
    dsimp only
    rw [hfit]
    exact ⟨rfl, rfl, rfl, rfl⟩

/-- Two rows of one column. -/
noncomputable def twoRows : Matrix ℝ := .ofFn 2 1 fun r _ => r.val

/-- The line through the rows as a model. -/
noncomputable def lineModel : Model ℝ where
  graph := lineFit
  mapping := {}
  selection := []
  stats := ⟨0, 0, 0, 0, 0⟩
  output := 1
  target := 2
  objective := 3

/-- The line through two rows, through the second row twice and the first one once, and trained on
the rows in the other order. -/
theorem averages_over_rows_lineFit :
    (∃ (grads : Gradients ℝ) (rowLoss : Fin twoRows.nRows → ℝ),
      (lineFit : Graph ℝ).Answers (twoRows, [1, 2]) grads
        ((∑ r, rowLoss r) / (twoRows.nRows : ℝ)) ∧
      ∃ picked, (lineFit : Graph ℝ).Answers (twoRows.pick [1, 2] ([1, 0, 1] : List (Fin 2))) picked
        ((∑ r, (([1, 0, 1] : List (Fin 2)).count r : ℝ) * rowLoss r) / (3 : Nat))) ∧
    (lineModel.fit none () ⟨"steep", 1, 3, 2, false⟩ (twoRows.pick [1, 2] ([1, 0] : List (Fin 2))).1
        (twoRows.pick [1, 2] ([1, 0] : List (Fin 2))).2 (ChaCha.ofSeed 7)).state.graph.table =
      (lineModel.fit none () ⟨"steep", 1, 3, 2, false⟩ twoRows [1, 2]
        (ChaCha.ofSeed 7)).state.graph.table := by
  have hforward : ((lineFit : Graph ℝ).evaluate twoRows (some [1, 2])).1 = .ok () := by rfl
  obtain ⟨hclosed, hdata⟩ := (evaluate_eq_ok_iff reachable_lineFit.sound).1 hforward
  have hobjective : 3 ∈ (lineFit : Graph ℝ).table.activeIds := by decide
  obtain ⟨grads, hgrads, _⟩ :=
    exists_gradients_eq_ok reachable_lineFit.sound rfl hclosed hdata hobjective
  obtain ⟨haverages, htrainings⟩ := averages_over_rows (γ := Unit) (σ := ChaCha)
    (div_one (1 : ℝ)) (reachable_lineFit (α := ℝ))
  obtain ⟨rowGrads, rowLoss, _, hall, hpicked⟩ :=
    haverages twoRows [1, 2] grads (by decide) hgrads
  obtain ⟨picked, hpicked, _⟩ := hpicked ([1, 0, 1] : List (Fin 2)) (List.cons_ne_nil _ _)
  refine ⟨⟨grads, rowLoss, hall.1, picked, hpicked⟩, ?_⟩
  have hperm : ([1, 0] : List (Fin 2)).Perm (List.finRange 2) := by decide
  exact (htrainings lineModel reachable_lineFit.sound () (ChaCha.ofSeed 7)
    ⟨"steep", 1, 3, 2, false⟩ twoRows [1, 2] ([1, 0] : List (Fin 2)) rfl rfl hperm).2.2.1

end Graph

end FeatureGraph
