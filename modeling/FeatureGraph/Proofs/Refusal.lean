import FeatureGraph.Proofs.Passes
import FeatureGraph.Proofs.Training

/-!
# What a refused training leaves behind

Without a controller, a training that is refused has changed no parameter.  All that a refusal
depends on is settled by the first pass: the objective has a slot and every active input finds
its column, and neither an update nor another choice of the rows takes that back.

* `Graph.Primed` is what a successful gradient pass leaves, and `Primed.unrefused_gradients` says
  that no later pass over as many columns is refused.
* `Optimizer.Descends` is what carries such a promise through a descent, and `unrefused_fitFrom`
  through the batches.
* `of_fit_refused` says that a refused training is refused by its first gradient pass.
* `refused_fit_keeps_table_iff` is the statement about trainings of any model.  No step needs a
  sound graph.
-/

namespace FeatureGraph

variable {ε α : Type}

open Outcome (Unrefused Meets unrefused_ok unrefused_outOfRange unrefused_fetch unrefused_fetchList
  unrefused_ofOption unrefused_store meets_mapM meets_forM meets_foldlM meets_ok)

/-! ## Rules and slots refuse nothing -/

theorem Primitive.unrefused_forward [Arith α] (op : Primitive) (params : List α)
    (srcs : List (List α)) (n : Nat) :
    Unrefused (op.forward params srcs n : Outcome ε (List α)) := by
  cases op with
  | input _ | target => exact unrefused_ok _
  | linear | output | exp | log | modulus =>
    exact (unrefused_fetchList _ _).bind fun _ _ => unrefused_ok _
  | pow | div | mult | objective =>
    refine (unrefused_fetchList _ _).bind fun _ _ => ?_
    exact (unrefused_fetchList _ _).bind fun _ _ => unrefused_ok _

theorem Primitive.unrefused_backward [Arith α] (op : Primitive) (params : List α)
    (srcs : List (List α)) (out grad : List α) :
    Unrefused (op.backward params srcs out grad : Outcome ε (Pullback α)) := by
  cases op with
  | input _ | target => exact unrefused_ok _
  | linear | output =>
    unfold backward
    dsimp only
    split
    · exact unrefused_outOfRange
    · exact unrefused_ok _
  | exp | log | modulus => exact (unrefused_fetchList _ _).bind fun _ _ => unrefused_ok _
  | div =>
    refine (unrefused_fetchList _ _).bind fun _ _ => ?_
    refine (unrefused_fetchList _ _).bind fun _ _ => ?_
    split
    · exact unrefused_outOfRange
    · exact unrefused_ok _
  | pow | mult | objective =>
    refine (unrefused_fetchList _ _).bind fun _ _ => ?_
    exact (unrefused_fetchList _ _).bind fun _ _ => unrefused_ok _

namespace Slots

theorem unrefused_get (s : Slots α) (i : Nat) : Unrefused (s.get i : Outcome ε (List α)) := by
  unfold get
  split
  · exact unrefused_ok _
  · exact unrefused_fetch _ _

theorem unrefused_set (s : Slots α) (i : Nat) (column : List α) :
    Unrefused (s.set i column : Outcome ε (Slots α)) := by
  refine (unrefused_get s i).bind fun old _ => ?_
  split
  · exact unrefused_outOfRange
  · exact unrefused_ok _

end Slots

/-! ## Passes over a tape -/

namespace Tape

variable {t : NodeTable α} {x : Matrix α} {p : Tape}

theorem unrefused_checkData (h : p.Supplied t x.nCols) {y : List α} (hy : y.length = x.nRows) :
    Unrefused (checkData t p x (some y)) := by
  have htarget : checkTarget x (some y) = .ok () := if_neg (not_not.2 hy)
  rw [checkData, htarget, Outcome.ok_bind]
  refine meets_forM trivial fun step hstep => ?_
  have hop : Meets (· = .outOfRange) (fun op => t.ops[step.node]? = some op)
      (Outcome.fetch t.ops step.node : Outcome GraphError Primitive) :=
    (unrefused_fetch _ _).mono fun op hop _ => Outcome.fetch_eq_ok.1 hop
  refine hop.bind fun op hop => ?_
  split
  · rename_i column
    rw [if_neg (Nat.not_le.2 (h step hstep column hop))]
    exact unrefused_ok _
  · exact unrefused_ok _

variable [Arith α]

theorem unrefused_stepColumn (y : Option (List α)) (done : Slots α) (step : Instruction) :
    Unrefused (stepColumn t x y done step) := by
  refine (unrefused_fetch _ _).bind fun op _ => ?_
  split
  · exact unrefused_ofOption _
  · exact unrefused_ok _
  · exact unrefused_ok _
  · exact unrefused_ok _
  · refine (meets_mapM fun source _ => Slots.unrefused_get done source).bind fun srcs _ => ?_
    exact (unrefused_fetch _ _).bind fun params _ => Primitive.unrefused_forward _ _ _ _

/-- A step of a forward pass refuses nothing, and fills one more slot. -/
theorem meets_forwardStep (y : Option (List α)) (done : Slots α) (step : Instruction) :
    Meets (· = .outOfRange) (fun next => next.size = done.size + 1)
      (forwardStep t x y done step) := by
  refine (unrefused_stepColumn y done step).bind fun column _ => ?_
  refine (unrefused_fetch _ _).bind fun dropped _ => meets_ok ?_
  simp [Slots.size]

/-- Behind the check a forward pass refuses nothing, and it fills every slot. -/
theorem meets_forward (h : p.Supplied t x.nCols) {y : List α} (hy : y.length = x.nRows) :
    Meets (· = .outOfRange) (fun values => values.size = p.size) (p.forward t x (some y)) := by
  refine (unrefused_checkData h hy).bind fun _ _ => ?_
  refine meets_foldlM (P := fun i (values : Slots α) => values.size = i) rfl
    fun i _ done hdone => ?_
  exact (meets_forwardStep _ done _).mono fun next _ hnext => by rw [hnext, hdone]

theorem unrefused_accumulate (i : Nat) (slots : Slots α) (source : Nat × List α) :
    Unrefused (accumulate i slots source) := by
  unfold accumulate
  split
  · exact unrefused_outOfRange
  · exact (Slots.unrefused_get _ _).bind fun old _ => Slots.unrefused_set _ _ _

theorem unrefused_backwardStep (values : Slots α) (adj : Adjoint α) (entry : Instruction × Nat) :
    Unrefused (backwardStep t values adj entry) := by
  refine (unrefused_fetch _ _).bind fun dropped _ => ?_
  split
  · exact unrefused_ok _
  refine (unrefused_fetch _ _).bind fun op _ => ?_
  refine (unrefused_fetch _ _).bind fun params _ => ?_
  refine (Slots.unrefused_get _ _).bind fun grad _ => ?_
  split
  · exact unrefused_ok _
  split
  · exact unrefused_ok _
  refine (meets_mapM fun source _ => Slots.unrefused_get values source).bind fun srcs _ => ?_
  refine (Slots.unrefused_get _ _).bind fun out _ => ?_
  refine (Primitive.unrefused_backward _ _ _ _ _).bind fun pulled _ => ?_
  refine (meets_foldlM (P := fun _ _ => True) trivial fun _ _ slots _ =>
    unrefused_accumulate _ slots _).bind fun slots _ => ?_
  exact (unrefused_store _ _ _).bind fun gradients _ => unrefused_ok _

/-- From an objective with a slot, a backward pass over all columns refuses nothing. -/
theorem unrefused_backward {values : Slots α} {objective : NodeId} {slot : Nat}
    (hvalues : values.size = p.size) (hslot : p.slotOf? objective = some slot) :
    Unrefused (p.backward t values objective) := by
  unfold backward
  rw [hslot]
  dsimp only
  rw [if_neg (not_not.2 hvalues)]
  have hseed : Unrefused (seed t p values.nRows slot) :=
    (Slots.unrefused_set _ _ _).bind fun slots _ => unrefused_ok _
  refine hseed.bind fun start _ => ?_
  exact meets_foldlM (P := fun _ _ => True) trivial fun _ _ adj _ =>
    unrefused_backwardStep values adj _

end Tape

/-! ## Drop flags -/

namespace Graph

variable {g : Graph α} {tape : Tape} {x : Matrix α} {y : List α}

/-- No node is dropped once the mask has been cleared. -/
@[simp] theorem isDropped_clearDropped (g : Graph α) (id : NodeId) :
    g.clearDropped.isDropped id = false := by
  rw [isDropped, clearDropped, Array.getElem?_map]
  cases g.table.dropped[id]? <;> rfl

/-- Restoring the dropped nodes changes nothing exactly if there are none. -/
theorem table_clearDropped_eq_iff :
    g.clearDropped.table = g.table ↔ ∀ id, g.isDropped id = false := by
  have hcolumn : g.clearDropped.table = g.table ↔
      g.table.dropped.map (fun _ => false) = g.table.dropped := by
    constructor
    · exact congrArg NodeTable.dropped
    · intro h
      change { g.table with dropped := g.table.dropped.map fun _ => false } = g.table
      rw [h]
  rw [hcolumn]
  constructor
  · intro h id
    rw [isDropped, ← h, Array.getElem?_map]
    cases g.table.dropped[id]? <;> rfl
  · intro h
    refine Array.ext_getElem? fun id => ?_
    have hid := h id
    rw [isDropped] at hid
    rw [Array.getElem?_map]
    cases hflag : g.table.dropped[id]? with
    | none => rfl
    | some flag =>
      rw [hflag] at hid
      exact congrArg some hid.symm

/-! ## Gradient passes -/

/-- What a successful gradient pass leaves over so many columns: its tape, on which the objective
has a slot and every input finds its column. -/
structure Primed (g : Graph α) (tape : Tape) (nCols : Nat) : Prop where
  cached : g.tape = some tape
  objective : ∃ objective slot, g.objectives.head? = some objective ∧
    tape.slotOf? objective = some slot
  supplied : tape.Supplied g.table nCols

namespace Primed

/-- Other parameters and flags, as long as the primitives stay as they are. -/
theorem of_table {nCols : Nat} (h : g.Primed tape nCols) {t : NodeTable α}
    (hops : t.ops = g.table.ops) : ({ g with table := t } : Graph α).Primed tape nCols where
  cached := h.cached
  objective := h.objective
  supplied step hstep column hop := h.supplied step hstep column (hops ▸ hop)

variable [Arith α]

theorem meets_runForward (h : g.Primed tape x.nCols) (hy : y.length = x.nRows) :
    Meets (· = .outOfRange) (fun p => p.1 = tape ∧ p.2.size = tape.size)
      (g.runForward x (some y)) := by
  have hcurrent : g.currentTape = .ok tape := by
    rw [currentTape, h.cached]
  rw [runForward, hcurrent, Outcome.ok_bind]
  exact (Tape.meets_forward h.supplied hy).bind fun values hvalues => meets_ok ⟨rfl, hvalues⟩

/-- No later gradient pass over as many columns is refused, whatever its rows. -/
theorem unrefused_gradients (h : g.Primed tape x.nCols) (hy : y.length = x.nRows) :
    Unrefused (g.gradients x y).1 := by
  obtain ⟨objective, slot, hhead, hslot⟩ := h.objective
  rw [gradients_of_head? hhead]
  refine (h.meets_runForward hy).bind ?_
  rintro ⟨_, values⟩ ⟨rfl, hvalues⟩
  exact (Tape.unrefused_backward hvalues hslot).map fun _ _ => trivial

end Primed

variable [Arith α]

/-- A successful gradient pass leaves its tape, and it had an objective with a slot on it. -/
theorem primed_of_gradients_eq_ok {grads : Gradients α} (h : (g.gradients x y).1 = .ok grads) :
    ∃ tape, (g.gradients x y).2.Primed tape x.nCols := by
  obtain ⟨objective, tape, values, adjoint, hhead, hrun, hback, _, hleft⟩ :=
    exists_passes_of_gradients_eq_ok h
  obtain ⟨hcheck, _⟩ := Outcome.check_bind_eq_ok.1 (runForward_eq_ok.1 hrun).2
  rw [hleft]
  refine ⟨tape, rfl, ⟨objective, ?_⟩, Tape.supplied_of_checkData hcheck⟩
  unfold Tape.backward at hback
  split at hback
  · cases hback
  · rename_i slot hslot
    exact ⟨slot, hhead, hslot⟩

end Graph

/-! ## Descents -/

namespace Optimizer

variable [Arith α] {g : Graph α} {x : Matrix α} {y : List α} {rate : α} {nodes : List NodeId}

theorem unrefused_updateNode (grads : Gradients α) (s : Graph α × Optimizer α) (id : NodeId) :
    Unrefused (updateNode rate grads s id) := by
  unfold updateNode
  dsimp only
  split
  · exact unrefused_ok _
  refine (unrefused_fetch _ _).bind fun params _ => ?_
  split
  · rw [Outcome.pure_eq_ok, Outcome.ok_bind]
    exact (unrefused_store _ _ _).bind fun _ _ => unrefused_ok _
  · have hadam : ∀ (m : Moments α) (params grad : List α),
        Unrefused (adamUpdate rate s.2.steps m params grad : Outcome GraphError _) := by
      intro m params grad
      unfold adamUpdate
      dsimp only
      split
      · exact unrefused_outOfRange
      · exact unrefused_ok _
    refine (hadam _ _ _).bind fun _ _ => ?_
    rw [Outcome.pure_eq_ok, Outcome.ok_bind]
    exact (unrefused_store _ _ _).bind fun _ _ => unrefused_ok _

theorem unrefused_updates (grads : Gradients α) (s : Graph α × Optimizer α) :
    Unrefused (nodes.foldlM (updateNode rate grads) s) :=
  meets_foldlM (P := fun _ _ => True) trivial fun _ _ s _ => unrefused_updateNode grads s _

omit [Arith α] in
theorem keptByUpdates_primed (nodes : List NodeId) (nCols : Nat) :
    KeptByUpdates nodes fun g : Graph α => ∃ tape, g.Primed tape nCols :=
  fun _ _ _ _ _ _ _ ⟨tape, h⟩ => ⟨tape, h.of_table rfl⟩

/-- A step that succeeds leaves a primed graph. -/
theorem primed_of_step_eq_ok {o : Optimizer α} {loss : α}
    (h : (o.step g x y rate nodes).outcome = .ok loss) :
    ∃ tape, (o.step g x y rate nodes).graph.Primed tape x.nCols := by
  unfold step at h ⊢
  split at h
  · cases h
  · rename_i grads g' hgrads
    have hprimed := Graph.primed_of_gradients_eq_ok (congrArg Prod.fst hgrads)
    rw [hgrads] at hprimed
    dsimp only at h ⊢
    split at h
    · cases h
    · rename_i g'' o' hrun
      exact (keptByUpdates_primed nodes x.nCols).updates hprimed hrun

/-- A step is refused by its gradient pass, before the first update. -/
theorem of_step_refused {o : Optimizer α} {reason : GraphError}
    (h : (o.step g x y rate nodes).outcome = .error (.failure reason)) :
    (g.gradients x y).1 = .error (.failure reason) ∧
      (o.step g x y rate nodes).graph = (g.gradients x y).2 := by
  unfold step at h ⊢
  split at h
  · rename_i hgrads
    rw [hgrads]
    exact ⟨congrArg _ (Except.error.inj h), rfl⟩
  · dsimp only at h
    split at h
    · rename_i fault hrun
      obtain rfl : fault = .failure reason := Except.error.inj h
      exact absurd hrun ((unrefused_updates _ _).ne_failure reason)
    · cases h

/-- A property of graphs that successful passes over some rows and updates keep, and with which a
pass only fails for certain reasons. -/
structure Descends (x : Matrix α) (y : List α) (F : Fault GraphError → Prop)
    (P : Graph α → Prop) : Prop where
  outside : F .outOfRange
  pass : ∀ g : Graph α, P g → Meets F (fun _ => P (g.gradients x y).2) (g.gradients x y).1
  updates : ∀ nodes, KeptByUpdates nodes P

namespace Descends

variable {F : Fault GraphError → Prop} {P : Graph α → Prop}

theorem step (hP : Descends x y F P) (hg : P g) (o : Optimizer α) (rate : α)
    (nodes : List NodeId) :
    Meets F (fun _ => P (o.step g x y rate nodes).graph) (o.step g x y rate nodes).outcome := by
  have hpass := hP.pass g hg
  unfold Optimizer.step
  split
  · rename_i hfailed
    rw [hfailed] at hpass
    exact Outcome.meets_error (hpass.error _ rfl)
  · rename_i hpassed
    rw [hpassed] at hpass
    dsimp only
    split
    · rename_i hfailed
      exact Outcome.meets_error ((unrefused_updates _ _).error _ hfailed ▸ hP.outside)
    · rename_i hrun
      exact meets_ok ((hP.updates nodes).updates (hpass.ok _ rfl) hrun)

theorem steps? (hP : Descends x y F P) (hg : P g) (o : Optimizer α) (rate : α)
    (nodes : List NodeId) (n : Nat) :
    Meets F (fun _ => P (Optimizer.steps? x y rate nodes n o g).graph)
      (Optimizer.steps? x y rate nodes n o g).outcome := by
  induction n generalizing o g with
  | zero => exact meets_ok hg
  | succ n ih =>
    have hstep := hP.step hg o rate nodes
    unfold Optimizer.steps?
    split
    · rename_i hfailed
      rw [hfailed] at hstep
      exact Outcome.meets_error (hstep.error _ rfl)
    · rename_i hpassed
      rw [hpassed] at hstep
      exact (ih (hstep.ok _ rfl) _).map fun _ h => h

end Descends

/-- Over a primed graph no descent is refused. -/
theorem descends_primed (hy : y.length = x.nRows) :
    Descends x y (· = .outOfRange) fun g => ∃ tape, g.Primed tape x.nCols where
  outside := rfl
  pass _ := fun ⟨_, hprimed⟩ =>
    (hprimed.unrefused_gradients hy).mono fun _ h _ => Graph.primed_of_gradients_eq_ok h
  updates nodes := keptByUpdates_primed nodes x.nCols

/-- A descent that is refused is refused by its first step. -/
theorem of_steps?_refused (hy : y.length = x.nRows) {n : Nat} {o : Optimizer α}
    {reason : GraphError}
    (h : (steps? x y rate nodes n o g).outcome = .error (.failure reason)) :
    (g.gradients x y).1 = .error (.failure reason) ∧
      (steps? x y rate nodes n o g).graph = (g.gradients x y).2 := by
  cases n with
  | zero => cases h
  | succ n =>
    unfold steps? at h ⊢
    split at h
    · rename_i fault g' o' hfailed
      obtain rfl : fault = .failure reason := Except.error.inj h
      have hstep := of_step_refused (congrArg Stepped.outcome hfailed)
      rwa [hfailed] at hstep
    · rename_i loss g' o' hpassed
      have hprimed := primed_of_step_eq_ok (congrArg Stepped.outcome hpassed)
      rw [hpassed] at hprimed
      have hrest := (descends_primed hy).steps? hprimed o' rate nodes n
      exact absurd (Outcome.map_eq_error.1 h) (hrest.ne_failure reason)

theorem primed_of_steps?_eq_ok {n : Nat} {o : Optimizer α} {losses : List α} (hn : 0 < n)
    (h : (steps? x y rate nodes n o g).outcome = .ok losses) :
    ∃ tape, (steps? x y rate nodes n o g).graph.Primed tape x.nCols := by
  induction n generalizing o g losses with
  | zero => exact absurd hn (Nat.lt_irrefl 0)
  | succ n ih =>
    unfold steps? at h ⊢
    split at h
    · cases h
    · rename_i loss g' o' hpassed
      have hprimed := primed_of_step_eq_ok (congrArg Stepped.outcome hpassed)
      rw [hpassed] at hprimed
      obtain ⟨losses', hrest, _⟩ := Outcome.map_eq_ok.1 h
      rcases Nat.eq_zero_or_pos n with rfl | hn'
      · exact hprimed
      · exact ih hn' hrest

end Optimizer

/-! ## Batches -/

/-- No step of a descent of `n` steps can be refused: there is none, or the graph is primed. -/
def Graph.Settled [Arith α] (n nCols : Nat) (g : Graph α) : Prop :=
  n = 0 ∨ ∃ tape, g.Primed tape nCols

namespace Optimizer

variable [Arith α] {g : Graph α} {x : Matrix α} {y : List α} {n : Nat} {rate : α}
  {o : Optimizer α}

omit [Arith α] in
theorem unrefused_isTrainable (t : NodeTable α) (id : NodeId) :
    Unrefused (t.isTrainable id : Outcome ε Bool) := by
  refine (unrefused_fetch _ _).bind fun active _ => ?_
  split
  · exact unrefused_ok _
  refine (unrefused_fetch _ _).bind fun constant _ => ?_
  split
  · exact unrefused_ok _
  exact (unrefused_fetch _ _).bind fun params _ => unrefused_ok _

omit [Arith α] in
theorem unrefused_trainable (t : NodeTable α) :
    Unrefused (t.trainable : Outcome ε (List NodeId)) := by
  -- whatever the test answers, if it answers
  have htest : ∀ id ∈ List.range t.size, Meets (· = .outOfRange)
      (· = (t.isTrainable id : Outcome ε Bool).toOption.getD false) (t.isTrainable id) :=
    fun id _ => (unrefused_isTrainable t id).mono fun b hb _ => by rw [hb]; rfl
  exact (Outcome.meets_filterM htest).mono fun _ _ _ => trivial

/-- A descent ends as its steps do. -/
theorem meets_run {F : Fault GraphError → Prop} {P : Graph α → Prop} (hout : F .outOfRange)
    (hsteps : ∀ nodes, Meets F (fun _ => P (steps? x y rate nodes n o g).graph)
      (steps? x y rate nodes n o g).outcome) :
    Meets F (fun _ => P (o.run g x y n rate).1.graph) (o.run g x y n rate).1.outcome := by
  unfold run
  split
  · rename_i hfailed
    exact Outcome.meets_error ((unrefused_trainable g.table).error _ hfailed ▸ hout)
  · rename_i nodes _
    dsimp only
    split
    · rename_i hfailed
      exact Outcome.meets_error ((hsteps nodes).error _ hfailed)
    · rename_i hpassed
      exact meets_ok ((hsteps nodes).ok _ hpassed)

theorem unrefused_run (hg : g.Settled n x.nCols) (hy : y.length = x.nRows) :
    Unrefused (o.run g x y n rate).1.outcome := by
  refine meets_run (P := fun _ => True) rfl fun nodes => ?_
  rcases hg with rfl | hprimed
  · exact unrefused_ok _
  · exact ((descends_primed hy).steps? hprimed o rate nodes n).mono fun _ _ _ => trivial

theorem of_run_refused (hy : y.length = x.nRows) {reason : GraphError}
    (h : (o.run g x y n rate).1.outcome = .error (.failure reason)) :
    (g.gradients x y).1 = .error (.failure reason) ∧
      (o.run g x y n rate).1.graph = (g.gradients x y).2 := by
  unfold run at h ⊢
  split at h
  · rename_i hfailed
    exact absurd (hfailed.trans (congrArg _ (Except.error.inj h)))
      ((unrefused_trainable g.table).ne_failure reason)
  · dsimp only at h ⊢
    split at h
    · rename_i fault hfailed
      obtain rfl : fault = .failure reason := Except.error.inj h
      exact of_steps?_refused hy hfailed
    · cases h

theorem settled_of_run_eq_ok {losses : Losses α}
    (h : (o.run g x y n rate).1.outcome = .ok losses) :
    (o.run g x y n rate).1.graph.Settled n x.nCols := by
  have hsteps : ∀ nodes, Meets (fun _ => True)
      (fun _ => (steps? x y rate nodes n o g).graph.Settled n x.nCols)
      (steps? x y rate nodes n o g).outcome := fun nodes => by
    refine ⟨fun _ _ => trivial, fun _ hpassed => ?_⟩
    rcases Nat.eq_zero_or_pos n with hn | hn
    · exact .inl hn
    · exact .inr (primed_of_steps?_eq_ok hn hpassed)
  exact (meets_run trivial hsteps).ok losses h

end Optimizer

/-- What a descent leaves of a training: one that fails clears the mask. -/
def FitState.afterDescent {β γ σ : Type} (s : FitState α γ σ) (d : Optimizer.Stepped α β) :
    FitState α γ σ :=
  { s with
    graph := match d.outcome with
      | .error _ => d.graph.clearDropped
      | .ok _ => d.graph
    optimizer := d.optimizer }

namespace Model

variable [Arith α] {γ σ : Type} [RandomSource σ] {plan : FitPlan α} {x : Matrix α} {y : List α}
  {s : FitState α γ σ} {batch : Nat}

omit [Arith α] in
/-- The rows of a batch have the columns of the matrix, and one target each. -/
theorem shape_batchRows (plan : FitPlan α) (hy : y.length = x.nRows) (source : σ) :
    (batchRows plan x y source).1.1.nCols = x.nCols ∧
      (batchRows plan x y source).1.2.length = (batchRows plan x y source).1.1.nRows := by
  unfold batchRows
  split
  · dsimp only
    refine ⟨rfl, ?_⟩
    simp only [Matrix.selectRows, Matrix.ofFn, Matrix.rowsAmong, List.size_toArray,
      List.length_filterMap_eq_countP]
    refine List.countP_congr fun r _ => ?_
    by_cases hr : r < x.nRows
    · simp [hr, hy]
    · simp [hr, hy]
  · exact ⟨rfl, hy⟩

/-- The descent of a batch without a controller. -/
def descent (plan : FitPlan α) (x : Matrix α) (y : List α) (s : FitState α γ σ) :
    Optimizer.Stepped α (Losses α) :=
  let rows := (batchRows plan x y s.source).1
  (s.optimizer.run s.graph rows.1 rows.2 plan.stepsPerBatch plan.rate).1

/-- The first gradient pass of the descent. -/
def firstPass (plan : FitPlan α) (x : Matrix α) (y : List α) (s : FitState α γ σ) :
    Outcome GraphError (Gradients α) × Graph α :=
  let rows := (batchRows plan x y s.source).1
  s.graph.gradients rows.1 rows.2

/-- A batch without a controller is its descent. -/
theorem fitBatch_eq_descent (plan : FitPlan α) (x : Matrix α) (y : List α) (batch : Nat)
    (s : FitState α γ σ) :
    (fitBatch none plan x y batch s).outcome =
        Outcome.mapFailure ModelError.graph (descent plan x y s).outcome ∧
      (fitBatch none plan x y batch s).state =
        { s with source := (batchRows plan x y s.source).2 }.afterDescent (descent plan x y s) := by
  -- without a controller the mask is put back as it was
  have hmask : s.optimizer.run (s.graph.withMask s.graph.mask) (batchRows plan x y s.source).1.1
      (batchRows plan x y s.source).1.2 plan.stepsPerBatch plan.rate =
        s.optimizer.run s.graph (batchRows plan x y s.source).1.1
          (batchRows plan x y s.source).1.2 plan.stepsPerBatch plan.rate := rfl
  simp only [fitBatch, sampleMask, hmask, descent, FitState.afterDescent]
  split <;> rename_i hrun <;> rw [hrun] <;> exact ⟨rfl, rfl⟩

/-- A batch without a controller clears the mask if its descent fails. -/
theorem fitBatch_none (plan : FitPlan α) (x : Matrix α) (y : List α) (batch : Nat)
    (s : FitState α γ σ) :
    (∃ fault, (descent plan x y s).outcome = .error fault ∧
      (fitBatch none plan x y batch s).outcome =
        Outcome.mapFailure ModelError.graph (.error fault : Outcome GraphError (Losses α)) ∧
      (fitBatch none plan x y batch s).state.graph = (descent plan x y s).graph.clearDropped) ∨
    ∃ losses, (descent plan x y s).outcome = .ok losses ∧
      (fitBatch none plan x y batch s).outcome = .ok losses ∧
      (fitBatch none plan x y batch s).state.graph = (descent plan x y s).graph := by
  obtain ⟨houtcome, hstate⟩ := fitBatch_eq_descent plan x y batch s
  rw [houtcome, hstate, FitState.afterDescent]
  cases (descent plan x y s).outcome with
  | error fault => exact .inl ⟨fault, rfl, rfl, rfl⟩
  | ok losses => exact .inr ⟨losses, rfl, rfl, rfl⟩

/-- Over a settled graph no batch is refused. -/
theorem unrefused_fitBatch (hs : s.graph.Settled plan.stepsPerBatch x.nCols)
    (hy : y.length = x.nRows) : Unrefused (fitBatch none plan x y batch s).outcome := by
  obtain ⟨hcols, hrows⟩ := shape_batchRows plan hy s.source
  have hrun : Unrefused (descent plan x y s).outcome :=
    Optimizer.unrefused_run (hcols.symm ▸ hs) hrows
  rcases fitBatch_none plan x y batch s with
    ⟨fault, hfailed, houtcome, _⟩ | ⟨losses, _, houtcome, _⟩
  · rw [houtcome, hrun.error fault hfailed]
    exact unrefused_outOfRange
  · rw [houtcome]
    exact unrefused_ok _

/-- A batch that succeeds leaves a settled graph. -/
theorem settled_fitBatch (hy : y.length = x.nRows) {losses : Losses α}
    (h : (fitBatch none plan x y batch s).outcome = .ok losses) :
    (fitBatch none plan x y batch s).state.graph.Settled plan.stepsPerBatch x.nCols := by
  obtain ⟨hcols, _⟩ := shape_batchRows plan hy s.source
  rcases fitBatch_none plan x y batch s with
    ⟨⟨reason⟩ | _, hfailed, houtcome, _⟩ | ⟨losses, hpassed, _, hgraph⟩
  · cases h.symm.trans houtcome
  · cases h.symm.trans houtcome
  · rw [hgraph, ← hcols]
    exact Optimizer.settled_of_run_eq_ok hpassed

/-- Over a settled graph no batches are refused. -/
theorem unrefused_fitFrom (hy : y.length = x.nRows) (n : Nat)
    (hs : s.graph.Settled plan.stepsPerBatch x.nCols) :
    Unrefused (fitFrom none plan x y n batch s).outcome := by
  induction n generalizing batch s with
  | zero => exact unrefused_ok _
  | succ n ih =>
    have hfirst : Unrefused (fitBatch none plan x y batch s).outcome := unrefused_fitBatch hs hy
    unfold fitFrom
    dsimp only
    split
    · rename_i hfailed
      exact Outcome.meets_error (hfirst.error _ hfailed)
    · rename_i hpassed
      exact (ih (settled_fitBatch hy hpassed)).map fun _ _ => trivial

/-- Batches that are refused are refused by the first one, whose first gradient pass is. -/
theorem of_fitFrom_refused (hy : y.length = x.nRows) {n : Nat} {reason : ModelError α}
    (h : (fitFrom none plan x y n batch s).outcome = .error (.failure reason)) :
    ∃ e, reason = .graph e ∧ (firstPass plan x y s).1 = .error (.failure e) ∧
      (fitFrom none plan x y n batch s).state.graph = (firstPass plan x y s).2.clearDropped := by
  cases n with
  | zero => cases h
  | succ n =>
    unfold fitFrom at h ⊢
    dsimp only at h ⊢
    split at h
    · rename_i fault hfailed
      obtain rfl : fault = .failure reason := Except.error.inj h
      rcases fitBatch_none plan x y batch s with
        ⟨fault, hrun, houtcome, hgraph⟩ | ⟨losses, _, houtcome, _⟩
      · rw [hfailed] at houtcome
        cases fault with
        | outOfRange => cases houtcome
        | failure e =>
          obtain ⟨_, hrows⟩ := shape_batchRows plan hy s.source
          obtain ⟨hpass, hleft⟩ := Optimizer.of_run_refused hrows hrun
          exact ⟨e, Fault.failure.inj (Except.error.inj houtcome), hpass,
            hgraph.trans (congrArg Graph.clearDropped hleft)⟩
      · cases hfailed.symm.trans houtcome
    · rename_i hpassed
      have hsettled := settled_fitBatch hy hpassed
      have hrest : Unrefused (fitFrom none plan x y n (batch + 1)
          (fitBatch none plan x y batch s).state).outcome := unrefused_fitFrom hy n hsettled
      exact absurd (Outcome.map_eq_error.1 h) (hrest.ne_failure reason)

/-- Behind the checks, a training is its batches, and the mask is released once all of them have
run. -/
theorem fit_of_checked (model : Model α) (controller : Option (Controller γ σ)) (state : γ)
    (source : σ) {method : Method} (hmethod : Method.ofWord? plan.method = some method)
    (hrows : x.nRows = y.length) {result : Fitted α γ σ (List (Losses α))}
    (hresult : fitFrom controller plan x y plan.batches 0
      ⟨model.graph, .ofMethod method, state, source⟩ = result) :
    (model.fit controller state plan x y source).outcome = result.outcome ∧
      (model.fit controller state plan x y source).state.graph =
        match result.outcome with
        | .error _ => result.state.graph
        | .ok _ => releaseMask controller result.state.graph := by
  unfold fit
  simp only [hmethod, if_neg (not_not.2 hrows), hresult]
  cases houtcome : result.outcome with
  | error fault => exact ⟨houtcome, rfl⟩
  | ok losses => exact ⟨rfl, rfl⟩

/-- A training gets to its batches, or it is refused since the plan does not fit. -/
theorem fit_cases (model : Model α) (controller : Option (Controller γ σ)) (state : γ)
    (plan : FitPlan α) (x : Matrix α) (y : List α) (source : σ) :
    (∃ method, Method.ofWord? plan.method = some method ∧ x.nRows = y.length) ∨
    ∃ text, (model.fit controller state plan x y source).outcome =
        .error (.failure (.configuration text)) ∧
      (model.fit controller state plan x y source).state.graph = model.graph := by
  cases hmethod : Method.ofWord? plan.method with
  | none =>
    right
    unfold fit
    rw [hmethod]
    exact ⟨_, rfl, rfl⟩
  | some method =>
    by_cases hrows : x.nRows = y.length
    · exact .inl ⟨method, rfl, hrows⟩
    · right
      unfold fit
      rw [hmethod]
      dsimp only
      rw [if_pos hrows]
      exact ⟨_, rfl, rfl⟩

/-- A training without a controller is refused since the plan does not fit, or by its first gradient
pass. -/
theorem of_fit_refused {model : Model α} {state : γ} {source : σ} {reason : ModelError α}
    (h : (model.fit (none : Option (Controller γ σ)) state plan x y source).outcome =
      .error (.failure reason)) :
    (∃ text, reason = .configuration text) ∧
        (model.fit (none : Option (Controller γ σ)) state plan x y source).state.graph =
          model.graph ∨
      ∃ e optimizer, reason = .graph e ∧
        (firstPass plan x y (⟨model.graph, optimizer, state, source⟩ : FitState α γ σ)).1 =
          .error (.failure e) ∧
        (model.fit (none : Option (Controller γ σ)) state plan x y source).state.graph =
          (firstPass plan x y
            (⟨model.graph, optimizer, state, source⟩ : FitState α γ σ)).2.clearDropped := by
  rcases fit_cases model none state plan x y source with
    ⟨method, hmethod, hrows⟩ | ⟨text, hrefused, hgraph⟩
  · obtain ⟨houtcome, hgraph⟩ := fit_of_checked model none state source hmethod hrows rfl
    rw [houtcome] at h
    rw [h] at hgraph
    obtain ⟨e, hreason, hpass, hleft⟩ := of_fitFrom_refused hrows.symm h
    exact .inr ⟨e, .ofMethod method, hreason, hpass, hgraph.trans hleft⟩
  · rw [hrefused] at h
    exact .inl ⟨⟨text, (Fault.failure.inj (Except.error.inj h)).symm⟩, hgraph⟩

/-- What a refused training without a controller leaves of any model, well formed or not.  If the
plan does not fit, the graph is the old one.  If a pass is refused, all of the table is the old one
except that the dropped nodes are restored.  So the table stays as it was exactly in the first
case and where no node was dropped. -/
theorem refused_fit_keeps_table_iff (model : Model α) (state : γ) (plan : FitPlan α)
    (x : Matrix α) (y : List α) (source : σ) {reason : ModelError α}
    (h : (model.fit (none : Option (Controller γ σ)) state plan x y source).outcome =
      .error (.failure reason)) :
    ((∃ text, reason = .configuration text) ∧
        (model.fit (none : Option (Controller γ σ)) state plan x y source).state.graph =
          model.graph ∨
      (∃ e, reason = .graph e) ∧
        (model.fit (none : Option (Controller γ σ)) state plan x y source).state.graph.table =
          model.graph.clearDropped.table) ∧
    ((model.fit (none : Option (Controller γ σ)) state plan x y source).state.graph.table =
        model.graph.table ↔
      (∃ text, reason = .configuration text) ∨ ∀ id, model.graph.isDropped id = false) := by
  rcases of_fit_refused h with ⟨⟨text, rfl⟩, hgraph⟩ | ⟨e, optimizer, rfl, _, hgraph⟩
  · exact ⟨.inl ⟨⟨text, rfl⟩, hgraph⟩, fun _ => .inl ⟨text, rfl⟩, fun _ => congrArg _ hgraph⟩
  · have htable :
        (model.fit (none : Option (Controller γ σ)) state plan x y source).state.graph.table =
          model.graph.clearDropped.table := by
      rw [hgraph, Graph.clearDropped, firstPass, Graph.gradients_snd_table]
      rfl
    refine ⟨.inr ⟨⟨e, rfl⟩, htable⟩, ?_⟩
    rw [htable, Graph.table_clearDropped_eq_iff]
    simp

/-- A training of the column over a matrix without columns. -/
def columnless (dropped : Bool) : Fitted Float Unit ChaCha (List (Losses Float)) :=
  (columnModel dropped).fit none () ⟨"steep", 0.5, 1, 1, false⟩ (.ofFn 1 0 fun _ _ => 0) [1]
    (ChaCha.ofSeed 0)

theorem columnless_refused (dropped : Bool) :
    ∃ reason, (columnless dropped).outcome = .error (.failure reason) :=
  Outcome.isFailure_iff.1 (by cases dropped <;> decide +kernel)

/-- If no node was dropped, the refused training leaves the table as it was. -/
theorem refused_fit_keeps_table_columnless :
    (∃ reason, (columnless false).outcome = .error (.failure reason)) ∧
      (columnless false).state.graph.table = (columnModel false).graph.table := by
  obtain ⟨reason, hrefused⟩ := columnless_refused false
  unfold columnless at hrefused ⊢
  have hkeeps := (refused_fit_keeps_table_iff _ _ _ _ _ _ hrefused).2
  refine ⟨⟨reason, hrefused⟩, hkeeps.2 (.inr fun id => ?_)⟩
  have hflags : (columnModel false).graph.table.dropped = #[false, false, false, false, false] := by
    decide +kernel
  rw [Graph.isDropped, hflags]
  rcases id with _ | _ | _ | _ | _ | id <;> rfl

/-- If the scaling of the column was dropped before the selection, the refused training restores
it. -/
theorem refused_fit_restores_column :
    ∃ g g' m model, (Forest.oneColumn : Forest Float).lower.outcome = .ok (g, m) ∧
      g.setDropped 1 true = .ok g' ∧
      (select Forest.oneColumn g' m fun _ => true).outcome = .ok model ∧
      (∃ reason, (model.fit (none : Option (Controller Unit ChaCha)) ()
        ⟨"steep", 0.5, 1, 1, false⟩ (.ofFn 1 0 fun _ _ => 0) [1] (ChaCha.ofSeed 0)).outcome =
          .error (.failure reason)) ∧
      (model.fit (none : Option (Controller Unit ChaCha)) () ⟨"steep", 0.5, 1, 1, false⟩
        (.ofFn 1 0 fun _ _ => 0) [1] (ChaCha.ofSeed 0)).state.graph.table.dropped ≠
          model.graph.table.dropped := by
  have hrefused := columnless_refused true
  have hflags : (columnless true).state.graph.table.dropped ≠
      (columnModel true).graph.table.dropped := by decide +kernel
  unfold columnless at hrefused hflags
  exact ⟨_, _, _, columnModel true, lower_oneColumn, setDropped_loweredColumn true,
    select_oneColumn true, hrefused, hflags⟩

end Model

end FeatureGraph
