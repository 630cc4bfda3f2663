import FeatureGraph.Proofs.Frame

/-!
# Graphs that are alike

Two graphs are alike on some nodes if they have the same nodes in the same roles, the same
caches, and on these nodes the same parameters and flags.  The names in use do not count: no
pass looks at them.

* `NodeTable.AlikeOn` is the relation between tables.  `forward_eq`, `backward_eq` and
  `trainable_eq` say that nothing that reads these nodes only can tell alike tables apart.
* `Graph.Twins` are two graphs that are alike on all nodes that a pass reads.  The lemmas on
  it say that passes and descents answer the same on twins, and leave twins behind.
-/

namespace FeatureGraph

variable {ε α : Type}

/-- A forward pass depends on primitives and names, and on the parameters and drop flags of the
nodes of its tape. -/
theorem Tape.forward_congr [Arith α] {t u : NodeTable α} {p : Tape} (hops : u.ops = t.ops)
    (hlabels : u.labels = t.labels)
    (hparams : ∀ step ∈ p.steps, u.params[step.node]? = t.params[step.node]?)
    (hdropped : ∀ step ∈ p.steps, u.dropped[step.node]? = t.dropped[step.node]?)
    (x : Matrix α) (y : Option (List α)) : p.forward u x y = p.forward t x y := by
  have hinput : checkInput u x = checkInput t x := by
    funext step
    rw [checkInput, checkInput, hops, hlabels]
  have hstep : ∀ step ∈ p.steps, ∀ done,
      forwardStep u x y done step = forwardStep t x y done step := by
    intro step hmem done
    rw [forwardStep, forwardStep, stepColumn, stepColumn, hops]
    simp only [Outcome.fetch, hparams step hmem, hdropped step hmem]
  rw [forward, forward, checkData, checkData, hinput]
  exact congrArg _ (funext fun _ => Outcome.foldlM_congr hstep _)

namespace NodeTable

/-- Two tables with the same nodes, and on some of them the same parameters and flags. -/
structure AlikeOn (P : NodeId → Prop) (t u : NodeTable α) : Prop where
  ops : u.ops = t.ops
  labels : u.labels = t.labels
  parentIds : u.parentIds = t.parentIds
  parentSpans : u.parentSpans = t.parentSpans
  active : u.active = t.active
  params : ∀ id, P id → u.params[id]? = t.params[id]?
  constant : ∀ id, P id → u.constant[id]? = t.constant[id]?
  dropped : ∀ id, P id → u.dropped[id]? = t.dropped[id]?

/-- A position that is written to holds the new entry, if it is there. -/
theorem getElem?_setIfInBounds_self {β : Type} (xs : Array β) (i : Nat) (b : β) :
    (xs.setIfInBounds i b)[i]? = xs[i]?.map fun _ => b := by
  by_cases hi : i < xs.size
  · simp [hi]
  · simp [hi]

/-- A write to a position without the property changes no position with it. -/
theorem getElem?_setIfInBounds_of_not {β : Type} {P : NodeId → Prop} {xs : Array β} {i j : NodeId}
    (hi : ¬P i) (hj : P j) (b : β) : (xs.setIfInBounds i b)[j]? = xs[j]? :=
  Array.getElem?_setIfInBounds_ne fun heq : i = j => hi (heq ▸ hj)

namespace AlikeOn

variable {P : NodeId → Prop} {t u : NodeTable α}

theorem refl (P : NodeId → Prop) (t : NodeTable α) : t.AlikeOn P t :=
  ⟨rfl, rfl, rfl, rfl, rfl, fun _ _ => rfl, fun _ _ => rfl, fun _ _ => rfl⟩

theorem size (h : t.AlikeOn P u) : u.size = t.size := congrArg Array.size h.ops

theorem sameShape (h : t.AlikeOn P u) : SameShape t u :=
  ⟨h.size, h.labels, h.parentIds, h.parentSpans, h.active⟩

/-- Other parameters of one node on both sides. -/
theorem setParams (h : t.AlikeOn P u) (id : NodeId) (ps : List α) :
    AlikeOn P { t with params := t.params.setIfInBounds id ps }
      { u with params := u.params.setIfInBounds id ps } where
  ops := h.ops
  labels := h.labels
  parentIds := h.parentIds
  parentSpans := h.parentSpans
  active := h.active
  params i hi := by
    by_cases heq : id = i
    · rw [← heq, getElem?_setIfInBounds_self, getElem?_setIfInBounds_self, h.params id (heq ▸ hi)]
    · rw [Array.getElem?_setIfInBounds_ne heq, Array.getElem?_setIfInBounds_ne heq, h.params i hi]
  constant := h.constant
  dropped := h.dropped

/-- The nodes that may be trained are the same, since all of them are active. -/
theorem trainable_eq (h : t.AlikeOn P u) (hP : ∀ id, t.active[id]? = some true → P id) :
    (u.trainable : Outcome ε (List NodeId)) = t.trainable := by
  rw [trainable, trainable, h.size]
  refine Outcome.filterM_congr fun id _ => ?_
  rw [isTrainable, isTrainable, h.active]
  cases hactive : t.active[id]? with
  | none => simp [Outcome.fetch, hactive, Outcome.ofOption, Outcome.outOfRange]
  | some on =>
    rw [Outcome.fetch_eq_ok.2 hactive]
    cases on with
    | false => rfl
    | true =>
      have hid := hP id hactive
      simp only [Outcome.ok_bind, Outcome.fetch, h.constant id hid, h.params id hid]

variable [Arith α]

/-! ## Passes over a tape -/

section Tape

variable {p : Tape} {x : Matrix α} {y : Option (List α)}

/-- A forward pass reads the nodes of its tape only. -/
theorem forward_eq (h : t.AlikeOn P u) (hp : ∀ step ∈ p.steps, P step.node) :
    p.forward u x y = p.forward t x y :=
  Tape.forward_congr h.ops h.labels (fun step hstep => h.params step.node (hp step hstep))
    (fun step hstep => h.dropped step.node (hp step hstep)) x y

/-- A backward pass reads the nodes of its tape only. -/
theorem backward_eq (h : t.AlikeOn P u) (hp : ∀ step ∈ p.steps, P step.node)
    (values : Slots α) (objective : NodeId) :
    p.backward u values objective = p.backward t values objective := by
  have hseed : Tape.seed u p = Tape.seed t p := by
    funext nRows slot
    rw [Tape.seed, Tape.seed, h.size]
  have hstep : ∀ k, ∀ entry ∈ (p.steps.zipIdx.take k).reverse, ∀ adj,
      Tape.backwardStep u values adj entry = Tape.backwardStep t values adj entry := by
    intro k entry hmem adj
    have hstep := List.fst_mem_of_mem_zipIdx (List.mem_of_mem_take (List.mem_reverse.1 hmem))
    have hparams := h.params entry.1.node (hp _ hstep)
    have hdropped := h.dropped entry.1.node (hp _ hstep)
    rw [Tape.backwardStep, Tape.backwardStep]
    simp only [h.ops, Outcome.fetch, hparams, hdropped]
  rw [Tape.backward, Tape.backward, hseed]
  cases p.slotOf? objective with
  | none => rfl
  | some slot =>
    dsimp only
    split
    · rfl
    · exact congrArg _ (funext fun start => Outcome.foldlM_congr (hstep _) _)

end Tape

end AlikeOn

end NodeTable

namespace Graph

/-- Two graphs with the same nodes in the same roles and the same caches, and on some nodes
the same parameters and flags. -/
structure AlikeOn (P : NodeId → Prop) (g g' : Graph α) : Prop where
  table : g.table.AlikeOn P g'.table
  nextColumn : g'.nextColumn = g.nextColumn
  outputs : g'.outputs = g.outputs
  targets : g'.targets = g.targets
  objectives : g'.objectives = g.objectives
  tape : g'.tape = g.tape
  values : g'.values = g.values

namespace AlikeOn

variable {P : NodeId → Prop} {g g' : Graph α} {id : NodeId}

theorem refl (P : NodeId → Prop) (g : Graph α) : AlikeOn P g g :=
  ⟨.refl P g.table, rfl, rfl, rfl, rfl, rfl, rfl⟩

/-- Other parameters of a node on which the graphs need not be alike. -/
theorem replaceParams (h : AlikeOn P g g') (hid : ¬P id) (ps : List α) :
    AlikeOn P g (g'.replaceParams id ps) :=
  { h with
    table := { h.table with
      params := fun i hi =>
        (NodeTable.getElem?_setIfInBounds_of_not hid hi _).trans (h.table.params i hi) } }

theorem replaceConstant (h : AlikeOn P g g') (hid : ¬P id) (value : Bool) :
    AlikeOn P g (g'.replaceConstant id value) :=
  { h with
    table := { h.table with
      constant := fun i hi =>
        (NodeTable.getElem?_setIfInBounds_of_not hid hi _).trans (h.table.constant i hi) } }

theorem replaceDropped (h : AlikeOn P g g') (hid : ¬P id) (value : Bool) :
    AlikeOn P g (g'.replaceDropped id value) :=
  { h with
    table := { h.table with
      dropped := fun i hi =>
        (NodeTable.getElem?_setIfInBounds_of_not hid hi _).trans (h.table.dropped i hi) } }

end AlikeOn

/-- Two graphs that are alike on all nodes that a pass over them reads. -/
structure Twins (P : NodeId → Prop) (g g' : Graph α) : Prop extends AlikeOn P g g' where
  sound : g.Sound
  covers : ∀ id, g.isActive id = true → P id

namespace Twins

variable {P : NodeId → Prop} {g g' : Graph α}

/-! ## What is visible -/

theorem vals?_eq (h : Twins P g g') (id : NodeId) : g'.vals? id = g.vals? id := by
  rw [vals?, vals?, h.tape, h.values]

theorem loss?_eq [Arith α] (h : Twins P g g') : g'.loss? = g.loss? := by
  rw [loss?, loss?, h.tape, h.objectives, h.values]

theorem currentTape_eq (h : Twins P g g') : g'.currentTape = g.currentTape := by
  rw [currentTape, currentTape, h.tape, h.table.sameShape.compile]

/-- The tape computes active nodes only. -/
theorem covers_steps (h : Twins P g g') {tape : Tape} (htape : g.currentTape = .ok tape) :
    ∀ step ∈ tape.steps, P step.node := by
  intro step hstep
  rw [h.sound.currentTape_eq] at htape
  obtain ⟨_, rfl⟩ := (NodeTable.compile_eq_ok_iff h.sound.table).1 htape
  obtain ⟨id, hid, rfl⟩ := List.mem_map.1 hstep
  exact h.covers id ((NodeTable.mem_activeIds h.sound.table).1 hid)

/-! ## Passes -/

theorem afterForward (h : AlikeOn P g g') (outcome : Outcome GraphError (Tape × Slots α)) :
    AlikeOn P (g.afterForward outcome) (g'.afterForward outcome) := by
  cases outcome with
  | error fault => exact { h with tape := rfl }
  | ok p => exact { h with tape := rfl, values := rfl }

/-- What leaves the flags for activation alone leaves twins behind. -/
theorem keep (h : Twins P g g') {g₁ g₁' : Graph α} (halike : AlikeOn P g₁ g₁')
    (hsound : g₁.Sound) (hactive : g₁.table.active = g.table.active) : Twins P g₁ g₁' where
  toAlikeOn := halike
  sound := hsound
  covers id hid := h.covers id (by rwa [isActive, hactive] at hid)

variable [Arith α]

theorem runForward_eq (h : Twins P g g') (x : Matrix α) (y : Option (List α)) :
    g'.runForward x y = g.runForward x y := by
  rw [runForward, runForward, h.currentTape_eq]
  cases htape : g.currentTape with
  | error fault => rfl
  | ok tape => rw [Outcome.ok_bind, Outcome.ok_bind, h.table.forward_eq (h.covers_steps htape)]

/-- An evaluation cannot tell twins apart. -/
theorem evaluate (h : Twins P g g') (x : Matrix α) (y : Option (List α)) :
    (g'.evaluate x y).1 = (g.evaluate x y).1 ∧
      Twins P (g.evaluate x y).2 (g'.evaluate x y).2 := by
  have hrun := h.runForward_eq x y
  have halike : AlikeOn P (g.evaluate x y).2 (g'.evaluate x y).2 := by
    rw [Graph.evaluate, Graph.evaluate, hrun]
    exact afterForward h.toAlikeOn _
  refine ⟨?_, h.keep halike (h.sound.evaluate x y) (onlyTrained_evaluate g x y).active⟩
  rw [Graph.evaluate, Graph.evaluate, hrun]

/-- A gradient pass cannot tell twins apart. -/
theorem gradients (h : Twins P g g') (x : Matrix α) (y : List α) :
    (g'.gradients x y).1 = (g.gradients x y).1 ∧
      Twins P (g.gradients x y).2 (g'.gradients x y).2 := by
  have hboth : (g'.gradients x y).1 = (g.gradients x y).1 ∧
      AlikeOn P (g.gradients x y).2 (g'.gradients x y).2 := by
    rw [Graph.gradients, Graph.gradients, h.objectives]
    split
    · exact ⟨rfl, h.toAlikeOn⟩
    · rename_i objective rest _
      rw [h.runForward_eq x (some y)]
      refine ⟨?_, afterForward h.toAlikeOn _⟩
      cases hrun : g.runForward x (some y) with
      | error fault => rfl
      | ok p =>
        obtain ⟨tape, htape, hforward⟩ := Outcome.bind_eq_ok.1 hrun
        obtain ⟨values, _, hp⟩ := Outcome.bind_eq_ok.1 hforward
        obtain rfl := Outcome.ok_eq_iff.1 hp
        dsimp only
        rw [Outcome.ok_bind, Outcome.ok_bind, h.table.backward_eq (h.covers_steps htape)]
  exact ⟨hboth.1, h.keep hboth.2 (h.sound.gradients x y) (onlyTrained_gradients g x y).active⟩

/-! ## Descents -/

theorem updateNodes (h : AlikeOn P g g') (rate : α) (grads : Gradients α) (o : Optimizer α)
    {nodes : List NodeId} (hnodes : ∀ id ∈ nodes, P id) :
    Outcome.Rel (fun s s' => AlikeOn P s.1 s'.1 ∧ s'.2 = s.2)
      (nodes.foldlM (Optimizer.updateNode rate grads) (g, o))
      (nodes.foldlM (Optimizer.updateNode rate grads) (g', o)) :=
  Optimizer.rel_updates (fun id hid _ _ h => h.table.params id (hnodes id hid))
    (fun id _ _ _ ps h => { h with table := h.table.setParams id ps }) h rate grads o

/-- Two steps or runs that answer the same and leave twins behind. -/
structure Together {β : Type} (P : NodeId → Prop) (s s' : Optimizer.Stepped α β) : Prop where
  outcome : s'.outcome = s.outcome
  optimizer : s'.optimizer = s.optimizer
  twins : Twins P s.graph s'.graph

/-- A step of a descent cannot tell twins apart. -/
theorem step (h : Twins P g g') (o : Optimizer α) (x : Matrix α) (y : List α) (rate : α)
    {nodes : List NodeId} (hnodes : ∀ id ∈ nodes, P id)
    (hactive : (o.step g x y rate nodes).graph.table.active = g.table.active) :
    Together P (o.step g x y rate nodes) (o.step g' x y rate nodes) := by
  have halike : (o.step g' x y rate nodes).outcome = (o.step g x y rate nodes).outcome ∧
      (o.step g' x y rate nodes).optimizer = (o.step g x y rate nodes).optimizer ∧
      AlikeOn P (o.step g x y rate nodes).graph (o.step g' x y rate nodes).graph := by
    obtain ⟨hgrads, htwins⟩ := h.gradients x y
    unfold Optimizer.step
    generalize g.gradients x y = pass at hgrads htwins ⊢
    generalize g'.gradients x y = pass' at hgrads htwins ⊢
    obtain ⟨result, g₁⟩ := pass
    obtain ⟨result', g₁'⟩ := pass'
    obtain rfl : result' = result := hgrads
    cases result' with
    | error fault => exact ⟨rfl, rfl, htwins.toAlikeOn⟩
    | ok grads =>
      have hloss : g₁'.loss? = g₁.loss? := htwins.loss?_eq
      have hrun := updateNodes htwins.toAlikeOn rate grads { o with steps := o.steps + 1 } hnodes
      dsimp only at hrun ⊢
      generalize nodes.foldlM (Optimizer.updateNode rate grads)
        (g₁, { o with steps := o.steps + 1 }) = run at hrun ⊢
      generalize nodes.foldlM (Optimizer.updateNode rate grads)
        (g₁', { o with steps := o.steps + 1 }) = run' at hrun ⊢
      cases hrun with
      | error fault => exact ⟨rfl, rfl, htwins.toAlikeOn⟩
      | ok hboth => exact ⟨by rw [hloss], hboth.2, hboth.1⟩
  exact ⟨halike.1, halike.2.1, h.keep halike.2.2 (h.sound.step o x y rate nodes) hactive⟩

/-- Nor can any number of steps, on nodes that were not frozen at the start. -/
theorem steps? {g₀ : Graph α} (h : Twins P g g') (hg : OnlyTrained g₀ g) (o : Optimizer α)
    (x : Matrix α) (y : List α) (rate : α) {nodes : List NodeId} (hnodes : ∀ id ∈ nodes, P id)
    (hfrozen : ∀ id ∈ nodes, ¬g₀.table.Frozen id) (n : Nat) :
    Together P (Optimizer.steps? x y rate nodes n o g)
      (Optimizer.steps? x y rate nodes n o g') := by
  induction n generalizing o g g' with
  | zero => exact ⟨rfl, rfl, h⟩
  | succ n ih =>
    have hkeep := onlyTrained_step hg o x y rate hfrozen
    have hstep := h.step o x y rate hnodes (hkeep.active.trans hg.active.symm)
    unfold Optimizer.steps?
    generalize o.step g x y rate nodes = s at hkeep hstep ⊢
    generalize o.step g' x y rate nodes = s' at hstep ⊢
    obtain ⟨outcome, g₁, o₁⟩ := s
    obtain ⟨outcome', g₁', o₁'⟩ := s'
    obtain rfl : outcome' = outcome := hstep.outcome
    obtain rfl : o₁' = o₁ := hstep.optimizer
    cases outcome' with
    | error fault => exact ⟨rfl, rfl, hstep.twins⟩
    | ok loss =>
      have hrest := ih hstep.twins hkeep o₁'
      exact ⟨congrArg (Except.map (loss :: ·)) hrest.outcome, hrest.optimizer, hrest.twins⟩

/-- Nor can a descent. -/
theorem run (h : Twins P g g') (o : Optimizer α) (x : Matrix α) (y : List α) (n : Nat) (rate : α) :
    Together P (o.run g x y n rate).1 (o.run g' x y n rate).1 ∧
      (o.run g' x y n rate).2 = (o.run g x y n rate).2 := by
  have hcovers : ∀ id, g.table.active[id]? = some true → P id := by
    intro id hid
    exact h.covers id (by rw [isActive, hid]; rfl)
  have htrainable : (g'.table.trainable : Outcome GraphError (List NodeId)) = g.table.trainable :=
    h.table.trainable_eq hcovers
  unfold Optimizer.run
  rw [htrainable]
  cases hnodes : (g.table.trainable : Outcome GraphError (List NodeId)) with
  | error fault => exact ⟨⟨rfl, rfl, h⟩, rfl⟩
  | ok nodes =>
    have hon : ∀ id ∈ nodes, P id := fun id hid =>
      hcovers id (NodeTable.of_mem_trainable hnodes hid).1
    have hsteps := h.steps? (.refl g) o x y rate hon (NodeTable.not_frozen hnodes) n
    dsimp only
    generalize Optimizer.steps? x y rate nodes n o g = s at hsteps ⊢
    generalize Optimizer.steps? x y rate nodes n o g' = s' at hsteps ⊢
    obtain ⟨outcome, g₁, o₁⟩ := s
    obtain ⟨outcome', g₁', o₁'⟩ := s'
    obtain rfl : outcome' = outcome := hsteps.outcome
    obtain rfl : o₁' = o₁ := hsteps.optimizer
    cases outcome' with
    | error fault => exact ⟨⟨rfl, rfl, hsteps.twins⟩, rfl⟩
    | ok losses => exact ⟨⟨rfl, rfl, hsteps.twins⟩, rfl⟩

end Twins

end Graph

end FeatureGraph
