import FeatureGraph.Proofs.Refusal

/-!
# All steps of a descent or none

A descent of `n` steps over a reachable graph takes all of them, or it is refused before the first
update.  The running means that an optimizer has kept for a node stay as many as the parameters of
the node, so that no update reads outside of them.

* `HasParams` counts the parameters of a node, and `HasParams.of_change` says that nothing that
  happens to a graph changes the count.  `fits_gradients` and `Optimizer.Fits` measure gradients and
  running means against it.
* `Updatable.exists_updates` says that the updates of a step succeed, and `Ready.step` that a step
  whose gradient pass succeeds is followed by another one.  `Ready.exists_steps?` is the run.
* `Accompanies` is an optimizer that has only been used on one graph, and `run_all_or_nothing` is
  the statement about its runs.
-/

namespace FeatureGraph

variable {ε α : Type}

/-- A node has so many parameters. -/
def NodeTable.HasParams (t : NodeTable α) (id : NodeId) (n : Nat) : Prop :=
  ∃ ps, t.params[id]? = some ps ∧ ps.length = n

/-- A change of a graph leaves every node as many parameters as it has. -/
theorem NodeTable.HasParams.of_change [Arith α] {g g' : Graph α} {id : NodeId} {n : Nat}
    (h : g.table.HasParams id n) (hg : g.WellFormed) (hchange : g.Change g') :
    g'.table.HasParams id n := by
  obtain ⟨old, hold, hn⟩ := h
  cases hchange with
  | caches htable => exact ⟨old, htable ▸ hold, hn⟩
  | node _ _ htable =>
    have hid : id < g.table.params.size := (Array.getElem?_eq_some_iff.1 hold).1
    refine ⟨old, ?_, hn⟩
    rw [htable, addNode, Array.getElem?_push_lt hid, ← Array.getElem?_eq_getElem hid, hold]
  | @params i ps hcounts =>
    by_cases hi : i = id
    · subst hi
      have hlength := hg.table.length_of_counts hcounts old hold
      have hinside : i < g.table.params.size := (Array.getElem?_eq_some_iff.1 hold).1
      exact ⟨ps, by simp [Graph.replaceParams, hinside], hlength.trans hn⟩
    · exact ⟨old, (Array.getElem?_setIfInBounds_ne hi).trans hold, hn⟩
  | flags => exact ⟨old, hold, hn⟩
  | active => exact ⟨old, hold, hn⟩

/-! ## Gradients -/

/-- A gradient that is not empty has an entry for each parameter of its node. -/
def Gradients.Fits (grads : Gradients α) (t : NodeTable α) : Prop :=
  ∀ id, grads.get id ≠ [] → t.HasParams id (grads.get id).length

section Gradients

variable [Arith α]

/-- The local rule answers an entry for each parameter. -/
theorem Primitive.length_pulled {op : Primitive} {params : List α} {srcs : List (List α)}
    {out grad : List α} {pulled : Pullback α}
    (h : (op.backward params srcs out grad : Outcome ε (Pullback α)) = .ok pulled) :
    pulled.params.length = params.length := by
  cases op with
  | input _ | target =>
    rw [Outcome.ok_eq_iff.1 h]
    exact Column.length_zeros _
  | linear | output =>
    unfold backward at h
    dsimp only at h
    split at h
    · cases h
    · rw [Outcome.ok_eq_iff.1 h]
      simp
      omega
  | exp | log | modulus =>
    obtain ⟨_, _, h⟩ := Outcome.bind_eq_ok.1 h
    rw [Outcome.ok_eq_iff.1 h]
    exact Column.length_zeros _
  | pow =>
    obtain ⟨_, hparam, h⟩ := Outcome.bind_eq_ok.1 h
    obtain ⟨_, _, h⟩ := Outcome.bind_eq_ok.1 h
    have hpos : 0 < params.length :=
      (List.getElem?_eq_some_iff.1 (Outcome.fetchList_eq_ok.1 hparam)).1
    rw [Outcome.ok_eq_iff.1 h]
    simp
    omega
  | div =>
    obtain ⟨_, _, h⟩ := Outcome.bind_eq_ok.1 h
    obtain ⟨_, _, h⟩ := Outcome.bind_eq_ok.1 h
    split at h
    · cases h
    · rw [Outcome.ok_eq_iff.1 h]
      exact Column.length_zeros _
  | mult | objective =>
    obtain ⟨_, _, h⟩ := Outcome.bind_eq_ok.1 h
    obtain ⟨_, _, h⟩ := Outcome.bind_eq_ok.1 h
    rw [Outcome.ok_eq_iff.1 h]
    exact Column.length_zeros _

namespace Tape

variable {t : NodeTable α} {values : Slots α}

/-- A step of a backward pass adds the gradient of one node at most. -/
theorem fits_backwardStep {adj adj' : Adjoint α} {entry : Instruction × Nat}
    (hadj : adj.params.Fits t) (h : backwardStep t values adj entry = .ok adj') :
    adj'.params.Fits t := by
  obtain ⟨dropped, _, h⟩ := Outcome.bind_eq_ok.1 h
  split at h
  · exact Outcome.ok_eq_iff.1 h ▸ hadj
  obtain ⟨op, _, h⟩ := Outcome.bind_eq_ok.1 h
  obtain ⟨params, hparams, h⟩ := Outcome.bind_eq_ok.1 h
  obtain ⟨grad, _, h⟩ := Outcome.bind_eq_ok.1 h
  split at h
  · exact Outcome.ok_eq_iff.1 h ▸ hadj
  split at h
  · exact Outcome.ok_eq_iff.1 h ▸ hadj
  obtain ⟨srcs, _, h⟩ := Outcome.bind_eq_ok.1 h
  obtain ⟨out, _, h⟩ := Outcome.bind_eq_ok.1 h
  obtain ⟨pulled, hpulled, h⟩ := Outcome.bind_eq_ok.1 h
  obtain ⟨slots, _, h⟩ := Outcome.bind_eq_ok.1 h
  obtain ⟨gradients, hstore, h⟩ := Outcome.bind_eq_ok.1 h
  rw [Outcome.ok_eq_iff.1 h]
  obtain ⟨hinside, rfl⟩ := Outcome.store_eq_ok.1 hstore
  intro id hne
  by_cases hid : entry.1.node = id
  · subst hid
    rw [Gradients.get_set_self hinside]
    exact ⟨params, Outcome.fetch_eq_ok.1 hparams, (Primitive.length_pulled hpulled).symm⟩
  · rw [Gradients.get_set_ne hid] at hne ⊢
    exact hadj id hne

theorem fits_backward {p : Tape} {objective : NodeId} {adj : Adjoint α}
    (h : p.backward t values objective = .ok adj) : adj.params.Fits t := by
  unfold backward at h
  split at h
  · cases h
  split at h
  · cases h
  obtain ⟨start, hseed, h⟩ := Outcome.bind_eq_ok.1 h
  obtain ⟨slots, _, hseed⟩ := Outcome.bind_eq_ok.1 hseed
  have hstart : start.params.Fits t := by
    rw [Outcome.ok_eq_iff.1 hseed]
    exact fun id hne => absurd (Gradients.get_replicate _ id) hne
  exact Outcome.foldlM_keeps (P := fun adj : Adjoint α => adj.params.Fits t) h hstart
    fun _ _ _ _ hadj hstep => fits_backwardStep hadj hstep

end Tape

namespace Graph

variable {g : Graph α} {x : Matrix α} {y : List α} {grads : Gradients α}

/-- What a gradient pass answers fits the parameters that it has read. -/
theorem fits_gradients (h : (g.gradients x y).1 = .ok grads) : grads.Fits g.table := by
  obtain ⟨_, _, _, _, _, _, hback, rfl, _⟩ := exists_passes_of_gradients_eq_ok h
  exact Tape.fits_backward hback

/-- A gradient pass that succeeds has had a target for each row. -/
theorem length_of_gradients_eq_ok (h : (g.gradients x y).1 = .ok grads) :
    y.length = x.nRows := by
  obtain ⟨_, _, _, _, _, hrun, _⟩ := exists_passes_of_gradients_eq_ok h
  obtain ⟨_, hforward⟩ := runForward_eq_ok.1 hrun
  exact Tape.length_of_checkData (Outcome.check_bind_eq_ok.1 hforward).1 y rfl

end Graph

end Gradients

namespace Optimizer

/-! ## Running means -/

/-- The running means of a node are as many as its parameters. -/
def Fits (o : Optimizer α) (t : NodeTable α) : Prop :=
  ∀ id m, o.moments? id = some m → t.HasParams id m.first.length ∧ t.HasParams id m.second.length

theorem fits_ofMethod (method : Method) (t : NodeTable α) : (ofMethod method).Fits t :=
  fun _ _ h => nomatch h

/-- The running means of one node are replaced, and those of no other. -/
theorem moments?_setMoments (o : Optimizer α) (id : NodeId) (m : Moments α) (i : NodeId) :
    (o.setMoments id m).moments? i = if i = id then some m else o.moments? i := by
  unfold setMoments moments?
  dsimp only
  rw [List.lookup_cons]
  by_cases hi : i = id
  · simp [hi]
  · have hother : (i == id) = false := by simpa using hi
    rw [hother, if_neg hi]
    dsimp only
    induction o.moments with
    | nil => rfl
    | cons entry rest ih =>
      rw [List.filter_cons]
      by_cases hentry : entry.1 = id
      · have hkey : (i == entry.1) = false := by simpa [hentry] using hi
        rw [if_neg (by simpa using hentry), List.lookup_cons, hkey]
        exact ih
      · rw [if_pos (by simpa using hentry), List.lookup_cons, List.lookup_cons, ih]

theorem Fits.setMoments {o : Optimizer α} {t : NodeTable α} (h : o.Fits t) {id : NodeId}
    {m : Moments α} (hfirst : t.HasParams id m.first.length)
    (hsecond : t.HasParams id m.second.length) : (o.setMoments id m).Fits t := by
  intro i m' hm'
  rw [moments?_setMoments] at hm'
  split at hm'
  · rename_i hi
    rw [hi, ← Option.some.inj hm']
    exact ⟨hfirst, hsecond⟩
  · exact h i m' hm'

variable [Arith α]

/-- No change of a graph makes the running means too many or too few. -/
theorem Fits.of_change {g g' : Graph α} {o : Optimizer α} (h : o.Fits g.table)
    (hg : g.WellFormed) (hchange : g.Change g') : o.Fits g'.table :=
  fun id m hm => (h id m hm).imp (·.of_change hg hchange) (·.of_change hg hchange)

@[simp] theorem length_advance_first (m : Moments α) (grad : List α) :
    (Moments.advance m grad).first.length = m.first.length :=
  Column.length_update _ _ _

@[simp] theorem length_advance_second (m : Moments α) (grad : List α) :
    (Moments.advance m grad).second.length = m.second.length :=
  Column.length_update _ _ _

/-! ## Updates -/

variable {x : Matrix α} {y : List α} {rate : α} {nodes : List NodeId} {grads : Gradients α}
  {s : Graph α × Optimizer α}

/-- A graph and an optimizer that gradients can be handed to: the gradients and the running means
fit the parameters. -/
structure Updatable (grads : Gradients α) (s : Graph α × Optimizer α) : Prop where
  wellFormed : s.1.WellFormed
  gradients : grads.Fits s.1.table
  moments : s.2.Fits s.1.table

/-- Other parameters of a node, as many as it has, and running means that fit it. -/
theorem Updatable.replace (h : Updatable grads s) {id : NodeId} {old ps : List α}
    (hold : s.1.table.params[id]? = some old) (hlength : ps.length = old.length)
    {o : Optimizer α} (ho : o.Fits s.1.table) :
    Updatable grads (s.1.replaceParams id ps, o) := by
  have hchange : s.1.Change (s.1.replaceParams id ps) := .params id (.inr ⟨old, hold, hlength⟩)
  exact ⟨h.wellFormed.of_change hchange,
    fun i hi => (h.gradients i hi).of_change h.wellFormed hchange,
    ho.of_change h.wellFormed hchange⟩

/-- Adam's rule answers as many parameters and running means as it is given. -/
theorem exists_adamUpdate {m : Moments α} {params grad : List α} (rate : α) (t : Nat)
    (hfirst : m.first.length = grad.length) (hsecond : m.second.length = grad.length)
    (hparams : params.length = grad.length) :
    ∃ ps, (adamUpdate rate t m params grad : Outcome ε (List α × Moments α)) =
      .ok (ps, Moments.advance m grad) ∧ ps.length = params.length := by
  have hinside : ¬(m.first.length < grad.length ∨ m.second.length < grad.length ∨
      params.length < grad.length) := by omega
  unfold adamUpdate
  dsimp only
  rw [if_neg hinside]
  exact ⟨_, rfl, Column.length_update _ _ _⟩

/-- The running means that an update starts from are as many as the gradient, whether there have
been any or not. -/
theorem Updatable.length_startMoments (h : Updatable grads s) {id : NodeId} {ps : List α}
    (hps : s.1.table.params[id]? = some ps) (hlength : ps.length = (grads.get id).length) :
    (s.2.startMoments grads id).first.length = (grads.get id).length ∧
      (s.2.startMoments grads id).second.length = (grads.get id).length := by
  unfold startMoments
  cases hlookup : s.2.moments? id with
  | none => simp
  | some before =>
    obtain ⟨⟨ps₁, hps₁, hfirst⟩, ps₂, hps₂, hsecond⟩ := h.moments id before hlookup
    cases hps.symm.trans hps₁
    cases hps.symm.trans hps₂
    simp [← hfirst, ← hsecond, hlength]

/-- The update of one node succeeds, and does not count as a step. -/
theorem Updatable.exists_updateNode (h : Updatable grads s) (rate : α) (id : NodeId) :
    ∃ s', updateNode rate grads s id = .ok s' ∧ Updatable grads s' ∧
      s'.2.steps = s.2.steps := by
  obtain ⟨g, o⟩ := s
  unfold updateNode
  dsimp only
  by_cases hempty : (grads.get id).isEmpty = true
  · exact ⟨(g, o), if_pos hempty, h, rfl⟩
  obtain ⟨ps, hps, hlength⟩ := h.gradients id (by simpa using hempty)
  have hstore : ∀ new : List α,
      (Outcome.store g.table.params id new : Outcome GraphError (Array (List α))) =
        .ok (g.table.params.setIfInBounds id new) :=
    fun new => Outcome.store_eq_ok.2 ⟨(Array.getElem?_eq_some_iff.1 hps).1, rfl⟩
  rw [if_neg hempty, Outcome.fetch_eq_ok.2 hps, Outcome.ok_bind]
  cases hmethod : o.method with
  | steep =>
    have hnew : (steepUpdate rate ps (grads.get id)).length = ps.length :=
      Column.length_update _ _ _
    refine ⟨_, ?_, h.replace hps hnew h.moments, rfl⟩
    rw [Outcome.pure_eq_ok, Outcome.ok_bind, hstore]
    rfl
  | adam =>
    obtain ⟨hfirst, hsecond⟩ := h.length_startMoments hps hlength
    have ho : (o.setMoments id
        (Moments.advance (o.startMoments grads id) (grads.get id))).Fits g.table := by
      refine h.moments.setMoments ⟨ps, hps, ?_⟩ ⟨ps, hps, ?_⟩
      · rw [length_advance_first, hfirst, hlength]
      · rw [length_advance_second, hsecond, hlength]
    obtain ⟨new, hupdate, hnew⟩ :=
      exists_adamUpdate (ε := GraphError) rate o.steps hfirst hsecond hlength
    refine ⟨_, ?_, h.replace hps hnew ho, rfl⟩
    unfold startMoments at hupdate
    dsimp only at hupdate ⊢
    rw [hupdate, Outcome.ok_bind, Outcome.pure_eq_ok, Outcome.ok_bind, hstore]
    rfl

/-- The updates of a step succeed. -/
theorem Updatable.exists_updates (h : Updatable grads s) (rate : α) (nodes : List NodeId) :
    ∃ s', nodes.foldlM (updateNode rate grads) s = .ok s' ∧ Updatable grads s' ∧
      s'.2.steps = s.2.steps := by
  refine Outcome.exists_foldlM (P := fun s' => Updatable grads s' ∧ s'.2.steps = s.2.steps)
    ⟨h, rfl⟩ ?_
  rintro s' id _ ⟨hs', hsteps⟩
  obtain ⟨s'', hrun, hs'', hsteps'⟩ := hs'.exists_updateNode rate id
  exact ⟨s'', hrun, hs'', hsteps'.trans hsteps⟩

/-! ## Steps -/

/-- What one step leaves behind. -/
def stepped (x : Matrix α) (y : List α) (rate : α) (nodes : List NodeId)
    (s : Graph α × Optimizer α) : Graph α × Optimizer α :=
  ((s.2.step s.1 x y rate nodes).graph, (s.2.step s.1 x y rate nodes).optimizer)

/-- A graph and an optimizer with which a step can be taken. -/
structure Ready (x : Matrix α) (y : List α) (s : Graph α × Optimizer α) : Prop where
  wellFormed : s.1.WellFormed
  moments : s.2.Fits s.1.table
  gradients : ∃ grads, (s.1.gradients x y).1 = .ok grads

/-- The updates of a step can be made behind its gradient pass. -/
theorem Ready.updatable (h : Ready x y s) (hgrads : (s.1.gradients x y).1 = .ok grads) :
    Updatable grads ((s.1.gradients x y).2, { s.2 with steps := s.2.steps + 1 }) where
  wellFormed := (s.1.changes_gradients x y).keep h.wellFormed fun _ _ => Graph.WellFormed.of_change
  gradients := by
    rw [Graph.gradients_snd_table]
    exact Graph.fits_gradients hgrads
  moments := by
    rw [Graph.gradients_snd_table]
    exact h.moments

/-- A step is a gradient pass and its updates. -/
theorem step_of_updates (hgrads : (s.1.gradients x y).1 = .ok grads) {s' : Graph α × Optimizer α}
    (hupdates : nodes.foldlM (updateNode rate grads)
      ((s.1.gradients x y).2, { s.2 with steps := s.2.steps + 1 }) = .ok s') :
    s.2.step s.1 x y rate nodes =
      ⟨.ok ((s.1.gradients x y).2.loss?.getD Arith.nan), s'.1, s'.2⟩ := by
  unfold step
  rcases hpass : s.1.gradients x y with ⟨outcome, g₁⟩
  rw [hpass] at hgrads hupdates
  obtain rfl : outcome = .ok grads := hgrads
  dsimp only at hupdates ⊢
  rw [hupdates]

/-- A step whose gradient pass fails is that pass. -/
theorem step_of_failed {fault : Fault GraphError} (h : (s.1.gradients x y).1 = .error fault) :
    s.2.step s.1 x y rate nodes = ⟨.error fault, (s.1.gradients x y).2, s.2⟩ := by
  unfold step
  rcases hpass : s.1.gradients x y with ⟨outcome, g₁⟩
  rw [hpass] at h
  obtain rfl : outcome = .error fault := h
  rfl

/-- A step that can be taken is taken, it is counted, and another one can be taken after it. -/
theorem Ready.step (h : Ready x y s) (rate : α) (nodes : List NodeId) :
    (∃ loss, (s.2.step s.1 x y rate nodes).outcome = .ok loss) ∧
      Ready x y (stepped x y rate nodes s) ∧
      (stepped x y rate nodes s).2.steps = s.2.steps + 1 := by
  obtain ⟨grads, hgrads⟩ := h.gradients
  obtain ⟨s', hupdates, hs', hsteps⟩ := (h.updatable hgrads).exists_updates rate nodes
  have hstep := step_of_updates hgrads hupdates
  obtain ⟨tape, hprimed⟩ := primed_of_step_eq_ok (congrArg Stepped.outcome hstep)
  unfold stepped
  rw [hstep] at hprimed ⊢
  refine ⟨⟨_, rfl⟩, ⟨hs'.wellFormed, hs'.moments, ?_⟩, hsteps⟩
  -- the next pass is not refused, and it stays inside of the graph
  have hunrefused := hprimed.unrefused_gradients (Graph.length_of_gradients_eq_ok hgrads)
  have hsafe := (hs'.wellFormed.yields_gradients x y).safe
  cases hnext : (s'.1.gradients x y).1 with
  | ok grads' => exact ⟨grads', rfl⟩
  | error fault =>
    obtain rfl := hunrefused.error fault hnext
    exact absurd hnext hsafe

theorem Ready.iterate (h : Ready x y s) (rate : α) (nodes : List NodeId) (k : Nat) :
    Ready x y ((stepped x y rate nodes)^[k] s) ∧
      ((stepped x y rate nodes)^[k] s).2.steps = s.2.steps + k := by
  induction k with
  | zero => exact ⟨h, rfl⟩
  | succ k ih =>
    rw [Function.iterate_succ_apply']
    obtain ⟨_, hnext, hsteps⟩ := ih.1.step rate nodes
    exact ⟨hnext, by rw [hsteps, ih.2]; rfl⟩

/-- All steps are taken once the first one can be. -/
theorem Ready.exists_steps? (h : Ready x y s) (rate : α) (nodes : List NodeId) (n : Nat) :
    ∃ losses, Optimizer.steps? x y rate nodes n s.2 s.1 =
      ⟨.ok losses, ((stepped x y rate nodes)^[n] s).1, ((stepped x y rate nodes)^[n] s).2⟩ := by
  induction n generalizing s with
  | zero => exact ⟨[], rfl⟩
  | succ n ih =>
    obtain ⟨⟨loss, hloss⟩, hnext, _⟩ := h.step rate nodes
    obtain ⟨losses, hrest⟩ := ih hnext
    have hstep : s.2.step s.1 x y rate nodes =
        ⟨.ok loss, (stepped x y rate nodes s).1, (stepped x y rate nodes s).2⟩ := by
      rw [← hloss]
      rfl
    refine ⟨loss :: losses, ?_⟩
    rw [Function.iterate_succ_apply, Optimizer.steps?, hstep]
    dsimp only
    rw [hrest]
    rfl

/-! ## Runs -/

variable {g : Graph α} {o : Optimizer α}

/-- A run of some steps with fitting running means is refused by its first gradient pass, and then
it has updated nothing, or it takes all of its steps. -/
theorem run_cases (hg : g.WellFormed) (ho : o.Fits g.table) (x : Matrix α) (y : List α) (n : Nat)
    (rate : α) :
    (∃ fault, 0 < n ∧ (g.gradients x y).1 = .error fault ∧
      (o.run g x y n rate).1 = ⟨.error fault, (g.gradients x y).2, o⟩) ∨
    (0 < n → ∃ grads, (g.gradients x y).1 = .ok grads) ∧
      ∃ nodes losses, (g.table.trainable : Outcome GraphError (List NodeId)) = .ok nodes ∧
        (o.run g x y n rate).1 = ⟨.ok losses, ((stepped x y rate nodes)^[n] (g, o)).1,
          ((stepped x y rate nodes)^[n] (g, o)).2⟩ := by
  obtain ⟨nodes, hnodes⟩ := hg.table.exists_trainable (ε := GraphError)
  have hrun : ∀ r, steps? x y rate nodes n o g = r →
      (o.run g x y n rate).1 = { r with outcome := r.outcome.map Losses.ofList } := by
    rintro r rfl
    unfold run
    rw [hnodes]
    dsimp only
    split
    · rename_i hfailed
      rw [hfailed]
      rfl
    · rename_i hpassed
      rw [hpassed]
      rfl
  rcases Nat.eq_zero_or_pos n with rfl | hn
  · exact .inr ⟨fun h => absurd h (Nat.lt_irrefl 0), nodes, _, hnodes, hrun _ rfl⟩
  cases hpass : (g.gradients x y).1 with
  | error fault =>
    refine .inl ⟨fault, hn, rfl, hrun ⟨.error fault, (g.gradients x y).2, o⟩ ?_⟩
    obtain ⟨n, rfl⟩ : ∃ m, n = m + 1 := ⟨n - 1, by omega⟩
    rw [steps?, step_of_failed (s := (g, o)) hpass]
  | ok grads =>
    obtain ⟨losses, hsteps⟩ := Ready.exists_steps? (s := (g, o)) ⟨hg, ho, grads, hpass⟩ rate nodes n
    exact .inr ⟨fun _ => ⟨grads, rfl⟩, nodes, _, hnodes, hrun _ hsteps⟩

/-- So many steps in a row are counted, and they keep the running means fitting. -/
theorem fits_iterate (hg : g.WellFormed) (ho : o.Fits g.table) {n : Nat}
    (hpass : 0 < n → ∃ grads, (g.gradients x y).1 = .ok grads) (rate : α)
    (nodes : List NodeId) :
    ((stepped x y rate nodes)^[n] (g, o)).2.Fits ((stepped x y rate nodes)^[n] (g, o)).1.table ∧
      ((stepped x y rate nodes)^[n] (g, o)).2.steps = o.steps + n := by
  rcases Nat.eq_zero_or_pos n with rfl | hn
  · exact ⟨ho, rfl⟩
  · obtain ⟨hready, hsteps⟩ :=
      Ready.iterate (s := (g, o)) ⟨hg, ho, hpass hn⟩ rate nodes n
    exact ⟨hready.moments, hsteps⟩

/-- A run keeps the running means fitting, whether it is refused or not. -/
theorem fits_run (hg : g.WellFormed) (ho : o.Fits g.table) (x : Matrix α) (y : List α) (n : Nat)
    (rate : α) : (o.run g x y n rate).1.optimizer.Fits (o.run g x y n rate).1.graph.table := by
  rcases run_cases hg ho x y n rate with ⟨fault, _, _, hrun⟩ | ⟨hpass, nodes, losses, _, hrun⟩
  · rw [hrun, Graph.gradients_snd_table]
    exact ho
  · rw [hrun]
    exact (fits_iterate hg ho hpass rate nodes).1

/-- An optimizer that has only been used on one graph: it was new when the graph was a reachable
one, and since then other things may have been done to the graph. -/
inductive Accompanies : Optimizer α → Graph α → Prop where
  | ofMethod {g : Graph α} (hg : g.Reachable) (method : Method) : Accompanies (ofMethod method) g
  | after {o : Optimizer α} {g : Graph α} (h : Accompanies o g) (a : Action α) :
      Accompanies o (g.after a)
  | run {o : Optimizer α} {g : Graph α} (h : Accompanies o g) (x : Matrix α) (y : List α) (n : Nat)
      (rate : α) : Accompanies (o.run g x y n rate).1.optimizer (o.run g x y n rate).1.graph

namespace Accompanies

theorem reachable (h : o.Accompanies g) : g.Reachable := by
  induction h with
  | ofMethod hg _ => exact hg
  | after _ a ih => exact ih.after a
  | @run o _ _ x y n rate ih => exact ih.after (.optimize o x y n rate)

/-- The running means fit, whatever has been done to the graph. -/
theorem fits (h : o.Accompanies g) : o.Fits g.table := by
  induction h with
  | ofMethod _ method => exact fits_ofMethod method _
  | @after o g h a ih =>
    have hboth : (g.after a).WellFormed ∧ o.Fits (g.after a).table :=
      (g.changes_after a).keep (P := fun g => g.WellFormed ∧ o.Fits g.table)
        ⟨h.reachable.sound.wellFormed, ih⟩
        fun _ _ hg hchange => ⟨hg.1.of_change hchange, hg.2.of_change hg.1 hchange⟩
    exact hboth.2
  | run h x y n rate ih => exact fits_run h.reachable.sound.wellFormed ih x y n rate

end Accompanies

/-- A run of `n` steps over a graph that actions lead to, with an optimizer that has only been used
on this graph, never reads outside of the stored data.  It fails exactly if there is a step and the
first gradient pass fails, and for the reason of that pass.  A run that fails leaves the table, the
roles and the optimizer as they were.  A run that succeeds has taken `n` steps, each of which has
succeeded, and they are counted. -/
theorem run_all_or_nothing (h : o.Accompanies g) (x : Matrix α) (y : List α) (n : Nat) (rate : α) :
    (o.run g x y n rate).1.outcome ≠ .error .outOfRange ∧
    (∀ fault, (o.run g x y n rate).1.outcome = .error fault ↔
      0 < n ∧ (g.gradients x y).1 = .error fault) ∧
    (∀ fault, (o.run g x y n rate).1.outcome = .error fault →
      (o.run g x y n rate).1.graph.table = g.table ∧
        SameNodes g (o.run g x y n rate).1.graph ∧ (o.run g x y n rate).1.optimizer = o) ∧
    ∀ losses, (o.run g x y n rate).1.outcome = .ok losses →
      ∃ nodes, (g.table.trainable : Outcome GraphError (List NodeId)) = .ok nodes ∧
        ((o.run g x y n rate).1.graph, (o.run g x y n rate).1.optimizer) =
          (stepped x y rate nodes)^[n] (g, o) ∧
        (∀ k < n, ∃ loss, (((stepped x y rate nodes)^[k] (g, o)).2.step
          ((stepped x y rate nodes)^[k] (g, o)).1 x y rate nodes).outcome = .ok loss) ∧
        (o.run g x y n rate).1.optimizer.steps = o.steps + n := by
  have hg := h.reachable.sound.wellFormed
  rcases run_cases hg h.fits x y n rate with
    ⟨fault, hn, hpass, hrun⟩ | ⟨hpass, nodes, losses, hnodes, hrun⟩
  · rw [hrun]
    dsimp only
    rw [hpass]
    refine ⟨?_, fun fault' => ?_, fun _ _ => ⟨?_, ?_, rfl⟩, fun _ hok => nomatch hok⟩
    · intro hout
      cases hout
      exact (hg.yields_gradients x y).safe hpass
    · simp [hn]
    · exact Graph.gradients_snd_table g x y
    · exact (onlyTrained_gradients g x y).toSameNodes
  · rw [hrun]
    refine ⟨nofun, fun fault => ⟨nofun, ?_⟩, nofun, fun _ _ => ⟨nodes, hnodes, rfl, ?_, ?_⟩⟩
    · rintro ⟨hn, hfailed⟩
      obtain ⟨grads, hgrads⟩ := hpass hn
      cases hgrads.symm.trans hfailed
    · intro k hk
      have hready : Ready x y (g, o) := ⟨hg, h.fits, hpass (by omega)⟩
      exact ((hready.iterate rate nodes k).1.step rate nodes).1
    · exact (fits_iterate hg h.fits hpass rate nodes).2

/-- Two steps of Adam with the line, over two rows. -/
def trainedLine : Stepped Float (Losses Float) :=
  ((ofMethod .adam).run Graph.lineFit (.ofFn 2 1 fun _ _ => 3) [1, 2] 2 0.5).1

/-- The two steps are taken.  A run of three more steps that has a target for one of the two rows
only is refused, and the two steps are what the optimizer has counted. -/
theorem run_all_or_nothing_lineFit :
    (∃ losses, trainedLine.outcome = .ok losses) ∧ trainedLine.optimizer.steps = 2 ∧
      ∃ fault, (trainedLine.optimizer.run trainedLine.graph (.ofFn 2 1 fun _ _ => 3) [1] 3
          0.5).1.outcome = .error fault ∧
        (trainedLine.optimizer.run trainedLine.graph (.ofFn 2 1 fun _ _ => 3) [1] 3
          0.5).1.optimizer = trainedLine.optimizer := by
  have hnew : (ofMethod .adam : Optimizer Float).Accompanies Graph.lineFit :=
    .ofMethod Graph.reachable_lineFit .adam
  have hrun : ((ofMethod .adam).run Graph.lineFit (.ofFn 2 1 fun _ _ => 3) [1, 2] 2 0.5).1 =
      trainedLine := rfl
  have hused := hnew.run (.ofFn 2 1 fun _ _ => 3) [1, 2] 2 0.5
  rw [hrun] at hused
  have hforward : ((Graph.lineFit : Graph Float).evaluate (.ofFn 2 1 fun _ _ => 3) none).1 =
      .ok () := by rfl
  have hsound := (Graph.reachable_lineFit (α := Float)).sound
  obtain ⟨hclosed, haccepts⟩ := (Graph.evaluate_eq_ok_iff hsound).1 hforward
  obtain ⟨grads, hgrads⟩ := (Graph.gradients_eq_ok_iff (y := [1, 2]) hsound).2
    ⟨⟨hclosed, Graph.accepts_some_iff.2 ⟨haccepts, rfl⟩⟩, 3, rfl, rfl⟩
  obtain ⟨_, hfails, _, htaken⟩ :=
    run_all_or_nothing hnew (.ofFn 2 1 fun _ _ => 3) [1, 2] 2 0.5
  rw [hrun] at hfails htaken
  obtain ⟨_, hfails', hkept, _⟩ :=
    run_all_or_nothing hused (.ofFn 2 1 fun _ _ => 3) [1] 3 0.5
  obtain ⟨losses, hlosses⟩ : ∃ losses, trainedLine.outcome = .ok losses := by
    cases houtcome : trainedLine.outcome with
    | ok losses => exact ⟨losses, rfl⟩
    | error fault => cases hgrads.symm.trans ((hfails fault).1 houtcome).2
  obtain ⟨_, _, _, _, hsteps⟩ := htaken losses hlosses
  refine ⟨⟨losses, hlosses⟩, hsteps, ?_⟩
  cases hpass : (trainedLine.graph.gradients (.ofFn 2 1 fun _ _ => 3) [1]).1 with
  | ok _ => exact absurd (Graph.length_of_gradients_eq_ok hpass) (by decide)
  | error fault =>
    have hrefused := (hfails' fault).2 ⟨by decide, hpass⟩
    exact ⟨fault, hrefused, (hkept fault hrefused).2.2⟩

end Optimizer

end FeatureGraph
