import FeatureGraph.Proofs.Operation
import FeatureGraph.Descent.Optimizer

/-!
# What can happen to a graph

`Graph.Change` lists all that one step of an operation does to a graph: it changes caches, adds a
node over nodes that are there, or replaces a column by one of the same length.  An invariant that
the changes keep is kept by every operation, whether it succeeds or fails.

* The `changes_…` lemmas take the operations apart into changes.  No graph has to be well-formed for
  that.
* `Changes.keep` is the induction.
* `KeptByUpdates` carries a property that the updates of some nodes keep through a descent, and
  `rel_updates` a relation between two graphs through the updates of both.
-/

namespace FeatureGraph

variable {α : Type}

/-- So many parameters belong to a node: as many as its primitive asks for, or as many as it has. -/
def NodeTable.Counts (t : NodeTable α) (id : NodeId) (n : Nat) : Prop :=
  (∃ op : Primitive, t.ops[id]? = some op ∧ n = op.paramCount (t.parentList id).length) ∨
    ∃ old, t.params[id]? = some old ∧ n = old.length

theorem NodeTable.WellFormed.length_of_counts {t : NodeTable α} (ht : t.WellFormed) {id : NodeId}
    {n : Nat} (h : t.Counts id n) : ∀ old, t.params[id]? = some old → n = old.length := by
  intro old hold
  rcases h with ⟨op, hop, hn⟩ | ⟨old', hold', hn⟩
  · rw [hn, ht.paramCount id op old hop hold]
  · rw [hn, Option.some.inj (hold.symm.trans hold')]

namespace Graph

variable {g g' : Graph α}

/-- What one step of an operation does to a graph. -/
inductive Change [Arith α] (g : Graph α) : Graph α → Prop where
  /-- The tape is kept, forgotten or compiled, and the table stays as it is. -/
  | caches {g' : Graph α} (table : g'.table = g.table)
      (tape : ∀ p, g'.tape = some p → g.tape = some p ∨ g.table.compile = .ok p) : Change g g'
  | node {g' : Graph α} {op : Primitive} {ps : List NodeId} {name : String}
      (parents : ∀ p ∈ ps, p < g.size) (admits : op.admits ps.length = true)
      (table : g'.table = (g.table.addNode op ps name).2) (tape : g'.tape = none) : Change g g'
  | params (id : NodeId) {ps : List α} (counts : g.table.Counts id ps.length) :
      Change g (g.replaceParams id ps)
  | flags {constant dropped : Array Bool} (constantSize : constant.size = g.table.constant.size)
      (droppedSize : dropped.size = g.table.dropped.size) :
      Change g { g with table := { g.table with constant, dropped } }
  | active {column : Array Bool} (size : column.size = g.table.active.size) :
      Change g (g.withActive column)

/-- A sequence of changes. -/
abbrev Changes [Arith α] : Graph α → Graph α → Prop := Relation.ReflTransGen Change

variable [Arith α]

/-- What every change keeps holds after a sequence of them. -/
theorem Changes.keep {P : Graph α → Prop} (h : g.Changes g') (hg : P g)
    (hchange : ∀ g g' : Graph α, P g → g.Change g' → P g') : P g' := by
  induction h with
  | refl => exact hg
  | tail _ hstep ih => exact hchange _ _ ih hstep

/-- No change leaves a stale tape. -/
theorem Compiled.of_change (hg : g.Compiled) (h : g.Change g') : g'.Compiled := by
  cases h with
  | caches htable htape =>
    intro p hp
    rw [htable]
    exact (htape p hp).elim (hg p) id
  | node _ _ _ htape => exact fun p hp => nomatch htape.symm.trans hp
  | params => exact hg.of_sameShape ⟨rfl, rfl, rfl, rfl, rfl⟩
  | flags => exact hg.of_sameShape ⟨rfl, rfl, rfl, rfl, rfl⟩
  | active => exact fun p hp => nomatch hp

/-! ## Adding and changing nodes -/

theorem change_appendInput (g : Graph α) (name : String) : g.Change (g.appendInput name).2 :=
  .node (by simp) rfl rfl rfl

theorem change_addTarget (g : Graph α) (name : String) : g.Change (g.addTarget name).2 :=
  .node (by simp) rfl rfl rfl

section Nodes

variable {id : NodeId} {p : NodeId × Graph α} {name : String}

theorem change_addInput (h : g.addInput name = .ok p) : g.Change p.2 := by
  rw [(addInput_eq_ok.1 h).2]
  exact g.change_appendInput name

theorem change_addNode {op : Primitive} {ps : List NodeId} (h : g.addNode op ps name = .ok p) :
    g.Change p.2 := by
  obtain ⟨_, hps, hop, rfl⟩ := addNode_eq_ok.1 h
  exact .node hps hop rfl rfl

theorem change_addOutput {ps : List NodeId} (h : g.addOutput ps name = .ok p) : g.Change p.2 := by
  obtain ⟨hps, hne, rfl⟩ := addOutput_eq_ok.1 h
  exact .node hps (by simpa [Primitive.admits, Primitive.arity?] using hne) rfl rfl

theorem change_addObjective {output target : NodeId}
    (h : g.addObjective output target name = .ok p) : g.Change p.2 := by
  obtain ⟨houtput, htarget, rfl⟩ := addObjective_eq_ok.1 h
  have hps : ∀ q ∈ [output, target], q < g.size := by simpa using ⟨houtput, htarget⟩
  exact .node hps rfl rfl rfl

theorem change_setParams {ps : List α} (h : g.setParams id ps = .ok g') : g.Change g' := by
  obtain ⟨hcount, rfl⟩ := of_setParams_eq_ok h
  exact .params id (.inl hcount)

theorem change_setConstant {value : Bool} (h : g.setConstant id value = .ok g') : g.Change g' := by
  rw [(of_setConstant_eq_ok h).2]
  exact .flags (by simp) rfl

theorem change_setDropped {value : Bool} (h : g.setDropped id value = .ok g') : g.Change g' := by
  rw [(of_setDropped_eq_ok h).2]
  exact .flags rfl (by simp)

theorem change_clearDropped (g : Graph α) : g.Change g.clearDropped := .flags rfl (by simp)

theorem change_setActive {value : Bool} (h : g.setActive id value = .ok g') : g.Change g' := by
  rw [(of_setActive_eq_ok h).2]
  exact .active (by simp)

theorem change_activateBranch {q : Nat × Graph α} (h : g.activateBranch id = .ok q) :
    g.Change q.2 := by
  obtain ⟨column, hsize, hq⟩ := of_activateBranch_eq_ok h
  exact hq ▸ .active hsize

theorem change_bypassInactive {q : Nat × Graph α} (h : g.bypassInactive = .ok q) :
    g.Change q.2 := by
  obtain ⟨tape, htape, rfl⟩ := bypassInactive_eq_ok.1 h
  exact .caches rfl fun p hp => .inr (Option.some.inj hp ▸ htape)

end Nodes

/-! ## Passes -/

/-- The tape of a pass is the cached one, or the one that the table compiles to. -/
theorem of_runForward_eq_ok {x : Matrix α} {y : Option (List α)} {p : Tape × Slots α}
    (h : g.runForward x y = .ok p) :
    (g.tape = some p.1 ∨ g.table.compile = .ok p.1) ∧ p.1.forward g.table x y = .ok p.2 := by
  obtain ⟨htape, hvalues⟩ := runForward_eq_ok.1 h
  refine ⟨?_, hvalues⟩
  unfold currentTape at htape
  split at htape
  · rename_i cached hcached
    exact .inl (hcached.trans (congrArg some (Except.ok.inj htape)))
  · exact .inr htape

theorem change_afterForward (g : Graph α) (x : Matrix α) (y : Option (List α)) :
    g.Change (g.afterForward (g.runForward x y)) := by
  cases hrun : g.runForward x y with
  | error fault => exact .caches rfl nofun
  | ok p => exact .caches rfl fun tape htape => Option.some.inj htape ▸ (of_runForward_eq_ok hrun).1

theorem change_evaluate (g : Graph α) (x : Matrix α) (y : Option (List α)) :
    g.Change (g.evaluate x y).2 :=
  g.change_afterForward x y

theorem changes_gradients (g : Graph α) (x : Matrix α) (y : List α) :
    g.Changes (g.gradients x y).2 := by
  rcases g.gradients_snd_cases x y with h | h
  · rw [h]
  · rw [h]
    exact .single (g.change_afterForward x (some y))

end Graph

/-! ## Descents -/

namespace Optimizer

variable [Arith α] {g : Graph α} {rate : α} {grads : Gradients α} {o : Optimizer α} {id : NodeId}

/-- The running means that an update of a node starts from: zeros if there are none yet. -/
def startMoments (o : Optimizer α) (grads : Gradients α) (id : NodeId) : Moments α :=
  (o.moments? id).getD ⟨Column.zeros (grads.get id).length, Column.zeros (grads.get id).length⟩

/-- What an update of a node does: nothing, or a step of one of the two methods. -/
theorem of_updateNode_eq_ok {s : Graph α × Optimizer α}
    (h : updateNode rate grads (g, o) id = .ok s) :
    (grads.get id = [] ∧ s = (g, o)) ∨
      grads.get id ≠ [] ∧ ∃ old, g.table.params[id]? = some old ∧
        ((o.method = .steep ∧ s = (g.replaceParams id (steepUpdate rate old (grads.get id)), o)) ∨
        (o.method = .adam ∧ ∃ ps m,
          (adamUpdate rate o.steps (o.startMoments grads id) old (grads.get id) :
            Outcome GraphError (List α × Moments α)) = .ok (ps, m) ∧
          s = (g.replaceParams id ps, o.setMoments id m))) := by
  unfold updateNode at h
  dsimp only at h
  split at h
  · rename_i hempty
    exact .inl ⟨List.isEmpty_iff.1 hempty, (Outcome.ok_eq_iff.1 h)⟩
  rename_i hne
  refine .inr ⟨fun hempty => hne (List.isEmpty_iff.2 hempty), ?_⟩
  obtain ⟨old, hold, h⟩ := Outcome.bind_eq_ok.1 h
  refine ⟨old, Outcome.fetch_eq_ok.1 hold, ?_⟩
  split at h
  · rename_i hmethod
    rw [Outcome.pure_eq_ok, Outcome.ok_bind] at h
    obtain ⟨column, hcolumn, h⟩ := Outcome.bind_eq_ok.1 h
    rw [(Outcome.store_eq_ok.1 hcolumn).2] at h
    exact .inl ⟨hmethod, Outcome.ok_eq_iff.1 h⟩
  · rename_i hmethod
    obtain ⟨r, hr, h⟩ := Outcome.bind_eq_ok.1 h
    rw [Outcome.pure_eq_ok, Outcome.ok_bind] at h
    obtain ⟨column, hcolumn, h⟩ := Outcome.bind_eq_ok.1 h
    rw [(Outcome.store_eq_ok.1 hcolumn).2] at h
    exact .inr ⟨hmethod, r.1, r.2, hr, Outcome.ok_eq_iff.1 h⟩

/-- An update replaces the parameters of a node by as many others, if anything. -/
theorem updateNode_fst {p : Graph α × Optimizer α} (h : updateNode rate grads (g, o) id = .ok p) :
    p.1 = g ∨ ∃ old ps, g.table.params[id]? = some old ∧ ps.length = old.length ∧
      p.1 = g.replaceParams id ps := by
  obtain ⟨_, rfl⟩ | ⟨_, old, hold, ⟨_, rfl⟩ | ⟨_, ps, m, hupdate, rfl⟩⟩ := of_updateNode_eq_ok h
  · exact .inl rfl
  · exact .inr ⟨old, _, hold, by simp [steepUpdate], rfl⟩
  · refine .inr ⟨old, ps, hold, ?_, rfl⟩
    unfold adamUpdate at hupdate
    dsimp only at hupdate
    split at hupdate
    · simp [Outcome.outOfRange] at hupdate
    · cases hupdate
      simp

variable {g' : Graph α} {R : Graph α → Graph α → Prop}

omit [Arith α] in
/-- Parameters are written to both graphs or to none. -/
theorem rel_storeParams (hparams : g'.table.params[id]? = g.table.params[id]?) {ps : List α}
    (h : R (g.replaceParams id ps) (g'.replaceParams id ps)) (o : Optimizer α) :
    Outcome.Rel (ε := GraphError) (fun s s' => R s.1 s'.1 ∧ s'.2 = s.2)
      (do
        let column ← Outcome.store g.table.params id ps
        return ({ g with table := { g.table with params := column } }, o))
      (do
        let column ← Outcome.store g'.table.params id ps
        return ({ g' with table := { g'.table with params := column } }, o)) := by
  by_cases hin : id < g.table.params.size
  · have hin' : id < g'.table.params.size := by
      rw [Array.getElem?_eq_getElem hin] at hparams
      exact (Array.getElem?_eq_some_iff.1 hparams).1
    rw [Outcome.store_eq_ok.2 ⟨hin, rfl⟩, Outcome.store_eq_ok.2 ⟨hin', rfl⟩]
    exact .ok ⟨h, rfl⟩
  · have hout : ¬id < g'.table.params.size := by
      rw [Array.getElem?_eq_none (Nat.le_of_not_lt hin)] at hparams
      exact Nat.not_lt.2 (Array.getElem?_eq_none_iff.1 hparams)
    rw [Outcome.store, Outcome.store, dif_neg hin, dif_neg hout]
    exact .error _

/-- An update of a node that has the same parameters in two graphs. -/
theorem rel_updateNode (hparams : g'.table.params[id]? = g.table.params[id]?) (h : R g g')
    (hreplace : ∀ ps, R (g.replaceParams id ps) (g'.replaceParams id ps)) (rate : α)
    (grads : Gradients α) (o : Optimizer α) :
    Outcome.Rel (fun s s' => R s.1 s'.1 ∧ s'.2 = s.2) (updateNode rate grads (g, o) id)
      (updateNode rate grads (g', o) id) := by
  unfold updateNode
  dsimp only
  split
  · exact .ok ⟨h, rfl⟩
  · have hfetch : (Outcome.fetch g'.table.params id : Outcome GraphError (List α)) =
        Outcome.fetch g.table.params id := by
      rw [Outcome.fetch, Outcome.fetch, hparams]
    rw [hfetch]
    cases (Outcome.fetch g.table.params id : Outcome GraphError (List α)) with
    | error fault => exact .error fault
    | ok old =>
      rw [Outcome.ok_bind, Outcome.ok_bind]
      cases o.method with
      | steep => exact rel_storeParams hparams (hreplace _) o
      | adam =>
        dsimp only
        generalize (adamUpdate rate o.steps _ old (grads.get id) :
          Outcome GraphError (List α × Moments α)) = updated
        cases updated with
        | error fault => exact .error fault
        | ok r => exact rel_storeParams hparams (hreplace r.1) (o.setMoments id r.2)

variable {x : Matrix α} {y : List α} {nodes : List NodeId}

/-- Updates keep a relation between graphs with the same parameters at the updated nodes, if the
same other parameters at both keep it. -/
theorem rel_updates
    (hparams : ∀ id ∈ nodes, ∀ g g', R g g' → g'.table.params[id]? = g.table.params[id]?)
    (hreplace : ∀ id ∈ nodes, ∀ g g' ps, R g g' →
      R (g.replaceParams id ps) (g'.replaceParams id ps))
    (h : R g g') (rate : α) (grads : Gradients α) (o : Optimizer α) :
    Outcome.Rel (fun s s' => R s.1 s'.1 ∧ s'.2 = s.2)
      (nodes.foldlM (updateNode rate grads) (g, o))
      (nodes.foldlM (updateNode rate grads) (g', o)) := by
  refine Outcome.Rel.foldlM ⟨h, rfl⟩ ?_
  rintro id hid ⟨g₁, o₁⟩ ⟨g₁', o₁'⟩ ⟨hrel, ho⟩
  obtain rfl : o₁' = o₁ := ho
  exact rel_updateNode (hparams id hid g₁ g₁' hrel) hrel
    (fun ps => hreplace id hid g₁ g₁' ps hrel) rate grads o₁'

/-- A property of graphs that other parameters of some nodes, as many as these have, keep. -/
def KeptByUpdates (nodes : List NodeId) (P : Graph α → Prop) : Prop :=
  ∀ g : Graph α, ∀ id ∈ nodes, ∀ old ps, g.table.params[id]? = some old →
    ps.length = old.length → P g → P (g.replaceParams id ps)

namespace KeptByUpdates

variable {P : Graph α → Prop}

theorem updates (hP : KeptByUpdates nodes P) (hg : P g) {p : Graph α × Optimizer α}
    (h : nodes.foldlM (updateNode rate grads) (g, o) = .ok p) : P p.1 := by
  refine Outcome.foldlM_keeps (P := fun s : Graph α × Optimizer α => P s.1) h hg
    fun s s' id hid hs hstep => ?_
  rcases updateNode_fst hstep with hsame | ⟨old, ps, hold, hlength, hother⟩
  · exact hsame ▸ hs
  · exact hother ▸ hP s.1 id hid old ps hold hlength hs

/-- A step is a gradient pass and its updates, if the pass succeeds. -/
theorem step (hP : KeptByUpdates nodes P) (hpass : P (g.gradients x y).2) (o : Optimizer α)
    (rate : α) : P (o.step g x y rate nodes).graph := by
  unfold Optimizer.step
  split
  · rename_i hfailed
    rw [hfailed] at hpass
    exact hpass
  · rename_i hpassed
    rw [hpassed] at hpass
    dsimp only
    split
    · exact hpass
    · rename_i hrun
      exact hP.updates hpass hrun

theorem steps? (hP : KeptByUpdates nodes P) (hpass : ∀ g : Graph α, P g → P (g.gradients x y).2)
    (hg : P g) (o : Optimizer α) (n : Nat) (rate : α) :
    P (Optimizer.steps? x y rate nodes n o g).graph := by
  induction n generalizing o g with
  | zero => exact hg
  | succ n ih =>
    have hstep := hP.step (hpass g hg) o rate
    unfold Optimizer.steps?
    split
    · rename_i hfailed
      rw [hfailed] at hstep
      exact hstep
    · rename_i hpassed
      rw [hpassed] at hstep
      exact ih hstep _

end KeptByUpdates

/-- A descent is its steps, if the trainable nodes can be found. -/
theorem keeps_run {P : Graph α → Prop} {n : Nat} (hg : P g)
    (hsteps : ∀ nodes, (g.table.trainable : Outcome GraphError (List NodeId)) = .ok nodes →
      P (steps? x y rate nodes n o g).graph) : P (o.run g x y n rate).1.graph := by
  unfold run
  split
  · exact hg
  · rename_i nodes htrainable
    have hdescent := hsteps nodes htrainable
    dsimp only
    split <;> exact hdescent

theorem keptByUpdates_changes (g : Graph α) (nodes : List NodeId) :
    KeptByUpdates nodes g.Changes :=
  fun _ id _ old _ hold hlength h => h.tail (.params id (.inr ⟨old, hold, hlength⟩))

theorem changes_step (o : Optimizer α) (g : Graph α) (x : Matrix α) (y : List α) (rate : α)
    (nodes : List NodeId) : g.Changes (o.step g x y rate nodes).graph :=
  (keptByUpdates_changes g nodes).step (g.changes_gradients x y) o rate

theorem changes_run (o : Optimizer α) (g : Graph α) (x : Matrix α) (y : List α) (n : Nat)
    (rate : α) : g.Changes (o.run g x y n rate).1.graph := by
  refine keeps_run .refl fun nodes _ => ?_
  exact (keptByUpdates_changes g nodes).steps?
    (fun g' h => h.trans (g'.changes_gradients x y)) .refl o n rate

end Optimizer

end FeatureGraph
