import FeatureGraph.Proofs.Ancestry
import FeatureGraph.Proofs.Reachable
import FeatureGraph.Graph.Edit

/-!
# Edits in place

An edit leaves behind what the operation of the same name answers, and the old graph if it
fails: all its checks stand before its first write.  The passes are the exception, since a
failing pass costs the tape.

* `on_bind` takes an edit apart into its steps, and the `on_…` lemmas treat the edits one by
  one.
* `Edit.perform` is an action as an edit.  `on_perform` says that it leaves `Graph.after`
  behind, and `perform_atomic` that it leaves the old graph behind if it fails and is no pass.
* `Graph.run` is a sequence of actions, from the empty graph on.
-/

namespace FeatureGraph

/-- What is left of an operation that answers a new graph: the new graph, or the old one if
the operation fails. -/
def Graph.committed {α β : Type} (g : Graph α) :
    Outcome GraphError (β × Graph α) → Outcome GraphError β × Graph α
  | .ok (b, g') => (.ok b, g')
  | .error fault => (.error fault, g)

/-- The same for an operation that answers the new graph only. -/
def Graph.replacedBy {α : Type} (g : Graph α) (outcome : Outcome GraphError (Graph α)) :
    Outcome GraphError Unit × Graph α :=
  g.committed (outcome.map fun g' => ((), g'))

namespace Edit

variable {α β γ : Type} {g : Graph α}

/-! ## Steps -/

@[simp] theorem on_pure (b : β) (g : Graph α) : on (pure b) g = (.ok b, g) := rfl

@[simp] theorem on_throw (fault : Fault GraphError) (g : Graph α) :
    on (throw fault : Edit α β) g = (.error fault, g) :=
  rfl

/-- One edit after another: the second one starts from what the first one leaves behind. -/
theorem on_bind (e : Edit α β) (f : β → Edit α γ) (g : Graph α) :
    on (e >>= f) g =
      match e.on g with
      | (.ok b, g') => (f b).on g'
      | (.error fault, g') => (.error fault, g') := by
  rw [on, Outcome.run_bind, on]
  rcases e.run.run g with ⟨_ | _, _⟩ <;> rfl

theorem on_get (g : Graph α) : on (get : Edit α (Graph α)) g = (.ok g, g) := rfl

/-- Reading changes nothing. -/
@[simp] theorem on_read (f : Graph α → Outcome GraphError β) (g : Graph α) :
    on (read f) g = (f g, g) := by
  rw [read, on_bind, on_get]
  dsimp only
  cases f g with
  | error fault => exact on_throw fault g
  | ok b => exact on_pure b g

@[simp] theorem on_write (f : Graph α → Graph α) (g : Graph α) : on (write f) g = (.ok (), f g) :=
  rfl

theorem on_assign (f : Graph α → Outcome GraphError (Graph α)) (g : Graph α) :
    on (assign f) g = g.replacedBy (f g) := by
  rw [assign, on_bind, on_read]
  cases f g <;> rfl

/-- Taking the tape leaves none behind, also when there was none and it does not compile. -/
theorem on_takeTape (g : Graph α) : on takeTape g = (g.currentTape, { g with tape := none }) := by
  rw [takeTape, on_bind, on_read]
  dsimp only
  rw [forgetTape, on_bind, on_write, Graph.currentTape]
  cases g.tape with
  | none => exact on_read _ _
  | some tape => rfl

section Adding

variable [Arith α]

/-! ## Adding nodes -/

theorem on_appendInput (name : String) :
    (appendInput name).on g = (.ok g.size, (g.appendInput name).2) :=
  rfl

theorem on_addInput (name : String) : (addInput name).on g = g.committed (g.addInput name) := by
  rw [addInput, on_bind, on_read]
  dsimp only
  unfold Graph.addInput
  split <;> rfl

theorem on_addNode (op : Primitive) (ps : List NodeId) (name : String) :
    (addNode op ps name).on g = g.committed (g.addNode op ps name) := by
  unfold addNode Graph.addNode
  split
  · rfl
  · rw [on_bind, on_read]
    cases g.checkParents op ps name <;> rfl

theorem on_addOutput (ps : List NodeId) (name : String) :
    (addOutput ps name).on g = g.committed (g.addOutput ps name) := by
  rw [addOutput, on_bind, on_read, Graph.addOutput]
  cases g.checkParents .output ps name <;> rfl

theorem on_addTarget (name : String) :
    (addTarget name).on g = (.ok g.size, (g.addTarget name).2) :=
  rfl

theorem on_addObjective (output target : NodeId) (name : String) :
    (addObjective output target name).on g = g.committed (g.addObjective output target name) := by
  rw [addObjective, on_bind, on_read, Graph.addObjective]
  cases g.checkParents .objective [output, target] name <;> rfl

end Adding

/-! ## Changing nodes -/

theorem on_setParams (id : NodeId) (params : List α) :
    (setParams id params).on g = g.replacedBy (g.setParams id params) := by
  rw [setParams, Graph.setParams, on_bind, on_read]
  cases g.checkNode id with
  | error fault => rfl
  | ok _ =>
    dsimp only
    rw [on_bind, on_read, Outcome.ok_bind]
    cases (Outcome.fetch g.table.ops id : Outcome GraphError Primitive) with
    | error fault => rfl
    | ok op =>
      dsimp only
      rw [on_bind, on_read, Outcome.ok_bind]
      cases (g.table.parents id : Outcome GraphError (List NodeId)) with
      | error fault => rfl
      | ok ps =>
        dsimp only
        rw [Outcome.ok_bind]
        by_cases hlength : params.length = op.paramCount ps.length
        · rw [if_neg (not_not.2 hlength), if_neg (not_not.2 hlength)]
          exact on_assign _ g
        · rw [if_pos hlength, if_pos hlength, on_bind, on_read]
          cases (Outcome.fetch g.table.labels id : Outcome GraphError String) <;> rfl

theorem on_setConstant (id : NodeId) (value : Bool) :
    (setConstant id value).on g = g.replacedBy (g.setConstant id value) := by
  rw [setConstant, Graph.setConstant, on_bind, on_read]
  cases g.checkNode id with
  | error fault => rfl
  | ok _ => exact on_assign _ g

theorem on_setDropped (id : NodeId) (value : Bool) :
    (setDropped id value).on g = g.replacedBy (g.setDropped id value) := by
  rw [setDropped, Graph.setDropped, on_bind, on_read]
  cases g.checkNode id with
  | error fault => rfl
  | ok _ => exact on_assign _ g

/-! ## Activation -/

theorem on_setActive (id : NodeId) (value : Bool) :
    (setActive id value).on g = g.replacedBy (g.setActive id value) := by
  rw [setActive, Graph.setActive, on_bind, on_read]
  cases g.checkNode id with
  | error fault => rfl
  | ok _ =>
    dsimp only
    rw [on_bind, assignActive, on_assign]
    cases h : (Outcome.store g.table.active id value : Outcome GraphError (Array Bool)) <;> rfl

/-- Nodes that are there are activated one after the other. -/
theorem on_forM_assignActive {branch : List NodeId} (g : Graph α)
    (hbranch : ∀ id ∈ branch, id < g.table.active.size) :
    ∃ column, branch.foldlM (fun active i => Outcome.store active i true) g.table.active =
        (.ok column : Outcome GraphError (Array Bool)) ∧
      on (branch.forM fun id => assignActive id true) g =
        (.ok (), { g with table := { g.table with active := column } }) := by
  induction branch generalizing g with
  | nil => exact ⟨_, rfl, rfl⟩
  | cons id branch ih =>
    have hid := hbranch id (by simp)
    let next : Graph α := { g with table := { g.table with active := g.table.active.set id true } }
    have hstore : (Outcome.store g.table.active id true : Outcome GraphError (Array Bool)) =
        .ok (g.table.active.set id true) := Outcome.store_of_lt hid
    have hfirst : on (assignActive id true) g = (.ok (), next) := by
      rw [assignActive, on_assign, hstore]
      rfl
    obtain ⟨column, hcolumn, hrest⟩ := ih next fun p hp => by
      simpa [next] using hbranch p (List.mem_cons_of_mem _ hp)
    refine ⟨column, ?_, ?_⟩
    · rw [List.foldlM_cons, hstore]
      exact hcolumn
    · change on (assignActive id true >>= fun _ => branch.forM fun id => assignActive id true) g = _
      rw [on_bind, hfirst]
      exact hrest

theorem on_activateBranch (hg : g.table.WellFormed) (id : NodeId) :
    (activateBranch id).on g = g.committed (g.activateBranch id) := by
  rw [activateBranch, Graph.activateBranch, on_bind, on_read]
  cases hid : g.checkNode id with
  | error fault => rfl
  | ok _ =>
    have hstart : ∀ p ∈ [id], p < g.size := by simpa using Graph.checkNode_eq_ok.1 hid
    obtain ⟨branch, hbranch, hwalked⟩ :=
      NodeTable.exists_ancestry (ε := GraphError) hg hstart
    obtain ⟨column, hcolumn, hloop⟩ := on_forM_assignActive g fun p hp =>
      hg.active.symm ▸ hwalked.inside p hp
    dsimp only
    rw [on_bind, on_read, hbranch, Outcome.ok_bind, Outcome.ok_bind, hcolumn]
    dsimp only
    rw [on_bind, hloop]
    rfl

theorem on_bypassInactive : bypassInactive.on g = g.committed g.bypassInactive := by
  rw [bypassInactive, Graph.bypassInactive, on_bind, on_read]
  cases g.table.compile <;> rfl

/-! ## Passes -/

section Passes

variable [Arith α]

/-- While a pass is running its tape is not in the graph, and a failing pass does not put it
back. -/
theorem on_runForward (x : Matrix α) (y : Option (List α)) :
    (runForward x y).on g =
      match g.runForward x y with
      | .ok (tape, values) => (.ok tape, { g with tape := none, values })
      | .error fault => (.error fault, { g with tape := none }) := by
  rw [runForward, on_bind, on_takeTape, Graph.runForward]
  cases g.currentTape with
  | error fault => rfl
  | ok tape =>
    dsimp only
    rw [on_bind, on_read, Outcome.ok_bind]
    cases tape.forward g.table x y <;> rfl

theorem on_evaluate (x : Matrix α) (y : Option (List α)) :
    (evaluate x y).on g = g.evaluate x y := by
  rw [evaluate, Graph.evaluate, on_bind, on_runForward]
  rcases g.runForward x y with fault | ⟨tape, values⟩ <;> rfl

theorem on_gradients (x : Matrix α) (y : List α) : (gradients x y).on g = g.gradients x y := by
  rw [gradients, Graph.gradients, on_bind, on_read]
  cases g.objectives with
  | nil => rfl
  | cons objective rest =>
    dsimp only
    rw [on_bind, on_runForward]
    rcases g.runForward x (some y) with fault | ⟨tape, values⟩
    · rfl
    · dsimp only
      rw [on_bind, on_read, Outcome.ok_bind]
      dsimp only
      cases tape.backward g.table values objective <;> rfl

end Passes

/-! ## Actions -/

theorem on_map (f : β → γ) (e : Edit α β) (g : Graph α) :
    on (f <$> e) g = ((e.on g).1.map f, (e.on g).2) := by
  rw [map_eq_pure_bind, on_bind]
  rcases e.on g with ⟨_ | _, _⟩ <;> rfl

/-- An operation that says itself which graph it leaves behind. -/
def leaving (f : Graph α → Outcome GraphError β × Graph α) : Edit α β := f

@[simp] theorem on_leaving (f : Graph α → Outcome GraphError β × Graph α) (g : Graph α) :
    (leaving f).on g = f g :=
  rfl

/-- An edit that adds no node. -/
def addingNone (e : Edit α β) : Edit α (Option NodeId) := (fun _ => none) <$> e

variable [Arith α]

/-- An action as an edit; answers the node that it has added, if any. -/
def perform : Action α → Edit α (Option NodeId)
  | .addInput name => some <$> addInput name
  | .appendInput name => some <$> appendInput name
  | .addNode op parents name => some <$> addNode op parents name
  | .addOutput parents name => some <$> addOutput parents name
  | .addTarget name => some <$> addTarget name
  | .addObjective output target name => some <$> addObjective output target name
  | .setParams id params => addingNone (setParams id params)
  | .setConstant id value => addingNone (setConstant id value)
  | .setActive id value => addingNone (setActive id value)
  | .setAllActive value => addingNone (setAllActive value)
  | .activateBranch id => addingNone (activateBranch id)
  | .activateOnly keep => addingNone (activateOnly keep)
  | .bypassInactive => addingNone bypassInactive
  | .setDropped id value => addingNone (setDropped id value)
  | .clearDropped => addingNone clearDropped
  | .evaluate x y => addingNone (evaluate x y)
  | .gradients x y => addingNone (gradients x y)
  | .optimize optimizer x y n rate =>
    addingNone (leaving fun g =>
      let s := (optimizer.run g x y n rate).1
      (s.outcome, s.graph))

end Edit

/-- Whether an action evaluates the graph. -/
def Action.isPass {α : Type} : Action α → Bool
  | .evaluate .. | .gradients .. | .optimize .. => true
  | _ => false

section Committed

variable {α β : Type} {g : Graph α}

theorem Graph.committed_snd (outcome : Outcome GraphError (β × Graph α)) :
    (g.committed outcome).2 = g.leftBy (outcome.map Prod.snd) := by
  rcases outcome with fault | ⟨b, g'⟩ <;> rfl

theorem Graph.replacedBy_snd (outcome : Outcome GraphError (Graph α)) :
    (g.replacedBy outcome).2 = g.leftBy outcome := by
  cases outcome <;> rfl

end Committed

namespace Edit

variable {α β γ : Type} {g : Graph α}

/-- An edit that keeps the old graph if it fails keeps it whatever its answer is turned into. -/
theorem map_atomic {e : Edit α β} {outcome : Outcome GraphError (β × Graph α)} (f : β → γ)
    {fault : Fault GraphError} (he : e.on g = g.committed outcome)
    (h : (on (f <$> e) g).1 = .error fault) : (on (f <$> e) g).2 = g := by
  rw [on_map, he] at h ⊢
  cases outcome with
  | error _ => rfl
  | ok p => cases h

variable [Arith α]

/-- What an action leaves behind. -/
theorem on_perform_of_wellFormed (hg : g.table.WellFormed) (a : Action α) :
    ((perform a).on g).2 = g.after a := by
  cases a with
  | addInput name => rw [perform, on_map, on_addInput, Graph.committed_snd, Graph.after]
  | appendInput name => rw [perform, on_map, on_appendInput, Graph.after]
  | addNode op ps name => rw [perform, on_map, on_addNode, Graph.committed_snd, Graph.after]
  | addOutput ps name => rw [perform, on_map, on_addOutput, Graph.committed_snd, Graph.after]
  | addTarget name => rw [perform, on_map, on_addTarget, Graph.after]
  | addObjective output target name =>
    rw [perform, on_map, on_addObjective, Graph.committed_snd, Graph.after]
  | setParams id params =>
    rw [perform, addingNone, on_map, on_setParams, Graph.replacedBy_snd, Graph.after]
  | setConstant id value =>
    rw [perform, addingNone, on_map, on_setConstant, Graph.replacedBy_snd, Graph.after]
  | setActive id value =>
    rw [perform, addingNone, on_map, on_setActive, Graph.replacedBy_snd, Graph.after]
  | setAllActive value => rfl
  | activateBranch id =>
    rw [perform, addingNone, on_map, on_activateBranch hg, Graph.committed_snd, Graph.after]
  | activateOnly keep => rfl
  | bypassInactive =>
    rw [perform, addingNone, on_map, on_bypassInactive, Graph.committed_snd, Graph.after]
  | setDropped id value =>
    rw [perform, addingNone, on_map, on_setDropped, Graph.replacedBy_snd, Graph.after]
  | clearDropped => rfl
  | evaluate x y => rw [perform, addingNone, on_map, on_evaluate, Graph.after]
  | gradients x y => rw [perform, addingNone, on_map, on_gradients, Graph.after]
  | optimize o x y n rate => rw [perform, addingNone, on_map, on_leaving, Graph.after]

theorem on_perform (hg : g.table.Sound) (a : Action α) : ((perform a).on g).2 = g.after a :=
  on_perform_of_wellFormed hg.wellFormed a

/-- A failing action leaves the old graph behind, unless it is a pass. -/
theorem perform_atomic (hg : g.table.Sound) {a : Action α} {fault : Fault GraphError}
    (ha : a.isPass = false) (h : ((perform a).on g).1 = .error fault) :
    ((perform a).on g).2 = g := by
  cases a with
  | addInput name => exact map_atomic some (on_addInput name) h
  | appendInput name => cases h
  | addNode op ps name => exact map_atomic some (on_addNode op ps name) h
  | addOutput ps name => exact map_atomic some (on_addOutput ps name) h
  | addTarget name => cases h
  | addObjective output target name => exact map_atomic some (on_addObjective output target name) h
  | setParams id params => exact map_atomic _ (on_setParams id params) h
  | setConstant id value => exact map_atomic _ (on_setConstant id value) h
  | setActive id value => exact map_atomic _ (on_setActive id value) h
  | setAllActive value => cases h
  | activateBranch id => exact map_atomic _ (on_activateBranch hg.wellFormed id) h
  | activateOnly keep => cases h
  | bypassInactive => exact map_atomic _ on_bypassInactive h
  | setDropped id value => exact map_atomic _ (on_setDropped id value) h
  | clearDropped => cases h
  | evaluate x y => cases ha
  | gradients x y => cases ha
  | optimize o x y n rate => cases ha

end Edit

/-! ## Runs -/

namespace Graph

variable {α : Type} [Arith α]

/-- The graph after a sequence of actions, from the empty graph on. -/
def run (acts : List (Action α)) : Graph α :=
  acts.foldl (fun g a => ((Edit.perform a).on g).2) empty

/-- The graph after some more actions. -/
def afterAll (g : Graph α) (acts : List (Action α)) : Graph α :=
  acts.foldl (fun g a => ((Edit.perform a).on g).2) g

/-- The actions of a sequence, each with the graph that it meets. -/
def trail (acts : List (Action α)) : List (Graph α × Action α) :=
  acts.zipIdx.map fun (a, k) => (run (acts.take k), a)

@[simp] theorem run_nil : run ([] : List (Action α)) = empty := rfl

@[simp] theorem run_concat (acts : List (Action α)) (a : Action α) :
    run (acts ++ [a]) = ((Edit.perform a).on (run acts)).2 := by
  simp [run]

@[simp] theorem trail_nil : trail ([] : List (Action α)) = [] := rfl

@[simp] theorem trail_concat (acts : List (Action α)) (a : Action α) :
    trail (acts ++ [a]) = trail acts ++ [(run acts, a)] := by
  have hearlier : ∀ p ∈ acts.zipIdx, (run ((acts ++ [a]).take p.2), p.1) =
      (run (acts.take p.2), p.1) := by
    intro p hp
    have hlt := (List.mem_zipIdx hp).2.1
    rw [List.take_append_of_le_length (by omega)]
  rw [trail, trail, List.zipIdx_append, List.map_append, List.map_congr_left hearlier]
  simp

theorem reachable_run (acts : List (Action α)) : (run acts).Reachable := by
  induction acts using List.reverseRecOn with
  | nil => exact .empty
  | append_singleton acts a ih =>
    rw [run_concat, Edit.on_perform ih.sound.table]
    exact ih.after a

theorem Sound.afterAll {g : Graph α} (hg : g.Sound) (acts : List (Action α)) :
    (g.afterAll acts).Sound := by
  induction acts generalizing g with
  | nil => exact hg
  | cons a acts ih =>
    have hnext : ((Edit.perform a).on g).2.Sound := by
      rw [Edit.on_perform hg.table]
      exact hg.after a
    exact ih hnext

/-- Every graph that actions lead to is the graph after a sequence of them. -/
theorem Reachable.exists_run {g : Graph α} (h : g.Reachable) : ∃ acts, run acts = g := by
  induction h with
  | empty => exact ⟨[], rfl⟩
  | @after g h a ih =>
    obtain ⟨acts, rfl⟩ := ih
    exact ⟨acts ++ [a], by rw [run_concat, Edit.on_perform h.sound.table]⟩

end Graph

end FeatureGraph
