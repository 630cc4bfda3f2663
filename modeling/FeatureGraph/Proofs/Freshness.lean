import FeatureGraph.Proofs.Alike
import FeatureGraph.Proofs.Edit
import FeatureGraph.Arith.Double

/-!
# Cached columns are not stale

`Graph.log` lists what happens to the nodes and the columns of a graph in the course of a run:
nodes are added, activation changes, inactive nodes are bypassed, and forward passes succeed or
fail.  A descent makes one pass for each of its steps, and each of them is listed.

`Graph.Current` says what the caches of a graph are good for.  If there is a tape, then there
are either no columns, or the last thing that has happened was a successful pass, and the
columns are those that the pass would compute from scratch.

* `runForward_restored` says what a pass from scratch depends on.
* `Current.keep`, `Current.forget` and `Current.afterForward` are the three kinds of steps, and
  `Current.perform` is one action.
* `vals?_fresh` is the statement about runs.
-/

namespace FeatureGraph

/-- What happens to the nodes and the columns of a graph. -/
inductive Happening (α : Type) where
  | added
  | activated
  | bypassed
  /-- A forward pass has succeeded, with the parameters and drop flags that the graph then had. -/
  | passed (params : Array (List α)) (dropped : Array Bool) (x : Matrix α) (y : Option (List α))
  /-- A forward pass has failed. -/
  | failed

namespace Graph

variable {α : Type}

/-- The graph without tape and columns, and with other parameters and drop flags. -/
def restored (g : Graph α) (params : Array (List α)) (dropped : Array Bool) : Graph α :=
  { g with table := { g.table with params, dropped }, tape := none, values := {} }

section Log

variable [Arith α]

/-- What a forward pass makes happen. -/
def passing (g : Graph α) (x : Matrix α) (y : Option (List α)) : List (Happening α) :=
  match ((Edit.runForward x y).on g).1 with
  | .ok _ => [.passed g.table.params g.table.dropped x y]
  | .error _ => [.failed]

/-- Gradients are computed behind a forward pass, if there is an objective. -/
def descending (g : Graph α) (x : Matrix α) (y : List α) : List (Happening α) :=
  match g.objectives with
  | [] => []
  | _ :: _ => g.passing x (some y)

/-- What the steps of a descent make happen, up to the first one that fails. -/
def descent (x : Matrix α) (y : List α) (rate : α) (nodes : List NodeId) :
    Nat → Optimizer α → Graph α → List (Happening α)
  | 0, _, _ => []
  | n + 1, o, g =>
    g.descending x y ++
      match o.step g x y rate nodes with
      | ⟨.error _, _, _⟩ => []
      | ⟨.ok _, g, o⟩ => descent x y rate nodes n o g

/-- What an action makes happen if it succeeds. -/
def achieving (g : Graph α) (a : Action α) (event : Happening α) : List (Happening α) :=
  match ((Edit.perform a).on g).1 with
  | .ok _ => [event]
  | .error _ => []

/-- What an action makes happen to a graph. -/
def happenings (g : Graph α) (a : Action α) : List (Happening α) :=
  match a with
  | .addInput _ | .appendInput _ | .addNode .. | .addOutput .. | .addTarget _
  | .addObjective .. => g.achieving a .added
  | .setActive .. | .setAllActive _ | .activateBranch _ | .activateOnly _ =>
    g.achieving a .activated
  | .bypassInactive => g.achieving a .bypassed
  | .setParams .. | .setConstant .. | .setDropped .. | .clearDropped => []
  | .evaluate x y => g.passing x y
  | .gradients x y => g.descending x y
  | .optimize optimizer x y n rate =>
    match (g.table.trainable : Outcome GraphError (List NodeId)) with
    | .error _ => []
    | .ok nodes => descent x y rate nodes n optimizer g

/-- All that has happened in a run. -/
def log (acts : List (Action α)) : List (Happening α) :=
  (trail acts).flatMap fun (g, a) => g.happenings a

end Log

/-! ## Passes from scratch -/

section Scratch

variable [Arith α] {g g' : Graph α}

/-- A pass from scratch depends on the nodes and on what is active, if parameters and drop flags
are given. -/
theorem runForward_restored (hsame : SameNodes g g') (hactive : g'.table.active = g.table.active)
    (params : Array (List α)) (dropped : Array Bool) (x : Matrix α) (y : Option (List α)) :
    (g'.restored params dropped).runForward x y = (g.restored params dropped).runForward x y := by
  have hshape : NodeTable.SameShape (g.restored params dropped).table
      (g'.restored params dropped).table :=
    ⟨hsame.size, hsame.labels, hsame.parentIds, hsame.parentSpans, hactive⟩
  have htape : (g'.restored params dropped).currentTape =
      (g.restored params dropped).currentTape := hshape.compile
  have hforward : ∀ tape : Tape, tape.forward (g'.restored params dropped).table x y =
      tape.forward (g.restored params dropped).table x y := fun _ =>
    Tape.forward_congr (t := (g.restored params dropped).table)
      (u := (g'.restored params dropped).table) hsame.ops hsame.labels (fun _ _ => rfl)
      (fun _ _ => rfl) x y
  rw [runForward, runForward, htape]
  simp only [hforward]

/-- A pass over a sound graph is a pass from scratch. -/
theorem runForward_eq_restored (hg : g.Sound) (x : Matrix α) (y : Option (List α)) :
    g.runForward x y = (g.restored g.table.params g.table.dropped).runForward x y := by
  rw [runForward, hg.currentTape_eq]
  rfl

end Scratch

/-! ## The invariant -/

section Invariant

variable [Arith α]

/-- The columns of a graph with a tape, if there are any, are those of the pass that is the last
thing in the log. -/
def Current (g : Graph α) (log : List (Happening α)) : Prop :=
  ∀ tape, g.tape = some tape → g.values.columns = #[] ∨
    ∃ earlier params dropped x y, log = earlier ++ [.passed params dropped x y] ∧
      (g.restored params dropped).runForward x y = .ok (tape, g.values)

variable {g g' : Graph α} {past : List (Happening α)}

theorem current_empty : (empty : Graph α).Current [] := nofun

/-- Without a tape nothing is promised. -/
theorem Current.forget (htape : g.tape = none) (past : List (Happening α)) : g.Current past := by
  intro tape h
  rw [htape] at h
  cases h

/-- Parameters, constants and drop flags may change. -/
theorem Current.keep (h : g.Current past) (hsame : SameNodes g g')
    (hactive : g'.table.active = g.table.active) (htape : g'.tape = g.tape)
    (hvalues : g'.values = g.values) : g'.Current past := by
  intro tape hcached
  rw [htape] at hcached
  rw [hvalues]
  rcases h tape hcached with hnone | ⟨earlier, params, dropped, x, y, hlog, hpass⟩
  · exact .inl hnone
  · right
    refine ⟨earlier, params, dropped, x, y, hlog, ?_⟩
    rw [runForward_restored hsame hactive, hpass]

/-- A forward pass, successful or not. -/
theorem Current.afterForward (hg : g.Sound) (x : Matrix α) (y : Option (List α)) :
    (g.afterForward (g.runForward x y)).Current (past ++ g.passing x y) := by
  unfold passing
  rw [Edit.on_runForward]
  cases hrun : g.runForward x y with
  | error fault => exact .forget rfl _
  | ok p =>
    intro tape htape
    right
    refine ⟨past, g.table.params, g.table.dropped, x, y, rfl, ?_⟩
    rw [← Option.some.inj htape]
    change (g.restored g.table.params g.table.dropped).runForward x y = _
    rw [← runForward_eq_restored hg, hrun]
    rfl

theorem Current.gradients (h : g.Current past) (hg : g.Sound) (x : Matrix α) (y : List α) :
    (g.gradients x y).2.Current (past ++ g.descending x y) := by
  unfold Graph.gradients descending
  cases g.objectives with
  | nil =>
    rw [List.append_nil]
    exact h
  | cons objective rest => exact .afterForward hg x (some y)

/-! ## Descents -/

/-- The updates behind the gradients of a step change parameters only. -/
theorem Current.step (h : g.Current past) (hg : g.Sound) (o : Optimizer α) (x : Matrix α)
    (y : List α) (rate : α) (nodes : List NodeId) :
    (o.step g x y rate nodes).graph.Current (past ++ g.descending x y) := by
  have hupdates : Optimizer.KeptByUpdates nodes (·.Current (past ++ g.descending x y)) :=
    fun g' id _ _ ps _ _ hcurrent =>
      hcurrent.keep ((SameNodes.refl g').withColumns _ _ _ _ _ _) rfl rfl rfl
  exact hupdates.step (h.gradients hg x y) o rate

theorem Current.steps? (h : g.Current past) (hg : g.Sound) (o : Optimizer α) (x : Matrix α)
    (y : List α) (rate : α) (nodes : List NodeId) (n : Nat) :
    (Optimizer.steps? x y rate nodes n o g).graph.Current
      (past ++ descent x y rate nodes n o g) := by
  induction n generalizing o g past with
  | zero =>
    rw [descent, List.append_nil]
    exact h
  | succ n ih =>
    have hstep := h.step hg o x y rate nodes
    have hsound := hg.step o x y rate nodes
    rw [descent, ← List.append_assoc]
    unfold Optimizer.steps?
    rcases hrun : o.step g x y rate nodes with ⟨outcome, g', o'⟩
    rw [hrun] at hstep hsound
    cases outcome with
    | error fault =>
      rw [List.append_nil]
      exact hstep
    | ok loss => exact ih hstep hsound o'

theorem Current.run (h : g.Current past) (hg : g.Sound) (o : Optimizer α) (x : Matrix α)
    (y : List α) (n : Nat) (rate : α) :
    (o.run g x y n rate).1.graph.Current
      (past ++ g.happenings (.optimize o x y n rate)) := by
  unfold Optimizer.run happenings
  dsimp only
  cases (g.table.trainable : Outcome GraphError (List NodeId)) with
  | error fault =>
    rw [List.append_nil]
    exact h
  | ok nodes =>
    have hsteps := h.steps? hg o x y rate nodes n
    dsimp only
    split <;> exact hsteps

/-! ## Runs -/

/-- An action that keeps the old graph if it fails, and no tape or no columns if it succeeds. -/
theorem Current.achieving {β : Type} {e : Edit α β} {f : β → Option NodeId}
    {outcome : Outcome GraphError (β × Graph α)} {a : Action α} (h : g.Current past)
    (event : Happening α) (ha : Edit.perform a = f <$> e) (he : e.on g = g.committed outcome)
    (hdone : ∀ p, outcome = .ok p → p.2.tape = none ∨ p.2.values.columns = #[]) :
    ((Edit.perform a).on g).2.Current (past ++ g.achieving a event) := by
  unfold Graph.achieving
  rw [ha, Edit.on_map, he]
  cases outcome with
  | error fault =>
    change g.Current (past ++ [])
    rw [List.append_nil]
    exact h
  | ok p =>
    rcases hdone p rfl with htape | hvalues
    · exact .forget htape _
    · exact fun _ _ => .inl hvalues

/-- An action that replaces parameters, constants or drop flags if it succeeds. -/
theorem Current.replacing {outcome : Outcome GraphError (Graph α)} (h : g.Current past)
    (hdone : ∀ g', outcome = .ok g' → ∃ params constant dropped, g' = { g with
      table := { g.table with params, constant, dropped } }) :
    (g.leftBy outcome).Current (past ++ []) := by
  rw [List.append_nil]
  cases outcome with
  | error fault => exact h
  | ok g' =>
    obtain ⟨params, constant, dropped, rfl⟩ := hdone g' rfl
    exact h.keep ((SameNodes.refl g).withColumns _ _ _ _ _ _) rfl rfl rfl

/-- Every action keeps the invariant. -/
theorem Current.perform (h : g.Current past) (hg : g.Sound) (a : Action α) :
    ((Edit.perform a).on g).2.Current (past ++ g.happenings a) := by
  have htable := hg.table
  cases a with
  | addInput name =>
    refine h.achieving _ rfl (Edit.on_addInput name) fun p hp => .inl ?_
    rw [(addInput_eq_ok.1 hp).2]
    rfl
  | appendInput name => exact .forget rfl _
  | addNode op ps name =>
    refine h.achieving _ rfl (Edit.on_addNode op ps name) fun p hp => .inl ?_
    obtain ⟨_, _, _, rfl⟩ := addNode_eq_ok.1 hp
    rfl
  | addOutput ps name =>
    refine h.achieving _ rfl (Edit.on_addOutput ps name) fun p hp => .inl ?_
    obtain ⟨_, _, rfl⟩ := addOutput_eq_ok.1 hp
    rfl
  | addTarget name => exact .forget rfl _
  | addObjective output target name =>
    refine h.achieving _ rfl (Edit.on_addObjective output target name) fun p hp => .inl ?_
    obtain ⟨_, _, rfl⟩ := addObjective_eq_ok.1 hp
    rfl
  | setParams id ps =>
    rw [Edit.on_perform htable]
    exact h.replacing fun g' hg' => ⟨_, _, _, ((setParams_eq_ok htable).1 hg').2⟩
  | setConstant id value =>
    rw [Edit.on_perform htable]
    exact h.replacing fun g' hg' => ⟨_, _, _, ((setConstant_eq_ok htable).1 hg').2⟩
  | setActive id value =>
    refine h.achieving _ rfl ((Edit.on_setActive id value).trans rfl) fun p hp => .inl ?_
    obtain ⟨g', hg', rfl⟩ := Outcome.map_eq_ok.1 hp
    rw [((setActive_eq_ok htable).1 hg').2]
    rfl
  | setAllActive value => exact .forget rfl _
  | activateBranch id =>
    refine h.achieving _ rfl (Edit.on_activateBranch htable.wellFormed id) fun p hp => .inl ?_
    obtain ⟨column, _, hactive⟩ := of_activateBranch_eq_ok hp
    rw [hactive]
    rfl
  | activateOnly keep => exact .forget rfl _
  | bypassInactive =>
    refine h.achieving _ rfl Edit.on_bypassInactive fun p hp => .inr ?_
    obtain ⟨tape, _, rfl⟩ := bypassInactive_eq_ok.1 hp
    rfl
  | setDropped id value =>
    rw [Edit.on_perform htable]
    exact h.replacing fun g' hg' => ⟨_, _, _, ((setDropped_eq_ok htable).1 hg').2⟩
  | clearDropped =>
    change (g.leftBy (.ok g.clearDropped)).Current (past ++ [])
    exact h.replacing fun g' hg' => ⟨_, _, _, (Except.ok.inj hg').symm⟩
  | evaluate x y =>
    rw [Edit.on_perform htable]
    exact .afterForward hg x y
  | gradients x y =>
    rw [Edit.on_perform htable]
    exact h.gradients hg x y
  | optimize o x y n rate =>
    rw [Edit.on_perform htable]
    exact h.run hg o x y n rate

theorem current_run (acts : List (Action α)) : (run acts).Current (log acts) := by
  induction acts using List.reverseRecOn with
  | nil => exact current_empty
  | append_singleton acts a ih =>
    have hlog : log (acts ++ [a]) = log acts ++ (run acts).happenings a := by simp [log]
    rw [hlog, run_concat]
    exact ih.perform (reachable_run acts).sound a

/-- After any sequence of actions, failed ones included, a cached tape is the one that the table
compiles to.  And if a node has a column, then the last thing that has happened is a successful
pass, and the graph without its caches, with the parameters and drop flags of that pass, computes
the same column on the same data. -/
theorem vals?_fresh (acts : List (Action α)) :
    (∀ tape, (run acts).tape = some tape → (run acts).table.compile = .ok tape) ∧
    ∀ id column, (run acts).vals? id = some column →
      ∃ earlier params dropped x y, log acts = earlier ++ [.passed params dropped x y] ∧
        ((Edit.evaluate x y).on ((run acts).restored params dropped)).1 = .ok () ∧
        ((Edit.evaluate x y).on ((run acts).restored params dropped)).2.vals? id =
          some column := by
  refine ⟨(reachable_run acts).sound.tape, fun id column hcolumn => ?_⟩
  obtain ⟨tape, htape, hslot⟩ := Option.bind_eq_some_iff.1 hcolumn
  obtain ⟨slot, hslot, hget⟩ := Option.bind_eq_some_iff.1 hslot
  rcases current_run acts tape htape with hnone | ⟨earlier, params, dropped, x, y, hlog, hpass⟩
  · rw [hnone] at hget
    cases hget
  · refine ⟨earlier, params, dropped, x, y, hlog, ?_, ?_⟩
    · rw [Edit.on_evaluate, evaluate, hpass]
      rfl
    · rw [Edit.on_evaluate, evaluate, hpass]
      change tape.slotOf? id >>= (fun slot => (run acts).values.columns[slot]?) = _
      rw [hslot]
      exact hget

end Invariant

/-- A line is evaluated, its parameters change, and a node over a missing parent is refused. -/
def evaluatedLine : List (Action Float) :=
  [.addInput "x", .addOutput [0] "line", .evaluate (.ofFn 2 1 fun _ _ => 3) none,
    .setParams 1 [5, 1], .addNode .exp [9] "e"]

/-- The line keeps its column, which is the one of the old parameters. -/
theorem vals?_fresh_evaluatedLine :
    ∃ column, (run evaluatedLine).vals? 1 = some column ∧
      ∃ earlier params dropped x y,
        log evaluatedLine = earlier ++ [.passed params dropped x y] ∧
        ((Edit.evaluate x y).on ((run evaluatedLine).restored params dropped)).1 = .ok () ∧
        ((Edit.evaluate x y).on ((run evaluatedLine).restored params dropped)).2.vals? 1 =
          some column :=
  ⟨_, rfl, (vals?_fresh evaluatedLine).2 1 _ rfl⟩

end Graph

end FeatureGraph
