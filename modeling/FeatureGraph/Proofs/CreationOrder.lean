import FeatureGraph.Proofs.Activation
import FeatureGraph.Proofs.Compilation
import FeatureGraph.Proofs.Pinned
import FeatureGraph.Proofs.Refusal
import FeatureGraph.Proofs.Representation

/-!
# The order of a graph is that of its additions

In a graph that actions lead to every parent has been there before its child, so the sort answers
the nodes in the order in which they have been added, and a tape keeps the active ones in this
order.

* `NamesNoCycle` is a fault that speaks of no cycle.  The lemmas after it go through the operations;
  `Sound.meets_compile` is the one that has to look at the order, and `Sound.meets_perform` is one
  action.
* `Prolongs` is what adding nodes does to the active ones: those that are there stay in front.
  `Prolongs.after` is one addition and `prolongs_afterAll` is a run of them.
* `Prolongs.slotOf?_eq` says that they keep their slots.
* `Reachable.runs_in_creation_order` puts the two together.
-/

namespace FeatureGraph

variable {α β : Type}

open Outcome (Meets meets_ok meets_error meets_forM unrefused_fetch unrefused_store)

/-! ## Faults -/

/-- A fault that speaks of no cycle. -/
def NamesNoCycle : Fault GraphError → Prop
  | .failure (.cycle _) => False
  | _ => True

/-- What is never refused is not refused for a cycle. -/
theorem Outcome.Meets.namesNoCycle {P : β → Prop} {outcome : Outcome GraphError β}
    (h : Meets (· = .outOfRange) P outcome) : Meets NamesNoCycle P outcome :=
  h.fault fun _ hfault => hfault ▸ trivial

namespace Graph

variable {g : Graph α} {id : NodeId}

section Edits

variable {γ : Type} {F : Fault GraphError → Prop} {P : β × Graph α → Prop} {e : Edit α β}
  {outcome : Outcome GraphError (β × Graph α)}

/-- An edit fails in the same ways whatever is made of its answer. -/
theorem meets_map (f : β → γ) (h : Meets F (fun _ => True) (e.on g).1) :
    Meets F (fun _ => True) ((f <$> e).on g).1 := by
  rw [Edit.on_map]
  exact h.map fun _ _ => trivial

/-- An edit that commits an outcome fails as the outcome does. -/
theorem meets_of_committed (f : β → γ) (hon : e.on g = g.committed outcome)
    (h : Meets F P outcome) : Meets F (fun _ => True) ((f <$> e).on g).1 := by
  refine meets_map f ?_
  rw [hon]
  cases outcome with
  | error fault => exact meets_error (h.error fault rfl)
  | ok p => exact meets_ok trivial

theorem meets_of_replacedBy {P : Graph α → Prop} {e : Edit α Unit}
    {outcome : Outcome GraphError (Graph α)} (f : Unit → γ) (hon : e.on g = g.replacedBy outcome)
    (h : Meets F P outcome) : Meets F (fun _ => True) ((f <$> e).on g).1 :=
  meets_of_committed f hon (h.map (Q := fun _ => True) fun _ _ => trivial)

end Edits

theorem meets_checkNode (g : Graph α) (id : NodeId) :
    Meets NamesNoCycle (fun _ => True) (g.checkNode id) := by
  unfold checkNode
  split
  · exact meets_ok trivial
  · exact meets_error trivial

theorem meets_checkParents (g : Graph α) (op : Primitive) (ps : List NodeId) (name : String) :
    Meets NamesNoCycle (fun _ => True) (g.checkParents op ps name) := by
  refine (meets_forM trivial fun p _ => g.meets_checkNode p).bind fun _ _ => ?_
  split
  · exact meets_ok trivial
  · exact meets_error trivial

section Adding

variable [Arith α]

theorem meets_addInput (g : Graph α) (name : String) :
    Meets NamesNoCycle (fun _ => True) (g.addInput name) := by
  unfold addInput
  split
  · exact meets_ok trivial
  · exact meets_error trivial

theorem meets_addNode (g : Graph α) (op : Primitive) (ps : List NodeId) (name : String) :
    Meets NamesNoCycle (fun _ => True) (g.addNode op ps name) := by
  unfold addNode
  split
  · exact meets_error trivial
  · exact (g.meets_checkParents op ps name).bind fun _ _ => meets_ok trivial

theorem meets_addOutput (g : Graph α) (ps : List NodeId) (name : String) :
    Meets NamesNoCycle (fun _ => True) (g.addOutput ps name) :=
  (g.meets_checkParents .output ps name).bind fun _ _ => meets_ok trivial

theorem meets_addObjective (g : Graph α) (output target : NodeId) (name : String) :
    Meets NamesNoCycle (fun _ => True) (g.addObjective output target name) :=
  (g.meets_checkParents .objective [output, target] name).bind fun _ _ => meets_ok trivial

end Adding

/-- Writing to a column, at a node that has to be there. -/
theorem meets_store_at {column : Array β} {b : β} {build : Array β → Graph α} :
    Meets NamesNoCycle (fun _ => True) (do
      g.checkNode id
      let c ← Outcome.store column id b
      return build c) :=
  (g.meets_checkNode id).bind fun _ _ =>
    (unrefused_store column id b).namesNoCycle.bind fun _ _ => meets_ok trivial

theorem meets_setParams (g : Graph α) (id : NodeId) (params : List α) :
    Meets NamesNoCycle (fun _ => True) (g.setParams id params) := by
  refine (g.meets_checkNode id).bind fun _ _ => ?_
  refine (unrefused_fetch g.table.ops id).namesNoCycle.bind fun op _ => ?_
  refine (g.table.unrefused_parents id).namesNoCycle.bind fun ps _ => ?_
  dsimp only
  split
  · exact (unrefused_fetch g.table.labels id).namesNoCycle.bind fun _ _ => meets_error trivial
  · exact (unrefused_store g.table.params id params).namesNoCycle.bind fun _ _ => meets_ok trivial

theorem meets_activateBranch (hg : g.Sound) (id : NodeId) :
    Meets NamesNoCycle (fun _ => True) ((Edit.activateBranch id).on g).1 := by
  cases hid : g.checkNode id with
  | error fault =>
    rw [Edit.activateBranch, Edit.on_bind, Edit.on_read, hid]
    exact meets_error ((g.meets_checkNode id).error fault hid)
  | ok _ =>
    obtain ⟨branch, _, hrun⟩ := exists_activateBranch hg.table.wellFormed (checkNode_eq_ok.1 hid)
    rw [hrun]
    exact meets_ok trivial

/-- The table of a sound graph has no cycle, so that compiling it can only fail for an active node
over an inactive one. -/
theorem Sound.meets_compile (hg : g.Sound) :
    Meets NamesNoCycle (fun _ => g.table.Closed) g.table.compile := by
  have hacyclic : g.table.Acyclic :=
    hg.table.wellFormed.linked.exists_sort_iff.1 ⟨_, NodeTable.sort_eq hg.table⟩
  constructor
  · intro fault hfault
    have hobstacle := g.table.meets_compile.error fault hfault
    cases fault with
    | outOfRange => trivial
    | failure reason =>
      rcases hobstacle with ⟨c, hcycle, _⟩ | ⟨_, _, _, _, _, _, _, _, _, rfl⟩
      · exact absurd hcycle (hacyclic c.node)
      · trivial
  · exact fun _ htape => ((NodeTable.compile_eq_ok_iff hg.table).1 htape).1

section Passes

variable [Arith α] {x : Matrix α}

theorem meets_runForward (hg : g.Sound) (x : Matrix α) (y : Option (List α)) :
    Meets NamesNoCycle (fun _ => True) (g.runForward x y) := by
  refine ⟨fun fault hfault => ?_, fun _ _ => trivial⟩
  cases hcompile : g.table.compile with
  | error cause =>
    rw [runForward, hg.currentTape_eq, hcompile] at hfault
    obtain rfl : cause = fault := Except.error.inj hfault
    exact hg.meets_compile.error cause hcompile
  | ok tape =>
    cases fault with
    | outOfRange => trivial
    | failure reason =>
      obtain ⟨_, rfl⟩ := exists_mismatch_of_runForward hg (hg.meets_compile.ok _ hcompile) hfault
      trivial

theorem meets_evaluate (hg : g.Sound) (x : Matrix α) (y : Option (List α)) :
    Meets NamesNoCycle (fun _ => True) (g.evaluate x y).1 :=
  (meets_runForward hg x y).map fun _ _ => trivial

theorem meets_gradients (hg : g.Sound) (x : Matrix α) (y : List α) :
    Meets NamesNoCycle (fun _ => True) (g.gradients x y).1 := by
  rcases gradients_fst_cases (x := x) (y := y) hg with
    ⟨_, hok, _⟩ | ⟨hmissing, _⟩ | ⟨fault, hrun, hfault, _⟩
  · rw [hok]
    exact meets_ok trivial
  · rw [hmissing]
    exact meets_error trivial
  · rw [hfault]
    exact meets_error ((meets_runForward hg x (some y)).error fault hrun)

end Passes

end Graph

/-- Passes and updates keep a graph sound, and with a sound graph no pass names a cycle. -/
theorem Optimizer.descends_sound [Arith α] (x : Matrix α) (y : List α) :
    Optimizer.Descends x y NamesNoCycle Graph.Sound where
  outside := trivial
  pass _ hg := (Graph.meets_gradients hg x y).mono fun _ _ _ => hg.gradients x y
  updates _ := fun _ _ _ old _ hold hlength hg =>
    hg.of_change (.params _ (.inr ⟨old, hold, hlength⟩))

namespace Graph

variable [Arith α] {g g' g'' : Graph α}

/-- No action on a sound graph is refused for a cycle. -/
theorem Sound.meets_perform (hg : g.Sound) (a : Action α) :
    Meets NamesNoCycle (fun _ => True) ((Edit.perform a).on g).1 := by
  cases a with
  | addInput name => exact meets_of_committed _ (Edit.on_addInput name) (g.meets_addInput name)
  | appendInput name => exact meets_ok trivial
  | addNode op ps name =>
    exact meets_of_committed _ (Edit.on_addNode op ps name) (g.meets_addNode op ps name)
  | addOutput ps name =>
    exact meets_of_committed _ (Edit.on_addOutput ps name) (g.meets_addOutput ps name)
  | addTarget name => exact meets_ok trivial
  | addObjective output target name =>
    exact meets_of_committed _ (Edit.on_addObjective output target name)
      (g.meets_addObjective output target name)
  | setParams id ps =>
    exact meets_of_replacedBy _ (Edit.on_setParams id ps) (g.meets_setParams id ps)
  | setConstant id value =>
    exact meets_of_replacedBy _ (Edit.on_setConstant id value) meets_store_at
  | setActive id value =>
    exact meets_of_replacedBy _ (Edit.on_setActive id value) meets_store_at
  | setAllActive value => exact meets_ok trivial
  | activateBranch id => exact meets_map _ (meets_activateBranch hg id)
  | activateOnly keep => exact meets_ok trivial
  | bypassInactive =>
    exact meets_of_committed _ Edit.on_bypassInactive
      (hg.meets_compile.bind fun _ _ => meets_ok (P := fun _ => True) trivial)
  | setDropped id value =>
    exact meets_of_replacedBy _ (Edit.on_setDropped id value) meets_store_at
  | clearDropped => exact meets_ok trivial
  | evaluate x y =>
    refine meets_map _ ?_
    rw [Edit.on_evaluate]
    exact meets_evaluate hg x y
  | gradients x y =>
    refine meets_map _ ?_
    rw [Edit.on_gradients]
    exact meets_gradients hg x y
  | optimize o x y n rate =>
    refine meets_map _ ?_
    rw [Edit.on_leaving]
    exact (Optimizer.meets_run (P := Sound) trivial fun nodes =>
      (Optimizer.descends_sound x y).steps? hg o rate nodes n).mono fun _ _ _ => trivial

/-! ## More nodes -/

omit [Arith α] in
theorem Extends.refl (hg : g.Sound) : Extends g g where
  sound := hg
  size := Nat.le_refl _
  agree := ⟨fun _ _ => rfl, fun _ _ => rfl, fun _ _ => rfl, fun _ _ => rfl⟩
  constant _ _ := rfl

/-- The second graph is the first one with active nodes added at the end. -/
structure Prolongs (g g' : Graph α) : Prop extends Extends g g' where
  active : ∃ added, g'.table.activeIds = g.table.activeIds ++ added ∧ ∀ id ∈ added, g.size ≤ id

namespace Prolongs

omit [Arith α] in
theorem refl (hg : g.Sound) : Prolongs g g where
  toExtends := .refl hg
  active := ⟨[], by simp⟩

omit [Arith α] in
theorem trans (h : Prolongs g g') (h' : Prolongs g' g'') : Prolongs g g'' where
  toExtends := h.toExtends.trans h'.toExtends
  active := by
    obtain ⟨added, hadded, hnew⟩ := h.active
    obtain ⟨more, hmore, hnewer⟩ := h'.active
    refine ⟨added ++ more, by rw [hmore, hadded, List.append_assoc], fun id hid => ?_⟩
    rcases List.mem_append.1 hid with hid | hid
    · exact hnew id hid
    · exact Nat.le_trans h.size (hnewer id hid)

/-- An action that is there to add a node adds an active one, or none. -/
theorem after (hg : g.Sound) {a : Action α} (ha : a.isAdding = true) :
    Prolongs g (g.after a) := by
  rcases after_adding_cases g ha with hsame | ⟨op, ps, name, htable, _⟩
  · exact hsame.symm ▸ .refl hg
  · refine ⟨extends_of_table hg.table (hg.after a) htable, [g.size], ?_, by simp⟩
    rw [htable, NodeTable.activeIds_addNode hg.table]
    rfl

omit [Arith α] in
/-- The nodes that were there do not come to depend on a new one. -/
theorem closed (h : Prolongs g g') (hg : g.Sound) (hclosed : g'.table.Closed) :
    g.table.Closed := by
  obtain ⟨added, hadded, hnew⟩ := h.active
  intro id hid p hp
  have hlt : id < g.size := NodeTable.lt_size_of_mem_activeIds hid
  have hp' : p ∈ g'.table.activeIds := by
    refine hclosed id (hadded ▸ List.mem_append_left _ hid) p ?_
    rwa [h.agree.parents id hlt]
  rw [hadded, List.mem_append] at hp'
  refine hp'.resolve_right fun hlater => ?_
  exact Nat.lt_irrefl p ((hg.table.earlier id p hp).trans (hlt.trans_le (hnew p hlater)))

omit [Arith α] in
/-- The nodes that were there have the slots that they had. -/
theorem slotOf?_eq (h : Prolongs g g') {id : NodeId} (hid : id < g.size) :
    g'.table.straightTape.slotOf? id = g.table.straightTape.slotOf? id := by
  obtain ⟨added, hadded, hnew⟩ := h.active
  have hold : id ∉ added := fun hmem => Nat.not_lt.2 (hnew id hmem) hid
  rw [NodeTable.slotOf?_straightTape, NodeTable.slotOf?_straightTape, hadded]
  by_cases hmem : id ∈ g.table.activeIds
  · rw [if_pos hmem, if_pos (List.mem_append_left _ hmem), List.idxOf_append_of_mem hmem]
  · rw [if_neg hmem, if_neg (by simp [hmem, hold])]

end Prolongs

/-- A run of actions that are there to add nodes. -/
theorem prolongs_afterAll (hg : g.Sound) {acts : List (Action α)}
    (hacts : ∀ a ∈ acts, a.isAdding = true) : Prolongs g (g.afterAll acts) := by
  induction acts generalizing g with
  | nil => exact .refl hg
  | cons a acts ih =>
    have hnext : ((Edit.perform a).on g).2 = g.after a := Edit.on_perform hg.table a
    change Prolongs g (((Edit.perform a).on g).2.afterAll acts)
    rw [hnext]
    exact (Prolongs.after hg (hacts a (by simp))).trans
      (ih (hg.after a) fun b hb => hacts b (List.mem_cons_of_mem _ hb))

/-! ## Reachable graphs -/

/-- The execution order of a graph that actions lead to is the order in which its nodes have been
added.  The sort lists all nodes by their numbers; a tape that the graph holds or compiles to lists
the active ones by their numbers; and no action is refused for a cycle.  If the graph that is left
by more additions compiles, then so did the graph before them, and the nodes that were there have
kept their slots, in front of the new ones. -/
theorem Reachable.runs_in_creation_order (hg : g.Reachable) :
    g.table.sort = .ok (List.range g.size) ∧
    (∀ tape, g.tape = some tape ∨ g.table.compile = .ok tape →
      tape.order.Pairwise (· < ·) ∧ ∀ id, id ∈ tape.order ↔ g.isActive id = true) ∧
    (∀ a reason, ((Edit.perform a).on g).1 ≠ .error (.failure (.cycle reason))) ∧
    ∀ acts : List (Action α), (∀ a ∈ acts, a.isAdding = true) →
      ∀ tape', (g.afterAll acts).table.compile = .ok tape' →
        ∃ tape, g.table.compile = .ok tape ∧ tape.order <+: tape'.order ∧
          ∀ id < g.size, tape'.slotOf? id = tape.slotOf? id := by
  have hsound := hg.sound
  refine ⟨NodeTable.sort_eq hsound.table, fun tape htape => ?_, fun a reason hcycle => ?_,
    fun acts hacts tape' htape' => ?_⟩
  · have hcompile : g.table.compile = .ok tape := htape.elim (hsound.tape tape) id
    obtain ⟨_, rfl⟩ := (NodeTable.compile_eq_ok_iff hsound.table).1 hcompile
    rw [NodeTable.order_straightTape]
    exact ⟨g.table.sortedLT_activeIds, fun id => (isActive_iff_mem_activeIds hsound).symm⟩
  · exact (hsound.meets_perform a).error _ hcycle
  · have hprolongs := prolongs_afterAll hsound hacts
    obtain ⟨hclosed, rfl⟩ := (NodeTable.compile_eq_ok_iff hprolongs.sound.table).1 htape'
    refine ⟨g.table.straightTape, (NodeTable.compile_eq_ok_iff hsound.table).2
      ⟨hprolongs.closed hsound hclosed, rfl⟩, ?_, fun id hid => hprolongs.slotOf?_eq hid⟩
    obtain ⟨added, hadded, _⟩ := hprolongs.active
    rw [NodeTable.order_straightTape, NodeTable.order_straightTape, hadded]
    exact List.prefix_append _ _

/-- The exponential of an input, which is bypassed, and the logarithm of the input. -/
def bypassedExponential : List (Action Float) :=
  [.addInput "x", .addNode .exp [0] "e", .addNode .log [0] "l", .setActive 1 false, .bypassInactive]

/-- The logarithm has the second slot on the tape, and it keeps it when a target is added, and when
a node is not added. -/
theorem Reachable.runs_in_creation_order_bypassedExponential :
    (run bypassedExponential).Reachable ∧ (run bypassedExponential).table.sort = .ok [0, 1, 2] ∧
      ∃ tape tape', (run bypassedExponential).tape = some tape ∧ tape.order = [0, 2] ∧
        tape.order.Pairwise (· < ·) ∧
        ((run bypassedExponential).afterAll
          [.addTarget "y", .addNode .exp [7] "lost"]).table.compile = .ok tape' ∧
        tape'.order = [0, 2, 3] ∧ tape'.slotOf? 2 = tape.slotOf? 2 := by
  have hg := reachable_run bypassedExponential
  obtain ⟨hsort, hordered, _, hadded⟩ := hg.runs_in_creation_order
  have htape : (run bypassedExponential).tape =
      some ⟨[⟨0, []⟩, ⟨2, [0]⟩], #[some 0, none, some 1]⟩ := rfl
  have hcompile : ((run bypassedExponential).afterAll
      [.addTarget "y", .addNode .exp [7] "lost"]).table.compile =
        .ok ⟨[⟨0, []⟩, ⟨2, [0]⟩, ⟨3, []⟩], #[some 0, none, some 1, some 2]⟩ := rfl
  obtain ⟨tape, hbefore, _, hslots⟩ :=
    hadded [.addTarget "y", .addNode .exp [7] "lost"] (by simp [Action.isAdding]) _ hcompile
  obtain rfl := Except.ok.inj ((hg.sound.tape _ htape).symm.trans hbefore)
  exact ⟨hg, hsort, _, _, htape, rfl, (hordered _ (.inl htape)).1, hcompile, rfl,
    hslots 2 (by decide)⟩

end Graph

end FeatureGraph
