import FeatureGraph.Proofs.Refusal

/-!
# What a model is trained on

A graph is trained on the first of its objectives, and selecting appends the objective of the model
behind those that the graph has.

* `Graph.TrainsOn` says what a pass does with an objective.
* A pass misses its objective exactly if that has no slot on the tape.  Nothing else in a pass can
  be refused so, and `TrainsOn.missing_iff` says it of a graph whose tape is not stale.
* `select_trains_on_first_objective` is the statement about models, and holds after any calls.
-/

namespace FeatureGraph

variable {α β : Type}

open Outcome (Meets meets_ok meets_error meets_foldlM unrefused_ok)

/-- What is missing, if anything, is not an objective. -/
abbrev Outcome.Aimed (a : Outcome GraphError β) : Prop :=
  Meets (· ≠ .failure .noObjective) (fun _ => True) a

theorem Outcome.Meets.aimed {P : β → Prop} {a : Outcome GraphError β}
    (h : Meets (· = .outOfRange) P a) : Aimed a where
  error fault hfault := h.error fault hfault ▸ nofun
  ok _ _ := trivial

theorem Outcome.aimed_failure {reason : GraphError} (h : reason ≠ .noObjective) :
    Aimed (.error (.failure reason) : Outcome GraphError β) :=
  meets_error fun hfault => h (Fault.failure.inj hfault)

theorem Outcome.Aimed.ne {a : Outcome GraphError β} (h : Aimed a) :
    a ≠ .error (.failure .noObjective) :=
  fun ha => h.error _ ha rfl

open Outcome (Aimed aimed_failure)

/-! ## Passes -/

theorem NodeTable.aimed_compile (t : NodeTable α) : Aimed t.compile where
  error := by
    rintro _ hfault rfl
    rcases t.meets_compile.error _ hfault with
      ⟨_, _, h⟩ | ⟨_, _, _, _, _, _, _, _, _, h⟩ <;> cases h
  ok _ _ := trivial

namespace Tape

variable {t : NodeTable α} {p : Tape}

theorem aimed_checkData (p : Tape) (t : NodeTable α) (x : Matrix α) (y : Option (List α)) :
    Aimed (checkData t p x y) where
  error := by
    rintro _ hfault rfl
    obtain ⟨cause, h⟩ := NodeTable.exists_mismatch_of_checkData hfault
    cases h
  ok _ _ := trivial

variable [Arith α]

theorem aimed_forward (p : Tape) (t : NodeTable α) (x : Matrix α) (y : Option (List α)) :
    Aimed (p.forward t x y) := by
  refine (aimed_checkData p t x y).bind fun _ _ => ?_
  exact meets_foldlM (P := fun _ _ => True) trivial fun _ _ done _ =>
    (meets_forwardStep y done _).aimed

/-- A backward pass misses its objective exactly if that has no slot. -/
theorem backward_eq_noObjective_iff {values : Slots α} {objective : NodeId} :
    p.backward t values objective = .error (.failure .noObjective) ↔
      p.slotOf? objective = none := by
  cases hslot : p.slotOf? objective with
  | none => simp [backward, hslot, Outcome.fail]
  | some slot =>
    have haimed : Aimed (p.backward t values objective) := by
      by_cases hvalues : values.size = p.size
      · exact (unrefused_backward hvalues hslot).aimed
      · rw [backward, hslot]
        dsimp only
        rw [if_pos hvalues]
        exact aimed_failure (by simp)
    simpa using haimed.ne

end Tape

namespace Graph

variable [Arith α] {g : Graph α} {objective : NodeId} {x : Matrix α} {y : List α}

theorem aimed_runForward (g : Graph α) (x : Matrix α) (y : Option (List α)) :
    Aimed (g.runForward x y) := by
  have htape : Aimed g.currentTape := by
    unfold currentTape
    split
    · exact meets_ok trivial
    · exact g.table.aimed_compile
  refine htape.bind fun tape _ => ?_
  exact (tape.aimed_forward g.table x y).bind fun values _ => meets_ok trivial

/-! ## Objectives -/

/-- A gradient pass goes back from the objective, and the loss is the mean of the objective's
column, whatever pass has been the last. -/
structure TrainsOn (g : Graph α) (objective : NodeId) : Prop where
  gradients : ∀ x y, (g.gradients x y).1 = g.runForward x (some y) >>= fun p =>
    (p.1.backward g.table p.2 objective).map (·.params)
  loss : ∀ tape values, ({ g with tape, values } : Graph α).loss? =
    (({ g with tape, values } : Graph α).vals? objective).bind fun column =>
      if values.nRows = 0 then none else some (Arith.mean column)

/-- A graph is trained on its first objective. -/
theorem trainsOn_of_head? (h : g.objectives.head? = some objective) : g.TrainsOn objective := by
  constructor
  · exact fun x y => congrArg Prod.fst (gradients_of_head? h x y)
  · intro tape values
    simp only [loss?, h, vals?, Tape.loss?]
    cases tape with
    | none => rfl
    | some tape => cases hslot : tape.slotOf? objective <;> simp [hslot]

/-- On a tape that is not stale, the active nodes have slots. -/
theorem Compiled.exists_slot_iff (hg : g.Compiled) {target : Option (List α)} {p : Tape × Slots α}
    (h : g.runForward x target = .ok p) {id : NodeId} :
    (∃ slot, p.1.slotOf? id = some slot) ↔ id < g.size ∧ g.isActive id = true := by
  have hcompile : g.table.compile = .ok p.1 := (of_runForward_eq_ok h).1.elim (hg p.1) fun h => h
  exact ((g.table.meets_compile.ok _ hcompile).exists_slot_iff id).trans NodeTable.mem_activeIds_iff

/-- A gradient pass misses the objective exactly if the graph can be evaluated and the objective is
not active. -/
theorem TrainsOn.missing_iff (h : g.TrainsOn objective) (hg : g.Compiled) :
    (g.gradients x y).1 = .error (.failure .noObjective) ↔
      (g.evaluate x (some y)).1 = .ok () ∧
        ¬(objective < g.size ∧ g.isActive objective = true) := by
  rw [h.gradients, evaluate]
  cases hrun : g.runForward x (some y) with
  | error fault =>
    have haimed := (g.aimed_runForward x (some y)).ne
    rw [hrun] at haimed
    simpa [Except.map] using haimed
  | ok p =>
    have hmissing : (p.1.backward g.table p.2 objective).map (·.params) =
        .error (.failure .noObjective) ↔ p.1.slotOf? objective = none := by
      rw [Outcome.map_eq_error, Tape.backward_eq_noObjective_iff]
    rw [Outcome.ok_bind, hmissing, ← hg.exists_slot_iff hrun, ← Option.isSome_iff_exists]
    simp [Except.map]

end Graph

/-! ## Models -/

namespace Model

variable [Arith α] {f : Forest α} {g : Graph α} {m : NodeMapping} {keep : Feature α → Bool}
  {model : Model α}

/-- What selecting leaves of the objectives and of the activation of any graph, well-formed or
not. -/
structure Aims (g : Graph α) (model : Model α) : Prop where
  size : model.graph.size = g.size + 3
  objective : model.objective = g.size + 2
  objectives : model.graph.objectives = g.objectives ++ [model.objective]
  compiled : model.graph.Compiled
  active : g.table.active.size = g.size → model.graph.isActive model.objective = true

theorem aims_of_select (h : (select f g m keep).outcome = .ok model) : Aims g model := by
  obtain ⟨picked, _, _, hmodel⟩ := of_select_eq_ok h
  obtain ⟨kept, w, _, hwire, rfl⟩ := ofPicks_eq_ok.1 hmodel
  obtain ⟨_, _, tape, htape, rfl⟩ := of_wire_eq_ok hwire
  have hsize : (g.activateOnly kept).size = g.size := rfl
  exact {
    size := size_withObjective
    objective := size_withTarget
    objectives := rfl
    compiled := fun tape' htape' => Option.some.inj htape' ▸ htape
    active := by
      intro hactive
      -- the objective is the last node, and a new node is active
      set flags := ((g.table.active.mapIdx fun i _ => kept.contains i).push true).push true
      have hlast : flags.size = (withTarget (g.activateOnly kept) (picked.map (·.node))
          (picked.map fun p => initialWeight picked.length p.feature.coverage)).size := by
        rw [size_withTarget, hsize]
        simpa [flags] using hactive
      change ((flags.push true)[(withTarget (g.activateOnly kept) _ _).size]?).getD false = true
      rw [← hlast, Array.getElem?_push_size]
      rfl }

/-- Selecting appends the objective of the model to those of the graph, and the model is trained on
the first of these, after any calls.  A gradient pass misses an objective exactly if the graph can
be evaluated and that one is not active.  So if the graph had no objectives, the model is trained
on its own one and never misses it, and neither does a training. -/
theorem select_trains_on_first_objective (h : (select f g m keep).outcome = .ok model)
    (calls : List (Call α)) :
    model.objective = g.size + 2 ∧
    (model.afterCalls calls).graph.objectives = g.objectives ++ [model.objective] ∧
    (∀ first, (g.objectives ++ [model.objective]).head? = some first →
      (model.afterCalls calls).graph.TrainsOn first ∧
      ∀ x y, ((model.afterCalls calls).graph.gradients x y).1 = .error (.failure .noObjective) ↔
        ((model.afterCalls calls).graph.evaluate x (some y)).1 = .ok () ∧
          ¬(first < model.graph.size ∧ model.graph.isActive first = true)) ∧
    (g.objectives = [] → g.table.active.size = g.size →
      (model.afterCalls calls).graph.TrainsOn model.objective ∧
      (∀ x y, ((model.afterCalls calls).graph.gradients x y).1 ≠
        .error (.failure .noObjective)) ∧
      ∀ {γ σ : Type} [RandomSource σ] (state : γ) (plan : FitPlan α) (x : Matrix α) (y : List α)
        (source : σ), ((model.afterCalls calls).fit (none : Option (Controller γ σ)) state plan x y
          source).outcome ≠ .error (.failure (.graph .noObjective))) := by
  have haims := aims_of_select h
  set later := model.afterCalls calls
  have hkeep : OnlyTrained model.graph later.graph := onlyTrained_afterCalls model calls
  have hcompiled : later.graph.Compiled :=
    (stable_of_change fun _ _ => Graph.Compiled.of_change).afterCalls haims.compiled calls
  have hobjectives : later.graph.objectives = g.objectives ++ [model.objective] :=
    hkeep.objectives.trans haims.objectives
  have hactive : ∀ id, later.graph.isActive id = model.graph.isActive id := fun id => by
    rw [Graph.isActive, Graph.isActive, hkeep.active]
  have htrains : ∀ first, (g.objectives ++ [model.objective]).head? = some first →
      later.graph.TrainsOn first := fun first hfirst =>
    Graph.trainsOn_of_head? (hobjectives ▸ hfirst)
  refine ⟨haims.objective, hobjectives, fun first hfirst => ⟨htrains first hfirst, fun x y => ?_⟩,
    fun hnone hflags => ?_⟩
  · rw [(htrains first hfirst).missing_iff hcompiled, hactive, hkeep.size]
  · have hown : later.graph.TrainsOn model.objective :=
      htrains model.objective (by rw [hnone]; rfl)
    have hgradients : ∀ x y, (later.graph.gradients x y).1 ≠ .error (.failure .noObjective) := by
      intro x y hmissing
      refine ((hown.missing_iff hcompiled).1 hmissing).2 ⟨?_, ?_⟩
      · rw [hkeep.size, haims.size, haims.objective]
        exact Nat.lt_succ_self _
      · rw [hactive]
        exact haims.active hflags
    refine ⟨hown, hgradients, fun state plan x y source hrefused => ?_⟩
    rcases of_fit_refused hrefused with ⟨⟨text, htext⟩, _⟩ | ⟨e, optimizer, he, hpass, _⟩
    · cases htext
    · obtain rfl := ModelError.graph.inj he
      exact hgradients _ _ hpass

/-- A fresh column is trained on its own objective, also after it has been trained and has
predicted. -/
theorem select_trains_on_first_objective_column :
    (select (Forest.oneColumn : Forest Float) (droppedColumn false) loweredColumn.2
      fun _ => true).outcome = .ok (columnModel false) ∧
    (droppedColumn false).objectives = [] ∧
    ((columnModel false).afterCalls someCalls).graph.TrainsOn (columnModel false).objective ∧
    (((columnModel false).afterCalls someCalls).graph.gradients (.ofFn 1 1 fun _ _ => 1) [1]).1 ≠
      .error (.failure .noObjective) := by
  obtain ⟨_, _, _, hown⟩ := select_trains_on_first_objective (select_oneColumn false) someCalls
  obtain ⟨htrains, hgradients, _⟩ := hown (by decide +kernel) (by decide +kernel)
  exact ⟨select_oneColumn false, rfl, htrains, hgradients _ _⟩

/-- The column, selected once more from the graph of its model. -/
def columnAgain : Model Float := modelOfColumn (columnModel false).graph

theorem select_columnAgain :
    (select (Forest.oneColumn : Forest Float) (columnModel false).graph (columnModel false).mapping
      fun _ => true).outcome = .ok columnAgain :=
  select_modelOfColumn (by decide +kernel) (by decide +kernel) (by decide +kernel)
    (by decide +kernel) (by decide +kernel)

/-- The column selected a second time is trained on the objective of the first time, which is not
active any more. -/
theorem select_trains_on_older_objective :
    ∃ g m model again, (Forest.oneColumn : Forest Float).lower.outcome = .ok (g, m) ∧
      (select Forest.oneColumn g m fun _ => true).outcome = .ok model ∧
      (select Forest.oneColumn model.graph model.mapping fun _ => true).outcome = .ok again ∧
      again.graph.objectives.head? = some model.objective ∧ model.objective ≠ again.objective ∧
      (again.graph.gradients (.ofFn 1 1 fun _ _ => 1) [1]).1 = .error (.failure .noObjective) := by
  have hhead : columnAgain.graph.objectives.head? = some (columnModel false).objective := by
    decide +kernel
  have hother : (columnModel false).objective ≠ columnAgain.objective := by decide +kernel
  have hinactive : columnAgain.graph.isActive (columnModel false).objective = false := by
    decide +kernel
  have hevaluated :
      (columnAgain.graph.evaluate (.ofFn 1 1 fun _ _ => 1) (some [1])).1 = .ok () := by
    decide +kernel
  refine ⟨_, _, columnModel false, columnAgain, lower_oneColumn, select_oneColumn false,
    select_columnAgain, hhead, hother, ?_⟩
  refine ((Graph.trainsOn_of_head? hhead).missing_iff
    (aims_of_select select_columnAgain).compiled).2 ⟨hevaluated, fun h => ?_⟩
  rw [hinactive] at h
  cases h.2

end Model

end FeatureGraph
