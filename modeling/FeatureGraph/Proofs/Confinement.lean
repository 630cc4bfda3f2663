import FeatureGraph.Proofs.Census
import FeatureGraph.Proofs.Edit
import FeatureGraph.Proofs.Schedule
import FeatureGraph.Proofs.Trace

/-!
# Staying inside of a well-formed graph

Nothing that is done with a graph whose table is well-formed reads outside of the stored data, not
even if the graph has a cycle, a role without a node or an active node over an inactive one.  It
answers, or it says what it misses.

* `Graph.WellFormed` is the invariant: the table is well-formed and a cached tape fits it.
  `WellFormed.of_change` is the step, and `WellFormed.afterAll` the run.
* `yields_runForward` and `yields_gradients` are the passes.
* `Confined` lists what can be asked of a graph, and `WellFormed.confined` says that all of it stays
  inside.
-/

namespace FeatureGraph

variable {ε α : Type}

open Outcome (Safe Yields meets_ok yields_failure)

namespace Graph

variable {g g' : Graph α}

/-- The table is well-formed, and a cached tape fits it. -/
structure WellFormed (g : Graph α) : Prop where
  table : g.table.WellFormed
  tape : ∀ p, g.tape = some p → p.Fits g.table

theorem Sound.wellFormed (hg : g.Sound) : g.WellFormed where
  table := hg.table.wellFormed
  tape p hp := (NodeTable.yields_compile hg.table.wellFormed).ok p (hg.tape p hp)

namespace WellFormed

/-- A graph without a tape needs a well-formed table only. -/
theorem of_table (htable : g.table.WellFormed) (htape : g.tape = none) : g.WellFormed :=
  ⟨htable, by simp [htape]⟩

/-! ## Changes -/

section Changes

variable [Arith α]

/-- Every change keeps the invariant. -/
theorem of_change (hg : g.WellFormed) (h : g.Change g') : g'.WellFormed := by
  cases h with
  | caches htable htape =>
    constructor
    · exact htable ▸ hg.table
    · intro p hp
      rw [htable]
      exact (htape p hp).elim (hg.tape p) ((NodeTable.yields_compile hg.table).ok p)
  | @node _ _ _ name hps hop htable htape =>
    exact of_table (htable ▸ hg.table.addNode name hps hop) htape
  | params id hcounts =>
    exact ⟨hg.table.setParams id (hg.table.length_of_counts hcounts),
      fun p hp => (hg.tape p hp).of_parents rfl fun _ => rfl⟩
  | flags hconstant hdropped =>
    exact ⟨(hg.table.withConstant hconstant).withDropped hdropped,
      fun p hp => (hg.tape p hp).of_parents rfl fun _ => rfl⟩
  | active hsize => exact of_table (hg.table.withActive hsize) rfl

theorem after (hg : g.WellFormed) (a : Action α) : (g.after a).WellFormed :=
  (g.changes_after a).keep hg fun _ _ => of_change

theorem afterAll (hg : g.WellFormed) (acts : List (Action α)) : (g.afterAll acts).WellFormed := by
  induction acts generalizing g with
  | nil => exact hg
  | cons a acts ih =>
    have hnext : ((Edit.perform a).on g).2.WellFormed := by
      rw [Edit.on_perform_of_wellFormed hg.table]
      exact hg.after a
    exact ih hnext

/-! ## Passes -/

omit [Arith α] in
theorem yields_currentTape (hg : g.WellFormed) : Yields (·.Fits g.table) g.currentTape := by
  unfold currentTape
  split
  · rename_i tape htape
    exact meets_ok (hg.tape tape htape)
  · exact NodeTable.yields_compile hg.table

/-- A forward pass fills the slots of a tape that fits, or it is refused. -/
theorem yields_runForward (hg : g.WellFormed) (x : Matrix α) (y : Option (List α)) :
    Yields (fun p => p.1.Fits g.table ∧
      ∃ a : Nat → Fin x.nRows → α, p.2 = gradientSlots p.1.size a) (g.runForward x y) := by
  refine hg.yields_currentTape.bind fun tape htape => ?_
  exact (Tape.yields_forward hg.table htape x y).bind fun values hvalues =>
    meets_ok ⟨htape, hvalues⟩

theorem yields_gradients (hg : g.WellFormed) (x : Matrix α) (y : List α) :
    Yields (fun _ => True) (g.gradients x y).1 := by
  cases hhead : g.objectives.head? with
  | none =>
    rw [gradients_of_head?_none hhead]
    exact yields_failure _
  | some objective =>
    rw [gradients_of_head? hhead]
    refine (hg.yields_runForward x (some y)).bind ?_
    rintro ⟨tape, values⟩ ⟨hfits, a, hvalues⟩
    obtain rfl : values = gradientSlots tape.size a := hvalues
    cases hslot : tape.slotOf? objective with
    | none =>
      have hmissing : tape.backward g.table (gradientSlots tape.size a) objective =
          Outcome.fail .noObjective := by rw [Tape.backward, hslot]
      dsimp only
      rw [hmissing]
      exact yields_failure _
    | some slot =>
      obtain ⟨adj, hadj⟩ := Tape.exists_backward hg.table hfits a hslot
      dsimp only
      rw [hadj]
      exact meets_ok trivial

end Changes

end WellFormed

end Graph

/-! ## Reading a graph -/

namespace Graph

variable {g : Graph α}

theorem safe_checkNode (g : Graph α) (id : NodeId) : Safe (g.checkNode id) := by
  unfold checkNode
  split
  · exact Outcome.safe_ok _
  · exact Outcome.safe_fail _

/-- The nodes of a branch that is there are activated. -/
theorem safe_activateBranch (hg : g.table.WellFormed) (id : NodeId) :
    Safe (g.activateBranch id) := by
  refine (g.safe_checkNode id).bind fun _ hid => ?_
  have hstart : ∀ p ∈ [id], p < g.size := by simpa using checkNode_eq_ok.1 hid
  obtain ⟨branch, hbranch, hwalked⟩ := NodeTable.exists_ancestry (ε := GraphError) hg hstart
  obtain ⟨column, hcolumn, _⟩ := Edit.on_forM_assignActive g fun p hp =>
    hg.active.symm ▸ hwalked.inside p hp
  rw [hbranch, Outcome.ok_bind, hcolumn]
  exact Outcome.safe_ok _

/-! ## All of it -/

/-- Whatever is asked of a graph, nothing outside of the stored data is read; and what cannot be
refused is answered. -/
structure Confined [Arith α] [DecimalText α] (g : Graph α) : Prop where
  evaluate : ∀ x y, Safe ((Edit.evaluate x y).on g).1
  gradients : ∀ x y, Safe ((Edit.gradients x y).on g).1
  activateBranch : ∀ id, Safe ((Edit.activateBranch id).on g).1
  params : ∀ id, Safe (g.params id)
  parents : ∀ id, Safe (g.parents id)
  census : ∃ c, (g.table.census : Outcome GraphError Census) = .ok c
  trainable : ∃ ids, (g.table.trainable : Outcome GraphError (List NodeId)) = .ok ids
  trace : ∀ id, ∃ text, (g.trace id : Outcome GraphError String) = .ok text

theorem WellFormed.confined [Arith α] [DecimalText α] (hg : g.WellFormed) : g.Confined where
  evaluate x y := by
    rw [Edit.on_evaluate]
    exact (hg.yields_runForward x y).safe.map _
  gradients x y := by
    rw [Edit.on_gradients]
    exact (hg.yields_gradients x y).safe
  activateBranch id := by
    rw [Edit.on_activateBranch hg.table]
    have hsafe := safe_activateBranch hg.table id
    cases hrun : g.activateBranch id with
    | error fault => exact fun h => hsafe (hrun.trans (congrArg _ (Except.error.inj h)))
    | ok p => exact Outcome.safe_ok _
  params id := by
    refine (g.safe_checkNode id).bind fun _ hid => ?_
    obtain ⟨ps, hps⟩ := hg.table.params_getElem? (checkNode_eq_ok.1 hid)
    rw [Outcome.fetch_eq_ok.2 hps]
    exact Outcome.safe_ok ps
  parents id := by
    refine (g.safe_checkNode id).bind fun _ hid => ?_
    rw [hg.table.parents_eq (checkNode_eq_ok.1 hid)]
    exact Outcome.safe_ok _
  census := hg.table.exists_census.imp fun _ h => h.1
  trainable := hg.table.exists_trainable
  trace := exists_trace hg.table.auditable

end Graph

end FeatureGraph
