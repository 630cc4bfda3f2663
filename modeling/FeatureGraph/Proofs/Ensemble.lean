import FeatureGraph.Proofs.Refusal

/-!
# What a prediction restores

A prediction lends the drop flags of its model to a controller, and nothing else.  Whichever pass
it ends with, no node stays dropped by it.

* `OnlyMasked` is the frame: all of a graph but the drop flags and the caches.
  `onlyMasked_outputColumns` carries it through the passes.
* Without a controller not even a flag changes, by `table_outputColumns_none`.
* `predict_restores` is the statement about predictions of any model with any controller.
-/

namespace FeatureGraph

variable {α : Type}

/-- Two graphs that differ in their drop flags and their caches at most. -/
structure OnlyMasked (g g' : Graph α) : Prop extends SameNodes g g' where
  params : g'.table.params = g.table.params
  active : g'.table.active = g.table.active
  constant : g'.table.constant = g.table.constant
  width : g'.table.dropped.size = g.table.dropped.size

namespace OnlyMasked

variable {g g' : Graph α}

theorem refl (g : Graph α) : OnlyMasked g g := ⟨.refl g, rfl, rfl, rfl, rfl⟩

/-- As many other drop flags, another tape and other columns. -/
theorem withCaches (h : OnlyMasked g g') {dropped : Array Bool}
    (hwidth : dropped.size = g'.table.dropped.size) (tape : Option Tape) (values : Slots α) :
    OnlyMasked g { g' with table := { g'.table with dropped }, tape, values } :=
  ⟨h.toSameNodes.withColumns _ _ _ _ _ _, h.params, h.active, h.constant, hwidth.trans h.width⟩

theorem withMask (h : OnlyMasked g g') (m : Mask g'.size g'.table.dropped.size) :
    OnlyMasked g (g'.withMask m) :=
  h.withCaches (by simp) _ _

theorem clearDropped [Arith α] (h : OnlyMasked g g') : OnlyMasked g g'.clearDropped :=
  h.withCaches (by simp) _ _

theorem afterForward (h : OnlyMasked g g') (outcome : Outcome GraphError (Tape × Slots α)) :
    OnlyMasked g (g'.afterForward outcome) := by
  cases outcome with
  | error fault => exact h.withCaches rfl _ _
  | ok p => exact h.withCaches rfl _ _

end OnlyMasked

namespace Model

variable [Arith α] {γ σ : Type}

/-! ## The passes -/

/-- The passes of an ensemble stay inside of the frame, whatever the controller does. -/
theorem onlyMasked_outputColumns (controller : Option (Controller γ σ)) (output : NodeId)
    (x : Matrix α) (n : Nat) (g : Graph α) (state : γ) (source : σ) :
    OnlyMasked g (outputColumns controller output x n g state source).graph :=
  keeps_outputColumns (P := OnlyMasked g) (fun _ _ _ h => h.withMask _)
    (fun g' h => h.afterForward (g'.runForward x none)) output n state source (.refl g)

/-- Without a controller the passes leave the table as it is. -/
theorem table_outputColumns_none (output : NodeId) (x : Matrix α) (n : Nat) (g : Graph α)
    (state : γ) (source : σ) :
    (outputColumns (none : Option (Controller γ σ)) output x n g state source).graph.table =
      g.table := by
  have hmask : ∀ (g' : Graph α) (state : γ) (source : σ),
      (g'.withMask (sampleMask (none : Option (Controller γ σ)) g' state source).mask).table =
        g'.table := fun _ _ _ => rfl
  have hpass : ∀ g' : Graph α, (g'.evaluate x none).2.table = g'.table := by
    intro g'
    unfold Graph.evaluate
    cases g'.runForward x none <;> rfl
  exact keeps_outputColumns (P := fun g' => g'.table = g.table)
    (fun g' state source h => (hmask g' state source).trans h) (fun g' h => (hpass g').trans h)
    output n state source rfl

/-- The mean over an ensemble has an entry for each row, however long the columns are. -/
@[simp] theorem length_meanColumn (nRows : Nat) (columns : List (List α)) :
    (meanColumn nRows columns).length = nRows := by
  have hsums : ∀ sums : List α,
      (columns.foldl (Column.update (· + ·)) sums).length = sums.length := by
    induction columns with
    | nil => exact fun _ => rfl
    | cons column rest ih => exact fun sums => (ih _).trans (Column.length_update _ _ _)
  simp [meanColumn, hsums]

/-! ## Predictions -/

/-- A prediction changes drop flags and caches only, whether it succeeds or not and wherever it
ends.  With a controller and at least one pass no node is dropped afterwards.  Without a
controller, or without a pass, all flags are the old ones.  A prediction that succeeds has an entry
for each row. -/
theorem predict_restores (model : Model α) (controller : Option (Controller γ σ)) (state : γ)
    (x : Matrix α) (n : Nat) (source : σ) :
    OnlyMasked model.graph (model.predict controller state x n source).graph ∧
    (controller.isSome = true → 0 < n →
      ∀ id, (model.predict controller state x n source).graph.isDropped id = false) ∧
    (controller = none ∨ n = 0 →
      (model.predict controller state x n source).graph.table.dropped =
        model.graph.table.dropped) ∧
    ∀ column, (model.predict controller state x n source).outcome = .ok column →
      column.length = x.nRows := by
  rcases Nat.eq_zero_or_pos n with rfl | hn
  · exact ⟨.refl _, fun _ h => absurd h (Nat.lt_irrefl 0), fun _ => rfl, fun _ h => nomatch h⟩
  unfold predict
  rw [if_neg (Nat.ne_of_gt hn)]
  have hpasses := onlyMasked_outputColumns controller model.output x n model.graph state source
  refine ⟨?_, ?_, ?_, ?_⟩
  · cases controller with
    | none => exact hpasses
    | some c => exact hpasses.clearDropped
  · intro hsome _ id
    obtain ⟨c, rfl⟩ := Option.isSome_iff_exists.1 hsome
    exact Graph.isDropped_clearDropped _ id
  · rintro (rfl | rfl)
    · exact congrArg NodeTable.dropped
        (table_outputColumns_none model.output x n model.graph state source)
    · exact absurd hn (Nat.lt_irrefl 0)
  · intro column hcolumn
    obtain ⟨columns, _, rfl⟩ := Outcome.map_eq_ok.1 hcolumn
    exact length_meanColumn x.nRows columns

/-- A prediction of the column over two rows, three times under a fixed mask. -/
def maskedPrediction (nodes : List NodeId) : Predicted Float Unit ChaCha (List Float) :=
  (columnModel false).predict (some (Dropout.fixed nodes)) () (.ofFn 2 1 fun _ _ => 1) 3
    (ChaCha.ofSeed 0)

/-- The controller drops the scaling of the column and then asks for a node that is not there.  The
first pass leaves the scaling dropped, and the prediction restores it.  A controller that only drops
the scaling answers for both rows. -/
theorem predict_restores_column :
    (∃ reason, (maskedPrediction [1, 99]).outcome = .error (.failure reason)) ∧
      (outputColumns (some (Dropout.fixed [1, 99] : Controller Unit ChaCha))
        (columnModel false).output (.ofFn 2 1 fun _ _ => 1) 3 (columnModel false).graph ()
        (ChaCha.ofSeed 0)).graph.isDropped 1 = true ∧
      (∀ id, (maskedPrediction [1, 99]).graph.isDropped id = false) ∧
      ∃ column, (maskedPrediction [1]).outcome = .ok column ∧ column.length = 2 := by
  have hpasses : (maskedPrediction [1]).outcome.isOk = true := by decide +kernel
  obtain ⟨column, hcolumn⟩ : ∃ column, (maskedPrediction [1]).outcome = .ok column := by
    cases houtcome : (maskedPrediction [1]).outcome with
    | ok column => exact ⟨column, rfl⟩
    | error fault => simp [houtcome, Except.isOk, Except.toBool] at hpasses
  refine ⟨Outcome.isFailure_iff.1 (by decide +kernel), by decide +kernel, ?_, column, hcolumn, ?_⟩
  · exact (predict_restores (columnModel false) (some (Dropout.fixed [1, 99])) ()
      (.ofFn 2 1 fun _ _ => 1) 3 (ChaCha.ofSeed 0)).2.1 rfl (by decide)
  · exact (predict_restores (columnModel false) (some (Dropout.fixed [1])) ()
      (.ofFn 2 1 fun _ _ => 1) 3 (ChaCha.ofSeed 0)).2.2.2 column hcolumn

end Model

end FeatureGraph
