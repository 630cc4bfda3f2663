import FeatureGraph.Descent.Idle
import FeatureGraph.Proofs.Descent
import FeatureGraph.Proofs.Splitting

/-!
# Descents without parameters

A gradient pass that is repeated answers the same and changes nothing.  So the steps of a descent
without trainable parameters are all alike, and such a descent is its first step, counted as often
as there are steps.

* `gradients_again` is the pass that is repeated.
* `steps?_nil` is the induction on the steps that update nothing, and `briefRun_eq_run` says that
  one of them stands for all.
-/

namespace FeatureGraph

variable {α : Type} [Arith α] {g : Graph α} {x : Matrix α} {y : List α} {grads : Gradients α}

/-- A gradient pass leaves a graph on which the same pass answers the same, and which it leaves as
it is. -/
theorem Graph.gradients_again (h : (g.gradients x y).1 = .ok grads) :
    (g.gradients x y).2.gradients x y = (.ok grads, (g.gradients x y).2) := by
  obtain ⟨objective, tape, values, adjoint, hhead, hrun, hback, rfl, hleft⟩ :=
    exists_passes_of_gradients_eq_ok h
  obtain ⟨_, hforward⟩ := runForward_eq_ok.1 hrun
  -- the tape that the pass has left is the one that the next pass takes
  have hagain : ({ g with tape := some tape, values } : Graph α).runForward x (some y) =
      .ok (tape, values) := runForward_eq_ok.2 ⟨rfl, hforward⟩
  rw [hleft, gradients_of_head? (g := { g with tape := some tape, values }) hhead, hagain,
    Outcome.ok_bind, hback]
  rfl

namespace Optimizer

variable {o : Optimizer α} {rate : α} {n : Nat}

/-- A step without nodes is its gradient pass, and it is counted. -/
theorem step_nil (h : (g.gradients x y).1 = .ok grads) (o : Optimizer α) (rate : α) :
    o.step g x y rate [] =
      ⟨.ok ((g.gradients x y).2.loss?.getD Arith.nan), (g.gradients x y).2, o.counting 1⟩ := by
  have hupdates : ([] : List NodeId).foldlM (updateNode rate grads)
      ((g.gradients x y).2, { o with steps := o.steps + 1 }) =
        .ok ((g.gradients x y).2, o.counting 1) := rfl
  exact step_of_updates (s := (g, o)) h hupdates

/-- Steps that update nothing are all alike. -/
theorem steps?_nil (h : (g.gradients x y).1 = .ok grads) (o : Optimizer α) (rate : α) (n : Nat) :
    steps? x y rate [] (n + 1) o g =
      ⟨.ok (List.replicate (n + 1) ((g.gradients x y).2.loss?.getD Arith.nan)),
        (g.gradients x y).2, o.counting (n + 1)⟩ := by
  induction n generalizing o g with
  | zero => rw [steps?, step_nil h]; rfl
  | succ n ih =>
    have hagain := Graph.gradients_again h
    have hrest := ih (congrArg Prod.fst hagain) (o.counting 1)
    rw [hagain] at hrest
    rw [steps?, step_nil h]
    dsimp only
    rw [hrest]
    simp only [counting, Stepped.mk.injEq, Except.map, List.replicate_succ, Optimizer.mk.injEq]
    exact ⟨trivial, trivial, trivial, trivial, by omega⟩

/-- Without trainable parameters one step stands for all. -/
theorem briefRun_eq_run (o : Optimizer α) (g : Graph α) (x : Matrix α) (y : List α) (n : Nat)
    (rate : α) : o.briefRun g x y n rate = o.run g x y n rate := by
  unfold briefRun
  split
  · rename_i n hnodes
    unfold run
    rw [hnodes]
    dsimp only
    cases hpass : (g.gradients x y).1 with
    | error fault =>
      have hstep : o.step g x y rate [] = ⟨.error fault, (g.gradients x y).2, o⟩ :=
        step_of_failed (s := (g, o)) hpass
      rw [steps?, hstep]
    | ok grads =>
      have hlast : ∀ loss : α, Losses.ofList (List.replicate (n + 1) loss) = ⟨loss, loss⟩ :=
        fun loss => by simp [Losses.ofList, List.head?_replicate, List.getLast?_replicate]
      rw [steps?_nil hpass, step_nil hpass]
      dsimp only
      rw [hlast]
      simp only [counting, Prod.mk.injEq, Stepped.mk.injEq, Optimizer.mk.injEq]
      exact ⟨⟨trivial, trivial, trivial, trivial, by omega⟩, trivial⟩
  · rfl

end Optimizer

end FeatureGraph
