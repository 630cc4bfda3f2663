import FeatureGraph.Descent.Optimizer

/-!
# Descents without parameters

A step that has no parameters to update only counts itself, and the pass of the next step finds what
it has found.  `Optimizer.briefRun` takes one such step for all.
-/

namespace FeatureGraph.Optimizer

variable {α : Type}

/-- The optimizer after some steps that update nothing. -/
def counting (o : Optimizer α) (n : Nat) : Optimizer α := { o with steps := o.steps + n }

/-- `n` updates of all trainable parameters against a target.  If there are none, the first step is
taken and the others are counted. -/
def briefRun [Arith α] (o : Optimizer α) (g : Graph α) (x : Matrix α) (y : List α) (n : Nat)
    (rate : α) : Stepped α (Losses α) × List (Event α) :=
  match g.table.trainable, n with
  | .ok [], n + 1 =>
    match o.step g x y rate [] with
    | ⟨.error fault, g, o⟩ => (⟨.error fault, g, o⟩, [])
    | ⟨.ok loss, g, o⟩ =>
      let l : Losses α := ⟨loss, loss⟩
      (⟨.ok l, g, o.counting n⟩, divergence (n + 1) l)
  | (_ : Outcome GraphError (List NodeId)), _ => o.run g x y n rate

end FeatureGraph.Optimizer
