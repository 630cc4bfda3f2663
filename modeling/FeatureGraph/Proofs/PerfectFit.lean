import FeatureGraph.Proofs.BackwardPass

/-!
# Perfect fits

Where an objective's output is on target in all rows, the gradient pass hands nothing on: it answers
no entry for any node.

* `Quiet` says that nothing is left to hand on, and `Quiet.run` that the pass then collects nothing.
* `handedOn_of_fit` is the step at the objective.
* `get_gradients_of_fit` is the statement about graphs.
-/

namespace FeatureGraph

variable {α : Type} [ExactArith α]

/-- Adding columns of zeros changes nothing. -/
theorem addAll_of_zero {n : Nat} (a : Nat → Fin n → α) {l : List (Nat × (Fin n → α))}
    (h : ∀ e ∈ l, e.2 = 0) : addAll a l = a := by
  induction l with
  | nil => rfl
  | cons e l ih =>
    have hzero : e.2 = 0 := h e (by simp)
    rw [addAll, List.foldl_cons, hzero, add_zero, Function.update_eq_self]
    exact ih fun e' he' => h e' (by simp [he'])

namespace NodeTable

variable {t : NodeTable α} {x : Matrix α} {y : Option (List α)}

/-- Nothing is left to hand on in the slots before `i`, and nothing has been collected. -/
structure Quiet (t : NodeTable α) (x : Matrix α) (i : Nat) (adj : Tape.Adjoint α) : Prop where
  slots : ∃ a : Nat → Fin x.nRows → α, adj.slots = gradientSlots t.activeIds.length a ∧
    ∀ k < i, ∀ r, a k r = 0
  entries : ∀ id, adj.params.get id = []

/-- From there on the pass collects nothing. -/
theorem Quiet.run (ht : t.Sound) {i : Nat} (hi : i ≤ t.activeIds.length) {adj : Tape.Adjoint α}
    (h : t.Quiet x i adj) :
    ((t.straightTape.steps.zipIdx.take i).reverse).foldlM
      (Tape.backwardStep t (t.computed x y t.activeIds.length)) adj = .ok adj := by
  obtain ⟨a, ha, hzero⟩ := h.slots
  induction i with
  | zero => rfl
  | succ i ih =>
    have hlength : i < t.straightTape.steps.zipIdx.length := by simpa [straightTape] using hi
    have hskips : t.Skips t.activeIds[i] (a i) := .inr (.inr (hzero i (by omega)))
    have hbefore : ∀ k < i, ∀ r, a k r = 0 := fun k hk => hzero k (by omega)
    rw [List.take_succ_eq_append_getElem hlength, List.reverse_append, List.reverse_singleton,
      List.singleton_append, List.foldlM_cons, getElem_zipIdx_steps hi,
      backwardStep_of_skips ht hi ha hskips, Outcome.ok_bind]
    exact ih (by omega) ⟨⟨a, ha, hbefore⟩, h.entries⟩ hbefore

variable {objective output target : NodeId}

/-- An objective hands nothing on if its output is on target in all rows. -/
theorem handedOn_of_fit (hparents : t.parentList objective = [output, target])
    (hfit : ∀ r, t.valueAt (x.sample y r) output = t.valueAt (x.sample y r) target)
    (grad : Fin x.nRows → α) : ∀ e ∈ t.handedOn x y .objective [] objective grad, e.2 = 0 := by
  intro e he
  obtain ⟨q, hq, rfl⟩ := List.mem_map.1 he
  funext r
  have hslopes : Primitive.objective.argSlopes [] ((t.parentList objective).map
      (t.valueAt (x.sample y r))) (t.valueAt (x.sample y r) objective) = [0, 0] := by
    simp [hparents, Primitive.argSlopes, hfit r]
  rw [hparents, List.length_cons, List.length_singleton, List.mem_range] at hq
  dsimp only
  rw [hslopes]
  interval_cases q <;> simp

/-- The pass from such an objective collects nothing. -/
theorem exists_backward_of_fit (ht : t.Sound) (hclosed : t.Closed)
    (hobjective : objective ∈ t.activeIds) (hop : t.ops[objective]? = some .objective)
    (hparents : t.parentList objective = [output, target])
    (hfit : ∀ r, t.valueAt (x.sample y r) output = t.valueAt (x.sample y r) target) :
    ∃ adj, t.straightTape.backward t (t.computed x y t.activeIds.length) objective = .ok adj ∧
      ∀ id, adj.params.get id = [] := by
  have hslot := List.idxOf_lt_length_iff.2 hobjective
  have hlength : t.activeIds.idxOf objective < t.straightTape.steps.zipIdx.length := by
    simpa [straightTape] using hslot
  obtain ⟨ps, hps⟩ := ht.params_getElem? (lt_size_of_mem_activeIds hobjective)
  obtain rfl : ps = [] := List.length_eq_zero_iff.1 (ht.paramCount objective .objective ps hop hps)
  set slot := t.activeIds.idxOf objective
  have hnode : t.activeIds[slot] = objective := List.getElem_idxOf hslot
  set a : Nat → Fin x.nRows → α :=
    Function.update (fun _ _ => 0) slot fun _ => 1 / (x.nRows : α) with ha
  set adj : Tape.Adjoint α :=
    ⟨gradientSlots t.activeIds.length a, ⟨Array.replicate t.size []⟩⟩ with hadj
  have hquiet : t.Quiet x slot adj :=
    ⟨⟨a, rfl, fun k hk r => by rw [ha, Function.update_of_ne (Nat.ne_of_lt hk)]⟩,
      Gradients.get_replicate t.size⟩
  -- the step at the objective leaves everything as the seed was
  have hstep : Tape.backwardStep t (t.computed x y t.activeIds.length) adj
      (⟨t.activeIds[slot], (t.parentList t.activeIds[slot]).map t.activeIds.idxOf⟩, slot) =
        .ok adj := by
    by_cases hskips : t.Skips t.activeIds[slot] (a slot)
    · exact backwardStep_of_skips ht hslot rfl hskips
    · rw [backwardStep_of_not_skips ht hclosed hslot rfl Array.size_replicate (hnode ▸ hop)
        (hnode ▸ hps) hskips]
      simp only [hnode, addAll_of_zero a (handedOn_of_fit hparents hfit (a slot)), collected,
        List.length_nil, List.range_zero, List.map_nil, Array.setIfInBounds_replicate_self, hadj]
  refine ⟨adj, ?_, hquiet.entries⟩
  rw [backward_of_mem hobjective, seed_eq hslot, Outcome.ok_bind,
    List.take_succ_eq_append_getElem hlength, List.reverse_append, List.reverse_singleton,
    List.singleton_append, List.foldlM_cons, getElem_zipIdx_steps hslot, hstep, Outcome.ok_bind,
    hquiet.run ht hslot.le]

end NodeTable

/-- On data that a graph fits perfectly the gradient pass answers no entry for any node. -/
theorem Graph.get_gradients_of_fit {g : Graph α} (hg : g.Sound) {x : Matrix α} {y : List α}
    {grads : Gradients α} (hpass : (g.gradients x y).1 = .ok grads)
    {objective output target : NodeId} (hfirst : g.objectives.head? = some objective)
    (hop : g.table.ops[objective]? = some .objective)
    (hparents : g.table.parentList objective = [output, target])
    (hfit : ∀ r, g.table.valueAt (x.sample (some y) r) output =
      g.table.valueAt (x.sample (some y) r) target) (id : NodeId) : grads.get id = [] := by
  obtain ⟨first, rest, hobjectives, hclosed, hdata, hactive⟩ := of_gradients_eq_ok hg hpass
  rw [hobjectives, List.head?_cons, Option.some.injEq] at hfirst
  subst hfirst
  obtain ⟨adj, hadj, hempty⟩ := NodeTable.exists_backward_of_fit (x := x) (y := some y) hg.table
    hclosed hactive hop hparents hfit
  have hforward := (runForward_eq_ok_iff hg).2 ⟨hclosed, hdata, rfl⟩
  simp only [gradients, hobjectives, hforward, Outcome.ok_bind, hadj, Outcome.pure_eq_ok,
    Except.ok.injEq] at hpass
  rw [← hpass, hempty]

end FeatureGraph
