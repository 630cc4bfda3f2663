import FeatureGraph.Proofs.Idle
import FeatureGraph.Proofs.Pauses

/-!
# Bias correction

The `t`-th step of an optimizer divides the running means by one minus a power of their decays.  The
exponent is the step number as a signed word of 32 bits, so that it is the step number below `2 ^ 31`
and no longer.

* `HasTaken` counts the steps of an optimizer, whatever graphs and data they have been taken with,
  and `HasTaken.run` says that a run counts as its steps.
* `exists_of_updates` finds the update of one node among those of a step, and `UpdatesAs` says by
  which rule each parameter changes.
* `biasExponent_cases` and `powInt_eq_zpow` say what the exponent and the power are in general, and
  `seenWeight_cases` what follows for a weight.
* `HasTaken.corrects_bias` is the statement about all steps, and `Adam.corrects_bias_fails` a step
  that moves a parameter up its slope.
-/

namespace FeatureGraph

variable {ε α : Type}

open Optimizer (decay₁ decay₂ seenWeight biasExponent)

/-- An update answers an entry for each pair of entries. -/
theorem Column.getElem?_update {β : Type} {f : α → β → α} {ds : List α} {ss : List β} {j : Nat}
    (hds : j < ds.length) (hss : j < ss.length) :
    (update f ds ss)[j]? = some (f ds[j] ss[j]) := by
  fun_induction update f ds ss generalizing j with
  | case1 d ds s ss ih =>
    cases j with
    | zero => rfl
    | succ j => exact ih (Nat.lt_of_succ_lt_succ hds) (Nat.lt_of_succ_lt_succ hss)
  | case2 ds ss hshort =>
    obtain ⟨d, ds, rfl⟩ := List.exists_cons_of_length_pos (Nat.zero_lt_of_lt hds)
    obtain ⟨s, ss, rfl⟩ := List.exists_cons_of_length_pos (Nat.zero_lt_of_lt hss)
    exact (hshort d ds s ss rfl rfl).elim

namespace Optimizer

section Steps

variable [Arith α] {method : Method} {o : Optimizer α} {k : Nat} {g : Graph α} {x : Matrix α}
  {y : List α} {rate : α} {nodes : List NodeId} {grads : Gradients α}
  {s s' : Graph α × Optimizer α} {id : NodeId}

/-! ## Steps -/

/-- An optimizer that has taken so many steps since it was new.  Each step updates the trainable
nodes of some graph, with some data and at some rate. -/
inductive HasTaken (method : Method) : Optimizer α → Nat → Prop
  | fresh : HasTaken method (ofMethod method) 0
  | step {o : Optimizer α} {k : Nat} (h : HasTaken method o k) {g : Graph α} {nodes : List NodeId}
      (hnodes : (g.table.trainable : Outcome GraphError (List NodeId)) = .ok nodes) {x : Matrix α}
      {y : List α} {rate loss : α} (hstep : (o.step g x y rate nodes).outcome = .ok loss) :
      HasTaken method (o.step g x y rate nodes).optimizer (k + 1)

/-- A step that succeeds is its gradient pass and its updates. -/
theorem of_step_eq_ok {loss : α} (h : (o.step g x y rate nodes).outcome = .ok loss) :
    ∃ grads s', (g.gradients x y).1 = .ok grads ∧
      nodes.foldlM (updateNode rate grads) ((g.gradients x y).2, { o with steps := o.steps + 1 }) =
        .ok s' ∧
      (o.step g x y rate nodes).graph = s'.1 ∧ (o.step g x y rate nodes).optimizer = s'.2 := by
  unfold Optimizer.step at h ⊢
  rcases hpass : g.gradients x y with ⟨fault | grads, g₁⟩
  · rw [hpass] at h
    cases h
  · rw [hpass] at h
    dsimp only at h ⊢
    cases hrun : nodes.foldlM (updateNode rate grads) (g₁, { o with steps := o.steps + 1 }) with
    | error fault =>
      rw [hrun] at h
      cases h
    | ok s' => exact ⟨grads, s', rfl, hrun, rfl, rfl⟩

/-- No update counts as a step. -/
theorem steps_of_updateNode_eq_ok (h : updateNode rate grads s id = .ok s') :
    s'.2.steps = s.2.steps := by
  obtain ⟨_, rfl⟩ | ⟨_, _, _, ⟨_, rfl⟩ | ⟨_, _, _, _, rfl⟩⟩ := of_updateNode_eq_ok h <;> rfl

theorem counts_of_updates (h : nodes.foldlM (updateNode rate grads) s = .ok s') :
    s'.2.steps = s.2.steps ∧ s'.2.method = s.2.method :=
  Outcome.foldlM_keeps (P := fun r => r.2.steps = s.2.steps ∧ r.2.method = s.2.method) h ⟨rfl, rfl⟩
    fun _ _ _ _ hr hstep => ⟨(steps_of_updateNode_eq_ok hstep).trans hr.1,
      (method_of_updateNode_eq_ok hstep).trans hr.2⟩

namespace HasTaken

/-- The optimizer counts its steps, and keeps its method. -/
theorem counts (h : o.HasTaken method k) : o.steps = k ∧ o.method = method := by
  induction h with
  | fresh => exact ⟨rfl, rfl⟩
  | step _ _ hstep ih =>
    obtain ⟨_, s', _, hrun, _, hoptimizer⟩ := of_step_eq_ok hstep
    obtain ⟨hsteps, hmethod⟩ := counts_of_updates hrun
    rw [hoptimizer, hsteps, hmethod]
    exact ⟨congrArg (· + 1) ih.1, ih.2⟩

theorem steps? (h : o.HasTaken method k)
    (hnodes : (g.table.trainable : Outcome GraphError (List NodeId)) = .ok nodes) {n : Nat}
    {losses : List α} (hrun : (Optimizer.steps? x y rate nodes n o g).outcome = .ok losses) :
    (Optimizer.steps? x y rate nodes n o g).optimizer.HasTaken method (k + n) := by
  induction n generalizing o k g losses with
  | zero => exact h
  | succ n ih =>
    have hnext := trainable_step x y rate nodes o g
    unfold Optimizer.steps? at hrun ⊢
    split at hrun
    · cases hrun
    · rename_i loss g' o' hstep
      obtain ⟨rest, hrest, _⟩ := Outcome.map_eq_ok.1 hrun
      have hfirst := h.step hnodes (congrArg Stepped.outcome hstep)
      rw [hstep] at hfirst hnext
      rw [Nat.add_comm n 1, ← Nat.add_assoc]
      exact ih hfirst (hnext.trans hnodes) hrest

/-- A run that succeeds counts as its steps. -/
theorem run (h : o.HasTaken method k) {n : Nat} {losses : Losses α}
    (hrun : (o.run g x y n rate).1.outcome = .ok losses) :
    (o.run g x y n rate).1.optimizer.HasTaken method (k + n) := by
  cases htrainable : (g.table.trainable : Outcome GraphError (List NodeId)) with
  | error fault =>
    rw [run_of_untrainable htrainable] at hrun
    cases hrun
  | ok nodes =>
    rw [run_of_trainable htrainable] at hrun ⊢
    obtain ⟨_, hsteps, _⟩ := Outcome.map_eq_ok.1 hrun
    exact h.steps? htrainable hsteps

end HasTaken

/-! ## The update of one node -/

/-- What the updates of other nodes leave alone. -/
structure KeepsNode (id : NodeId) (s s' : Graph α × Optimizer α) : Prop where
  params : s'.1.table.params[id]? = s.1.table.params[id]?
  moments : s'.2.moments? id = s.2.moments? id

theorem keepsNode_of_updates (hid : id ∉ nodes)
    (h : nodes.foldlM (updateNode rate grads) s = .ok s') : KeepsNode id s s' := by
  refine Outcome.foldlM_keeps (P := KeepsNode id s) h ⟨rfl, rfl⟩ fun r r' i hi hr hstep => ?_
  have hne : i ≠ id := fun heq => hid (heq ▸ hi)
  obtain ⟨_, rfl⟩ | ⟨_, _, _, ⟨_, rfl⟩ | ⟨_, _, m, _, rfl⟩⟩ := of_updateNode_eq_ok hstep
  · exact hr
  · exact ⟨(Array.getElem?_setIfInBounds_ne hne).trans hr.params, hr.moments⟩
  · refine ⟨(Array.getElem?_setIfInBounds_ne hne).trans hr.params, ?_⟩
    exact (moments?_setMoments r.2 i m id).trans ((if_neg hne.symm).trans hr.moments)

/-- Each node is updated once, from the parameters and the running means that it had before the
step. -/
theorem exists_of_updates (hnodup : nodes.Nodup) (hmethod : s.2.method = .adam) (hid : id ∈ nodes)
    (hne : grads.get id ≠ []) (h : nodes.foldlM (updateNode rate grads) s = .ok s') :
    ∃ old new m, s.1.table.params[id]? = some old ∧
      (adamUpdate rate s.2.steps (s.2.startMoments grads id) old (grads.get id) :
        Outcome GraphError (List α × Moments α)) = .ok (new, m) ∧
      s'.1.table.params[id]? = some new ∧ s'.2.moments? id = some m := by
  obtain ⟨before, after, rfl⟩ := List.append_of_mem hid
  obtain ⟨_, hafter, hdisjoint⟩ := List.nodup_append'.1 hnodup
  have hbefore : id ∉ before := fun hmem => hdisjoint hmem (by simp)
  rw [List.foldlM_append] at h
  obtain ⟨r, hr, h⟩ := Outcome.bind_eq_ok.1 h
  rw [List.foldlM_cons] at h
  obtain ⟨r', hr', h⟩ := Outcome.bind_eq_ok.1 h
  have hkept := keepsNode_of_updates hbefore hr
  have hlater := keepsNode_of_updates (List.nodup_cons.1 hafter).1 h
  obtain ⟨hsteps, hmethod'⟩ := counts_of_updates hr
  obtain ⟨hempty, _⟩ | ⟨_, old, hold, ⟨hsteep, _⟩ | ⟨_, new, m, hupdate, rfl⟩⟩ :=
    of_updateNode_eq_ok hr'
  · exact absurd hempty hne
  · cases hsteep.symm.trans (hmethod'.trans hmethod)
  · have hstart : r.2.startMoments grads id = s.2.startMoments grads id := by
      rw [startMoments, startMoments, hkept.moments]
    have hinside : id < r.1.table.params.size := (Array.getElem?_eq_some_iff.1 hold).1
    refine ⟨old, new, m, hkept.params.symm.trans hold, ?_, ?_, ?_⟩
    · rw [← hsteps, ← hstart]
      exact hupdate
    · rw [hlater.params]
      simp [Graph.replaceParams, hinside]
    · rw [hlater.moments, moments?_setMoments, if_pos rfl]

/-! ## The rule of the t-th step -/

/-- Adam's rule changes each parameter that there is a slope for. -/
theorem of_adamUpdate_eq_ok {t : Nat} {m m' : Moments α} {old new grad : List α}
    (h : (adamUpdate rate t m old grad : Outcome ε (List α × Moments α)) = .ok (new, m')) {j : Nat}
    (hj : j < grad.length) :
    ∃ p a b, old[j]? = some p ∧ m'.first[j]? = some a ∧ m'.second[j]? = some b ∧
      new[j]? = some (p - adamChange rate t a b) := by
  unfold adamUpdate at h
  dsimp only at h
  split at h
  · cases h
  · rename_i hinside
    obtain ⟨rfl, rfl⟩ := Prod.mk.inj (Except.ok.inj h)
    have hfirst : j < (Moments.advance m grad).first.length := by
      rw [length_advance_first]
      omega
    have hsecond : j < (Moments.advance m grad).second.length := by
      rw [length_advance_second]
      omega
    have hold : j < old.length := by omega
    refine ⟨_, _, _, List.getElem?_eq_getElem hold, List.getElem?_eq_getElem hfirst,
      List.getElem?_eq_getElem hsecond, ?_⟩
    rw [Column.getElem?_update hold (by simp; omega)]
    simp

/-- A step changes every parameter that it has a slope for by the rule of the `t`-th step: the new
running means are divided by one minus the powers of their decays, and the exponent of the powers is
the one that belongs to `t`. -/
def UpdatesAs (o : Optimizer α) (t : Nat) : Prop :=
  ∀ (g : Graph α) (nodes : List NodeId) (x : Matrix α) (y : List α) (rate loss : α)
    (grads : Gradients α),
    (g.table.trainable : Outcome GraphError (List NodeId)) = .ok nodes →
    (o.step g x y rate nodes).outcome = .ok loss → (g.gradients x y).1 = .ok grads →
    ∀ id ∈ nodes, ∀ j < (grads.get id).length,
      ∃ old new m p a b, g.table.params[id]? = some old ∧
        (o.step g x y rate nodes).graph.table.params[id]? = some new ∧
        (o.step g x y rate nodes).optimizer.moments? id = some m ∧
        old[j]? = some p ∧ m.first[j]? = some a ∧ m.second[j]? = some b ∧
        new[j]? = some (p - rate * (a / (1 - Arith.powInt decay₁ (biasExponent t))) /
          (Arith.sqrt (b / (1 - Arith.powInt decay₂ (biasExponent t))) + guard))

theorem HasTaken.updatesAs (h : o.HasTaken .adam k) : o.UpdatesAs (k + 1) := by
  intro g nodes x y rate loss grads hnodes hstep hgrads id hid j hj
  obtain ⟨grads', s', hgrads', hrun, hgraph, hoptimizer⟩ := of_step_eq_ok hstep
  obtain rfl : grads = grads' := Except.ok.inj (hgrads.symm.trans hgrads')
  have hnodup : nodes.Nodup := (Outcome.sublist_of_filterM hnodes).nodup List.nodup_range
  have hne : grads.get id ≠ [] := fun hempty => by simp [hempty] at hj
  obtain ⟨old, new, m, hold, hupdate, hnew, hm⟩ :=
    exists_of_updates hnodup h.counts.2 hid hne hrun
  obtain ⟨p, a, b, hp, ha, hb, hchanged⟩ := of_adamUpdate_eq_ok hupdate hj
  rw [Graph.gradients_snd_table] at hold
  rw [hgraph, hoptimizer]
  rw [show o.steps + 1 = k + 1 from congrArg (· + 1) h.counts.1] at hchanged
  exact ⟨old, new, m, p, a, b, hold, hnew, hm, hp, ha, hb, hchanged⟩

end Steps

end Optimizer

/-! ## Weights -/

namespace Optimizer

/-- The exponent is the step number below `2 ^ 31`.  In general the remainder of the step number
modulo `2 ^ 32` decides about its sign. -/
theorem biasExponent_cases (t : Nat) :
    (biasExponent t = t ↔ t < 2 ^ 31) ∧
    (0 < biasExponent t ↔ 0 < t % 2 ^ 32 ∧ t % 2 ^ 32 < 2 ^ 31) ∧
    (biasExponent t = 0 ↔ 2 ^ 32 ∣ t) ∧ (biasExponent t < 0 ↔ 2 ^ 31 ≤ t % 2 ^ 32) := by
  have hword : biasExponent t = Int.bmod t (2 ^ 32) :=
    congrArg (Int.bmod t) (Nat.one_shiftLeft 32)
  rw [hword, Int.bmod_def]
  norm_num
  omega

theorem powInt_eq_zpow (a : ℝ) (n : ℤ) : Arith.powInt a n = a ^ n := by
  rw [Arith.powInt, Arith.powNatFrom_eq, one_mul]
  split
  · rename_i hneg
    obtain ⟨k, rfl⟩ : ∃ k : ℕ, n = -k := ⟨n.natAbs, by omega⟩
    simp
  · rename_i hpos
    obtain ⟨k, rfl⟩ : ∃ k : ℕ, n = k := ⟨n.natAbs, by omega⟩
    simp

/-- A weight is a proper one if its exponent is positive.  At zero it is zero, and below zero it is
negative. -/
theorem seenWeight_cases {decay : ℝ} (hpos : 0 < decay) (hlt : decay < 1) (t : Nat) :
    (0 < seenWeight decay t ∧ seenWeight decay t < 1 ↔ 0 < biasExponent t) ∧
    (seenWeight decay t = 0 ↔ biasExponent t = 0) ∧
    (seenWeight decay t < 0 ↔ biasExponent t < 0) := by
  have hweight : seenWeight decay t = 1 - decay ^ biasExponent t := by
    rw [seenWeight, powInt_eq_zpow]
  have hpower : 0 < decay ^ biasExponent t := zpow_pos hpos _
  rw [hweight]
  refine ⟨?_, ?_, ?_⟩
  · rw [sub_pos, zpow_lt_one_iff_right_of_lt_one₀ hpos hlt]
    exact and_iff_left (by linarith)
  · rw [sub_eq_zero, eq_comm, zpow_eq_one_iff_right₀ hpos.le hlt.ne]
  · rw [sub_neg, one_lt_zpow_iff_right_of_lt_one₀ hpos hlt]

theorem decay_cases : ∀ decay ∈ [(decay₁ : ℝ), decay₂], 0 < decay ∧ decay < 1 := by
  simp only [List.mem_cons, List.not_mem_nil, or_false, forall_eq_or_imp, forall_eq,
    Adam.decay₁_real, Adam.decay₂_real]
  norm_num

/-- The `t`-th step of Adam, with whatever graphs and data the steps before it have been taken,
divides the running means of every parameter that it has a slope for by one minus the powers of
their decays.  The exponent is the step number exactly below `2 ^ 31`, and then both divisors are
strictly between zero and one.  Beyond, they are so exactly if the remainder of the step number
modulo `2 ^ 32` is neither zero nor as large as `2 ^ 31`; they are zero if it is zero, and else they
are negative. -/
theorem HasTaken.corrects_bias [Arith α] {o : Optimizer α} {k : Nat} (h : o.HasTaken .adam k) :
    o.UpdatesAs (k + 1) ∧ (biasExponent (k + 1) = (k + 1 : Nat) ↔ k + 1 < 2 ^ 31) ∧
    ∀ decay ∈ [(decay₁ : ℝ), decay₂],
      (k + 1 < 2 ^ 31 → seenWeight decay (k + 1) = 1 - decay ^ (k + 1) ∧
        0 < seenWeight decay (k + 1) ∧ seenWeight decay (k + 1) < 1) ∧
      (0 < seenWeight decay (k + 1) ∧ seenWeight decay (k + 1) < 1 ↔
        0 < (k + 1) % 2 ^ 32 ∧ (k + 1) % 2 ^ 32 < 2 ^ 31) ∧
      (seenWeight decay (k + 1) = 0 ↔ 2 ^ 32 ∣ k + 1) ∧
      (seenWeight decay (k + 1) < 0 ↔ 2 ^ 31 ≤ (k + 1) % 2 ^ 32) := by
  obtain ⟨hexact, hproper, hzero, hnegative⟩ := biasExponent_cases (k + 1)
  refine ⟨h.updatesAs, hexact, fun decay hdecay => ?_⟩
  obtain ⟨hpos, hlt⟩ := decay_cases decay hdecay
  obtain ⟨hproper', hzero', hnegative'⟩ := seenWeight_cases hpos hlt (k + 1)
  refine ⟨fun hshort => ⟨Adam.seenWeight_eq hshort decay, ?_⟩, hproper'.trans hproper,
    hzero'.trans hzero, hnegative'.trans hnegative⟩
  exact hproper'.2 (by rw [hexact.2 hshort]; omega)

end Optimizer

/-! ## A long training -/

namespace Graph

/-- The line with constant parameters. -/
noncomputable def fixedLine : Graph ℝ := lineFit.after (.setConstant 1 true)

theorem accepts_fixedLine :
    ∃ grads, (fixedLine.gradients (Adam.atOne 0).x (Adam.atOne 0).y).1 = .ok grads := by
  have hforward : (fixedLine.evaluate (Adam.atOne 0).x none).1 = .ok () := by rfl
  exact exists_gradients_of_evaluate (reachable_lineFit.after _).sound hforward rfl rfl rfl

end Graph

namespace Optimizer

/-- On a line with constant parameters an optimizer takes any number of steps, and keeps nothing of
them but their number. -/
theorem hasTaken_counting (method : Method) (n : Nat) :
    ((ofMethod method : Optimizer ℝ).counting n).HasTaken method n := by
  cases n with
  | zero => exact .fresh
  | succ n =>
    have hnodes : (Graph.fixedLine.table.trainable : Outcome GraphError (List NodeId)) = .ok [] := by
      rfl
    obtain ⟨grads, hgrads⟩ := Graph.accepts_fixedLine
    have hsteps := steps?_nil hgrads (ofMethod method) 1 n
    have htaken := HasTaken.fresh.steps? hnodes (congrArg Stepped.outcome hsteps)
    rwa [hsteps, Nat.zero_add] at htaken

/-- The last step with right weights, after `2 ^ 31 - 2` others. -/
theorem HasTaken.corrects_bias_last :
    ((ofMethod .adam : Optimizer ℝ).counting (2 ^ 31 - 2)).HasTaken .adam (2 ^ 31 - 2) ∧
    ((ofMethod .adam : Optimizer ℝ).counting (2 ^ 31 - 2)).UpdatesAs (2 ^ 31 - 1) ∧
    biasExponent (2 ^ 31 - 1) = 2 ^ 31 - 1 ∧
    0 < seenWeight (decay₂ : ℝ) (2 ^ 31 - 1) ∧ seenWeight (decay₂ : ℝ) (2 ^ 31 - 1) < 1 := by
  have htaken := hasTaken_counting .adam (2 ^ 31 - 2)
  obtain ⟨hupdates, hexact, hweights⟩ := htaken.corrects_bias
  have hshort : 2 ^ 31 - 2 + 1 < 2 ^ 31 := by norm_num
  refine ⟨htaken, hupdates, (hexact.2 hshort).trans (by norm_num), ?_⟩
  exact ((hweights decay₂ (by simp)).1 hshort).2

end Optimizer

namespace Adam

/-- Adam on a graph after so many steps that have moved nothing. -/
theorem follows_counting {g : Graph ℝ} (hg : g.Sound) (n : Nat) :
    Follows g (g, (Optimizer.ofMethod .adam).counting n)
      { Adam.start g.table.params with steps := n } :=
  { Follows.start hg with steps := Nat.zero_add n }

/-- With a negative weight a positive running mean moves a parameter up. -/
theorem change_neg {t : Nat} (hweight : seenWeight (decay₁ : ℝ) t < 0) {rate first : ℝ}
    (hrate : 0 < rate) (hfirst : 0 < first) (second : ℝ) :
    change seenWeight rate t first second < 0 := by
  have hguard : (Optimizer.guard : ℝ) = 1e-8 := rfl
  rw [change, hguard]
  refine div_neg_of_neg_of_pos (mul_neg_of_pos_of_neg hrate (div_neg_of_pos_of_neg hfirst hweight)) ?_
  exact add_pos_of_nonneg_of_pos (Real.sqrt_nonneg _) (by norm_num)

/-- With a negative weight, a step on a line that overshoots its target makes the line steeper. -/
theorem steepens_lineFit (n : Nat) (hweight : seenWeight (decay₁ : ℝ) (n + 1) < 0) :
    ∃ w b : ℝ, 1 < w ∧ (Optimizer.stepped (atOne 0).x (atOne 0).y (atOne 0).rate [1]
      (Graph.lineFit, (Optimizer.ofMethod .adam).counting n)).1.table.params[1]? =
        some [w, b] := by
  have hsound := (Graph.reachable_lineFit (α := ℝ)).sound
  let s : Adam ℝ := { Adam.start (Graph.lineFit : Graph ℝ).table.params with steps := n }
  have hline : s.params = (Graph.lineWith 1 0).table.params := rfl
  have hfollows : Follows Graph.lineFit (Graph.lineFit, (Optimizer.ofMethod .adam).counting n) s :=
    follows_counting hsound n
  have hslope : (s.graph Graph.lineFit).lossSlope (atOne 0).x (atOne 0).y 1 0 = 2 := by
    rw [lossSlope_line hline]
    norm_num
  obtain ⟨grads, hgrads⟩ := accepts_atOne 0
  have hloud : (s.graph Graph.lineFit).silent (atOne 0).x (atOne 0).y 1 = false := by
    by_contra hsilent
    have hzero := Graph.lossSlope_of_silent hfollows.sound_graph
      ((hfollows.gradients_graph _ _).trans hgrads) (by simpa using hsilent) 0
    exact two_ne_zero (hslope.symm.trans hzero)
  have hfirst : 0 < s.nextFirst ((s.graph Graph.lineFit).lossSlope (atOne 0).x (atOne 0).y) 1 0 := by
    have hstart : s.first 1 0 = 0 := rfl
    rw [nextFirst, hslope, hstart, decay₁_real]
    norm_num
  have hrate : 0 < (atOne 0).rate := by norm_num [atOne]
  have hstepped := (hfollows.step (l := atOne 0) (List.nodup_singleton 1) ⟨grads, hgrads⟩).params
  have hold : s.params[1]? = some [1, 0] := rfl
  rw [hstepped, pausing, getElem?_params_advance, hold, hloud]
  exact ⟨_, _, sub_pos.1 (by simpa using change_neg hweight hrate hfirst _), rfl⟩

/-- A new optimizer after `2 ^ 31 - 1` steps on the fixed line. -/
def worn : Optimizer ℝ := (Optimizer.ofMethod .adam).counting (2 ^ 31 - 1)

/-- In its next step the exponent is negative, and so are both divisors.  The line overshoots its
target, and the step makes it steeper.  After `2 ^ 32 - 1` steps both divisors are zero. -/
theorem corrects_bias_fails :
    worn.HasTaken .adam (2 ^ 31 - 1) ∧ biasExponent (2 ^ 31) = -2 ^ 31 ∧
      (∀ decay ∈ [(decay₁ : ℝ), decay₂], seenWeight decay (2 ^ 31) < 0) ∧
      (Graph.lineFit : Graph ℝ).lossSlope (atOne 0).x (atOne 0).y 1 0 = 2 ∧
      (Graph.lineFit : Graph ℝ).table.params[1]? = some [1, 0] ∧
      (∃ w b : ℝ, 1 < w ∧ (worn.step Graph.lineFit (atOne 0).x (atOne 0).y (atOne 0).rate
        [1]).graph.table.params[1]? = some [w, b]) ∧
    ((Optimizer.ofMethod .adam : Optimizer ℝ).counting (2 ^ 32 - 1)).HasTaken .adam (2 ^ 32 - 1) ∧
      ∀ decay ∈ [(decay₁ : ℝ), decay₂], seenWeight decay (2 ^ 32) = 0 := by
  have hnegative : ∀ decay ∈ [(decay₁ : ℝ), decay₂], seenWeight decay (2 ^ 31) < 0 := by
    intro decay hdecay
    obtain ⟨hpos, hlt⟩ := Optimizer.decay_cases decay hdecay
    exact (Optimizer.seenWeight_cases hpos hlt _).2.2.2
      ((Optimizer.biasExponent_cases (2 ^ 31)).2.2.2.2 (by norm_num))
  refine ⟨Optimizer.hasTaken_counting .adam _, ?_, hnegative, ?_, rfl, ?_,
    Optimizer.hasTaken_counting .adam _, fun decay hdecay => ?_⟩
  · rfl
  · exact (lossSlope_line (s := Adam.start (Graph.lineFit : Graph ℝ).table.params) rfl 0 0).trans
      (by norm_num)
  · exact steepens_lineFit (2 ^ 31 - 1) (hnegative decay₁ (by simp))
  · obtain ⟨hpos, hlt⟩ := Optimizer.decay_cases decay hdecay
    exact (Optimizer.seenWeight_cases hpos hlt _).2.1.2
      ((Optimizer.biasExponent_cases (2 ^ 32)).2.2.1.2 (dvd_refl _))

end Adam

end FeatureGraph
