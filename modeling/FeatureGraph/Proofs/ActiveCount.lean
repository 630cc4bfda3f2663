import FeatureGraph.Proofs.Bypass
import FeatureGraph.Proofs.Census

/-!
# How many nodes are active

A census, the list of the nodes that an optimizer may update, the tape and the report on a new model
each go through a graph in a way of their own: by the numbers of the nodes, by their flags, in the
order of a sort, and along the parents of what is kept.  They find the same active nodes.

* `NodeTable.steps_of_compile` counts the steps of a tape, and `length_activeIds_activateOnly` what
  is left active when some nodes are kept.
* `Model.exists_census_of_select` counts the active nodes of a model.
* `Reachable.counts_agree` puts them together, for graphs that actions lead to.
-/

namespace FeatureGraph

variable {ε α : Type}

/-- A tape has a step for each active node. -/
theorem NodeTable.steps_of_compile {t : NodeTable α} {tape : Tape} (h : t.compile = .ok tape) :
    tape.size = t.activeIds.length := by
  have hordered := (t.meets_compile.ok tape h).ordered
  have hperm : tape.order.Perm t.activeIds :=
    (List.perm_ext_iff_of_nodup hordered.nodup t.nodup_activeIds).2 hordered.active
  rw [← hperm.length_eq]
  simp [Tape.size, Tape.order]

namespace Graph

/-- What is kept is active, and nothing else is. -/
theorem length_activeIds_activateOnly {g : Graph α} (hg : g.Sound) {kept : List NodeId}
    (hnodup : kept.Nodup) (hinside : ∀ id ∈ kept, id < g.size) :
    (g.activateOnly kept).table.activeIds.length = kept.length := by
  have hactive := NodeTable.nodup_activeIds (g.activateOnly kept).table
  refine ((List.perm_ext_iff_of_nodup hactive hnodup).2 fun id => ?_).length_eq
  rw [Model.mem_activeIds_activateOnly hg]
  exact and_iff_right_of_imp (hinside id)

end Graph

namespace Model

variable [Arith α]

/-- The census of a model counts what is kept for its features, and the output, the target and the
objective. -/
theorem exists_census_of_select {f : Forest α} {g : Graph α} (hg : g.Sound) {m : NodeMapping}
    {keep : Feature α → Bool} {model : Model α}
    (hselect : (select f g m keep).outcome = .ok model) :
    ∃ c, (model.census : Outcome ε Census) = .ok c ∧ c.active = model.stats.active + 3 := by
  obtain ⟨picked, _, _, hmodel⟩ := of_select_eq_ok hselect
  obtain ⟨kept, w, hkept, hwire, rfl⟩ := ofPicks_eq_ok.1 hmodel
  obtain ⟨hwirable, tape, _, rfl⟩ := (wire_eq_ok (hg.activateOnly kept)).1 hwire
  obtain ⟨c, hcensus, hc⟩ :=
    hwirable.sound_withObjective.table.wellFormed.exists_census (ε := ε)
  obtain ⟨kept', hkept', hwalked⟩ :=
    NodeTable.exists_ancestry (ε := GraphError) hg.table.wellFormed hwirable.inside
  obtain rfl := Outcome.ok_eq_iff.1 (hkept.symm.trans hkept')
  refine ⟨c, hcensus, ?_⟩
  have hnodup := NodeTable.nodup_collectAncestry List.nodup_nil hkept
  calc c.active = (g.activateOnly kept').table.activeIds.length + 3 := by
        rw [hc.active, hwirable.activeIds_withObjective, List.length_append]
        rfl
    _ = kept'.length + 3 := by
        rw [Graph.length_activeIds_activateOnly hg hnodup hwalked.inside]

end Model

namespace Graph

variable [Arith α]

/-- All counts of active nodes agree.  The parameters that a census calls trainable are those of the
nodes that the optimizer may update, and with the protected ones they are all parameters of active
nodes; the counts by name add up to the number of active nodes; and so many nodes are answered by
bypassing the others, and reported for a model without its output, target and objective. -/
theorem Reachable.counts_agree {g : Graph α} (hg : g.Reachable) :
    ∃ c ids, (g.table.census : Outcome GraphError Census) = .ok c ∧
      (g.table.trainable : Outcome GraphError (List NodeId)) = .ok ids ∧
      c.trainableParams = g.table.paramTotal ids ∧
      c.trainableParams + c.constantParams = g.table.paramTotal g.table.activeIds ∧
      (c.byName.map Prod.snd).sum = c.active ∧
      (∀ n, (Edit.bypassInactive.on g).1 = .ok n → n = c.active) ∧
      ∀ (f : Forest α) (m : NodeMapping) (keep : Feature α → Bool) (model : Model α),
        (Model.select f g m keep).outcome = .ok model →
          ∃ c', (model.census : Outcome GraphError Census) = .ok c' ∧
            c'.active = model.stats.active + 3 := by
  have hsound := hg.sound
  have ht := hsound.table.wellFormed
  obtain ⟨c, hcensus, hc⟩ := ht.exists_census (ε := GraphError)
  refine ⟨c, g.table.trainableIds, hcensus, ht.trainable_eq, ?_, ?_, ?_, fun n hn => ?_, ?_⟩
  · rw [hc.trainable, NodeTable.paramTotal_trainableIds]
  · rw [hc.trainable, hc.constant, NodeTable.paramTotal_split]
  · rw [hc.byNameSum, hc.active]
  · rw [Edit.on_bypassInactive] at hn
    obtain ⟨p, hp, rfl⟩ : ∃ p, g.bypassInactive = .ok p ∧ p.1 = n := by
      cases hrun : g.bypassInactive with
      | error fault => rw [hrun] at hn; cases hn
      | ok p => rw [hrun] at hn; exact ⟨p, rfl, Except.ok.inj hn⟩
    obtain ⟨tape, htape, rfl⟩ := bypassInactive_eq_ok.1 hp
    rw [hc.active, NodeTable.steps_of_compile htape]
  · exact fun f m keep model hselect => Model.exists_census_of_select hsound hselect

/-- With the power switched off, bypassing and the census count the same two nodes, and the model of
the exponential has three nodes more than it keeps. -/
theorem Reachable.counts_agree_bypassedPower :
    (run bypassedPower).Reachable ∧
      (∃ c, ((run bypassedPower).table.census : Outcome GraphError Census) = .ok c ∧
        (Edit.bypassInactive.on (run bypassedPower)).1 = .ok c.active) ∧
      ∃ model c, (Model.select Forest.columnAndRoot (run bypassedPower) bypassedMapping
          fun feature => feature.op == .sqrt).outcome = .ok model ∧
        (model.census : Outcome GraphError Census) = .ok c ∧
        c.active = model.stats.active + 3 := by
  have hg := reachable_run bypassedPower
  obtain ⟨c, _, hcensus, _, _, _, _, hbypass, hselection⟩ := hg.counts_agree
  have hcounted : (Edit.bypassInactive.on (run bypassedPower)).1 = .ok 2 := rfl
  refine ⟨hg, ⟨c, hcensus, ?_⟩, ?_⟩
  · rw [hcounted, hbypass 2 hcounted]
  · have hpicks : Model.picks (Forest.columnAndRoot : Forest Float) bypassedMapping
        (fun feature => feature.op == .sqrt) = .ok [⟨1, _, 2⟩] := rfl
    have hsize : (run bypassedPower).size = 3 := rfl
    obtain ⟨model, hselect⟩ :=
      Model.exists_select_of_picks hg.sound hpicks (by simp) (by simp [hsize])
    obtain ⟨c', hcensus', hactive⟩ := hselection _ _ _ _ hselect
    exact ⟨model, c', hselect, hcensus', hactive⟩

end Graph

end FeatureGraph
