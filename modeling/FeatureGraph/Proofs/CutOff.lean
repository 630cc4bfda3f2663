import FeatureGraph.Proofs.BackwardPass
import FeatureGraph.Proofs.Descent

/-!
# Nodes that are cut off from the loss

Training reaches a node along the paths from it to the first objective.  Where each of them passes
a dropped node, training leaves the parameters and the running means of the node as they are,
whatever the data are: no column of it is computed with, so all that the arithmetic has to say is
that zero equals zero.

* `NodeTable.CutOff` is the condition, and `CutOff.of_parent` carries it along an edge.
* `Tape.Spared` is the invariant of a backward pass: a node that is cut off has no gradient, and its
  slot holds zeros, unless it is dropped itself.  `spared_backwardStep` is one step, and
  `spared_backward` the pass.
* `kept_updateNode` says what one update leaves alone, and `run_keeps_cutOff` is the statement about
  descents.
-/

namespace FeatureGraph

variable {ε α : Type}

namespace NodeTable

/-- A path of active nodes, each of them a parent of the next. -/
structure Leads (t : NodeTable α) (path : List NodeId) (id target : NodeId) : Prop where
  first : path.head? = some id
  last : path.getLast? = some target
  links : path.IsChain fun parent child => parent ∈ t.parentList child
  active : ∀ q ∈ path, t.active[q]? = some true

/-- Every path from a node to the target passes a dropped node. -/
def CutOff (t : NodeTable α) (target id : NodeId) : Prop :=
  ∀ path, t.Leads path id target → ∃ q ∈ path, t.dropped[q]? = some true

variable {t : NodeTable α} {target id : NodeId}

theorem getElem?_active (ht : t.Sound) (hid : id ∈ t.activeIds) : t.active[id]? = some true := by
  have hon := (mem_activeIds ht).1 hid
  cases hget : t.active[id]? with
  | none => simp [hget] at hon
  | some on => simpa [hget] using hon

/-- A path to a child is prolonged by a parent. -/
theorem Leads.cons {path : List NodeId} (h : t.Leads path id target) {p : NodeId}
    (hp : p ∈ t.parentList id) (hactive : t.active[p]? = some true) :
    t.Leads (p :: path) p target where
  first := rfl
  last := by
    rw [List.getLast?_cons, h.last]
    rfl
  links := List.isChain_cons.2
    ⟨fun child hchild => by
      rw [h.first] at hchild
      exact Option.some.inj hchild ▸ hp, h.links⟩
  active := by
    rintro q (_ | ⟨_, hq⟩)
    · exact hactive
    · exact h.active q hq

/-- What hangs on a node that is cut off and not dropped itself is cut off too. -/
theorem CutOff.of_parent {p : NodeId} (h : t.CutOff target p) (hp : p ∈ t.parentList id)
    (hactive : t.active[p]? = some true) (hdropped : t.dropped[p]? = some false) :
    t.CutOff target id := by
  intro path hpath
  obtain ⟨q, hq, hqdropped⟩ := h _ (hpath.cons hp hactive)
  rcases List.mem_cons.1 hq with rfl | hq
  · cases hdropped.symm.trans hqdropped
  · exact ⟨q, hq, hqdropped⟩

/-- A target that is active and not dropped is not cut off from itself. -/
theorem not_cutOff_self (hactive : t.active[target]? = some true)
    (hdropped : t.dropped[target]? = some false) : ¬t.CutOff target target := by
  intro h
  obtain ⟨q, hq, hqdropped⟩ := h [target]
    ⟨rfl, rfl, .singleton _, fun q hq => List.mem_singleton.1 hq ▸ hactive⟩
  rw [List.mem_singleton.1 hq] at hqdropped
  cases hdropped.symm.trans hqdropped

end NodeTable

/-! ## Slots -/

section Slots

variable {slots slots' : Slots α} {i k : Nat}

/-- A write to a slot changes no other slot. -/
theorem Slots.get_of_set {s : Nat} {column : List α}
    (h : (slots.set s column : Outcome ε (Slots α)) = .ok slots') (hk : k ≠ s) :
    (slots'.get k : Outcome ε (List α)) = slots.get k := by
  obtain ⟨old, _, h⟩ := Outcome.bind_eq_ok.1 h
  split at h
  · cases h
  · rw [Outcome.ok_eq_iff.1 h, get, get, Outcome.fetch, Outcome.fetch,
      Array.getElem?_setIfInBounds_ne hk.symm]

/-- Handing gradients on to some slots changes no other slot. -/
theorem Tape.get_of_accumulate [Arith α] {l : List (Nat × List α)}
    (h : l.foldlM (accumulate i) slots = .ok slots') (hk : ∀ e ∈ l, k ≠ e.1) :
    (slots'.get k : Outcome GraphError (List α)) = slots.get k := by
  refine Outcome.foldlM_keeps
    (P := fun s : Slots α => (s.get k : Outcome GraphError (List α)) = slots.get k) h rfl
    fun s s' e he hs hstep => ?_
  unfold accumulate at hstep
  split at hstep
  · cases hstep
  · obtain ⟨old, _, hstep⟩ := Outcome.bind_eq_ok.1 hstep
    rw [Slots.get_of_set hstep (hk e he), hs]

end Slots

/-- A slot of zeros holds zeros. -/
theorem Slots.all_eqv_zero [Arith α] (heqv : Arith.eqv (0 : α) 0 = true) {m nRows : Nat}
    {column : List α} (h : ((zeros m nRows).get k : Outcome ε (List α)) = .ok column) :
    column.all (Arith.eqv · 0) = true := by
  unfold get at h
  split at h
  · rw [← Except.ok.inj h]
    rfl
  · have hcolumn := Outcome.fetch_eq_ok.1 h
    have hk : k < m := by simpa [zeros] using (Array.getElem?_eq_some_iff.1 hcolumn).1
    have hzeros : column = Column.zeros nRows := by simpa [zeros, hk, eq_comm] using hcolumn
    simp [hzeros, Column.zeros, heqv]

/-! ## Backward passes -/

namespace Tape

open NodeTable

variable [Arith α] {t : NodeTable α} {objective : NodeId} {values : Slots α}

/-- No gradient has reached a node that is cut off, but for the columns of dropped nodes. -/
structure Spared (t : NodeTable α) (objective : NodeId) (adj : Adjoint α) : Prop where
  slots : ∀ (k : Nat) (hk : k < t.activeIds.length), t.CutOff objective t.activeIds[k] →
    t.dropped[t.activeIds[k]]? = some false →
    ∀ grad, (adj.slots.get k : Outcome GraphError (List α)) = .ok grad →
      grad.all (Arith.eqv · 0) = true
  params : ∀ id, t.CutOff objective id → adj.params.get id = []

theorem spared_seed (heqv : Arith.eqv (0 : α) 0 = true) (ht : t.Sound)
    (hobjective : objective ∈ t.activeIds) {nRows : Nat} {start : Adjoint α}
    (h : seed t t.straightTape nRows (t.activeIds.idxOf objective) = .ok start) :
    Spared t objective start := by
  obtain ⟨slots, hslots, h⟩ := Outcome.bind_eq_ok.1 h
  rw [Outcome.ok_eq_iff.1 h]
  constructor
  · intro k hk hcut hdropped grad hgrad
    have hne : k ≠ t.activeIds.idxOf objective := by
      rintro rfl
      rw [List.getElem_idxOf] at hcut hdropped
      exact not_cutOff_self (getElem?_active ht hobjective) hdropped hcut
    rw [Slots.get_of_set hslots hne] at hgrad
    exact Slots.all_eqv_zero heqv hgrad
  · exact fun id _ => Gradients.get_replicate t.size id

/-- The gradient of a node goes to its parents and to its own parameters, and to nothing at all if
the node is dropped or if its gradient is zero. -/
theorem spared_backwardStep (ht : t.Sound) (hclosed : t.Closed) {k : Nat}
    (hk : k < t.activeIds.length) {adj adj' : Adjoint α} (hadj : Spared t objective adj)
    (h : backwardStep t values adj
      (⟨t.activeIds[k], (t.parentList t.activeIds[k]).map t.activeIds.idxOf⟩, k) = .ok adj') :
    Spared t objective adj' := by
  obtain ⟨dropped, hdropped, h⟩ := Outcome.bind_eq_ok.1 h
  split at h
  · exact Outcome.ok_eq_iff.1 h ▸ hadj
  rename_i hkept
  rw [Outcome.fetch_eq_ok, Bool.eq_false_of_not_eq_true hkept] at hdropped
  obtain ⟨op, _, h⟩ := Outcome.bind_eq_ok.1 h
  obtain ⟨params, _, h⟩ := Outcome.bind_eq_ok.1 h
  obtain ⟨grad, hgrad, h⟩ := Outcome.bind_eq_ok.1 h
  split at h
  · exact Outcome.ok_eq_iff.1 h ▸ hadj
  split at h
  · exact Outcome.ok_eq_iff.1 h ▸ hadj
  rename_i hnonzero
  -- a node whose gradient is not zero is not cut off, and so none of its parents is spared
  have hlit : ¬t.CutOff objective t.activeIds[k] := fun hcut =>
    hnonzero (hadj.slots k hk hcut hdropped grad hgrad)
  obtain ⟨srcs, _, h⟩ := Outcome.bind_eq_ok.1 h
  obtain ⟨out, _, h⟩ := Outcome.bind_eq_ok.1 h
  obtain ⟨pulled, _, h⟩ := Outcome.bind_eq_ok.1 h
  obtain ⟨slots, hslots, h⟩ := Outcome.bind_eq_ok.1 h
  obtain ⟨gradients, hstore, h⟩ := Outcome.bind_eq_ok.1 h
  rw [Outcome.ok_eq_iff.1 h]
  constructor
  · intro j hj hcut hkeptj grad' hgrad'
    have hother : ∀ e ∈ ((t.parentList t.activeIds[k]).map t.activeIds.idxOf).zip pulled.srcs,
        j ≠ e.1 := by
      rintro e he rfl
      obtain ⟨p, hp, hslot⟩ := List.mem_map.1 (List.of_mem_zip he).1
      have hmem : p ∈ t.activeIds := hclosed _ (List.getElem_mem hk) p hp
      have hnode : t.activeIds[e.1] = p := by
        simp only [← hslot]
        exact List.getElem_idxOf _
      rw [hnode] at hcut hkeptj
      exact hlit (hcut.of_parent hp (getElem?_active ht hmem) hkeptj)
    exact hadj.slots j hj hcut hkeptj grad' (get_of_accumulate hslots hother ▸ hgrad')
  · intro id hcut
    have hne : t.activeIds[k] ≠ id := fun heq => hlit (heq ▸ hcut)
    rw [(Outcome.store_eq_ok.1 hstore).2, Gradients.get_set_ne hne]
    exact hadj.params id hcut

theorem spared_backward (heqv : Arith.eqv (0 : α) 0 = true) (ht : t.Sound) (hclosed : t.Closed)
    {adj : Adjoint α} (h : t.straightTape.backward t values objective = .ok adj) :
    Spared t objective adj := by
  unfold backward at h
  rw [slotOf?_straightTape] at h
  split at h
  · cases h
  rename_i slot hslot
  split at hslot
  · rename_i hobjective
    obtain rfl := Option.some.inj hslot
    split at h
    · cases h
    obtain ⟨start, hseed, h⟩ := Outcome.bind_eq_ok.1 h
    refine Outcome.foldlM_keeps h (spared_seed heqv ht hobjective hseed)
      fun adj adj' entry hentry hadj hstep => ?_
    obtain ⟨k, hk, rfl⟩ :=
      List.getElem_of_mem (List.mem_of_mem_take (List.mem_reverse.1 hentry))
    have hactive : k < t.activeIds.length := by simpa [straightTape] using hk
    rw [getElem_zipIdx_steps hactive] at hstep
    exact spared_backwardStep ht hclosed hactive hadj hstep
  · cases hslot

end Tape

/-! ## Gradients and updates -/

/-- Training cannot reach a node: it is cut off from the first objective, if there is one. -/
def Graph.Unreached (g : Graph α) (id : NodeId) : Prop :=
  ∀ objective, g.objectives.head? = some objective → g.table.CutOff objective id

/-- What training cannot reach depends on the edges, on the activation and on the drop flags. -/
theorem Graph.Unreached.congr {g g' : Graph α} {id : NodeId} (h : g.Unreached id)
    (hsame : SameNodes g g') (hactive : g'.table.active = g.table.active)
    (hdropped : g'.table.dropped = g.table.dropped) : g'.Unreached id := by
  intro objective hobjective path hpath
  rw [hsame.objectives] at hobjective
  rw [hdropped]
  refine h objective hobjective path ⟨hpath.first, hpath.last, ?_, ?_⟩
  · simpa only [hsame.parentList] using hpath.links
  · simpa only [hactive] using hpath.active

section Descents

variable [Arith α] {g g' : Graph α} {x : Matrix α} {y : List α} {id : NodeId}

/-- The gradient of a node that is cut off is empty. -/
theorem Graph.get_gradients_unreached (heqv : Arith.eqv (0 : α) 0 = true) (hg : g.Sound)
    (h : g.Unreached id) {grads : Gradients α} (hpass : (g.gradients x y).1 = .ok grads) :
    grads.get id = [] := by
  obtain ⟨objective, tape, values, adjoint, hhead, hrun, hback, rfl, _⟩ :=
    exists_passes_of_gradients_eq_ok hpass
  obtain ⟨hclosed, _, hp⟩ := (runForward_eq_ok_iff hg).1 hrun
  obtain ⟨rfl, _⟩ := Prod.mk.inj hp
  exact (Tape.spared_backward heqv hg.table hclosed hback).params id (h objective hhead)

namespace Optimizer

variable {rate : α} {grads : Gradients α} {nodes : List NodeId} {o : Optimizer α}

/-- An update of any node leaves a node without a gradient as it is. -/
theorem kept_updateNode {s s' : Graph α × Optimizer α} {i : NodeId} (hempty : grads.get id = [])
    (h : updateNode rate grads s i = .ok s') :
    s'.1.table.params[id]? = s.1.table.params[id]? ∧ s'.2.moments? id = s.2.moments? id := by
  rcases s with ⟨g, o⟩
  have hne : grads.get i ≠ [] → id ≠ i := fun hgrad heq => hgrad (heq ▸ hempty)
  obtain ⟨_, rfl⟩ | ⟨hgrad, _, _, ⟨_, rfl⟩ | ⟨_, _, _, _, rfl⟩⟩ := of_updateNode_eq_ok h
  · exact ⟨rfl, rfl⟩
  · exact ⟨Array.getElem?_setIfInBounds_ne (hne hgrad).symm, rfl⟩
  · refine ⟨Array.getElem?_setIfInBounds_ne (hne hgrad).symm, ?_⟩
    rw [moments?_setMoments, if_neg (hne hgrad)]

/-- Training still cannot reach a node, and the node has the parameters and the running means with
which training began. -/
structure Keeps (g₀ : Graph α) (o₀ : Optimizer α) (id : NodeId) (s : Graph α × Optimizer α) :
    Prop where
  sound : s.1.Sound
  unreached : s.1.Unreached id
  params : s.1.table.params[id]? = g₀.table.params[id]?
  moments : s.2.moments? id = o₀.moments? id

namespace Keeps

variable {g₀ : Graph α} {o₀ : Optimizer α} {s s' : Graph α × Optimizer α}

theorem pass (h : Keeps g₀ o₀ id s) (x : Matrix α) (y : List α) :
    Keeps g₀ o₀ id ((s.1.gradients x y).2, s.2) := by
  have htable := Graph.gradients_snd_table s.1 x y
  refine ⟨h.sound.gradients x y, ?_, ?_, h.moments⟩
  · exact h.unreached.congr (onlyTrained_gradients s.1 x y).toSameNodes (by rw [htable])
      (by rw [htable])
  · dsimp only
    rw [htable, h.params]

theorem updateNode {i : NodeId} (h : Keeps g₀ o₀ id s) (hempty : grads.get id = [])
    (hstep : updateNode rate grads s i = .ok s') : Keeps g₀ o₀ id s' := by
  obtain ⟨hparams, hmoments⟩ := kept_updateNode hempty hstep
  refine ⟨?_, ?_, hparams.trans h.params, hmoments.trans h.moments⟩
  all_goals rcases updateNode_fst hstep with hsame | ⟨old, ps, hold, hlength, hother⟩
  · exact hsame ▸ h.sound
  · exact hother ▸ h.sound.of_change (.params i (.inr ⟨old, hold, hlength⟩))
  · exact hsame ▸ h.unreached
  · exact hother ▸ h.unreached.congr ((SameNodes.refl s.1).withColumns _ _ _ _ _ _) rfl rfl

theorem step (heqv : Arith.eqv (0 : α) 0 = true) (h : Keeps g₀ o₀ id s) (x : Matrix α)
    (y : List α) (rate : α) (nodes : List NodeId) :
    Keeps g₀ o₀ id (stepped x y rate nodes s) := by
  have hpass := h.pass x y
  have hgrads : ∀ grads, (s.1.gradients x y).1 = .ok grads → grads.get id = [] :=
    fun grads => Graph.get_gradients_unreached heqv h.sound h.unreached
  unfold stepped Optimizer.step
  rcases hrun : s.1.gradients x y with ⟨_ | grads, g'⟩
  all_goals rw [hrun] at hpass hgrads
  · exact hpass
  · have hcounted : Keeps g₀ o₀ id (g', { s.2 with steps := s.2.steps + 1 }) :=
      ⟨hpass.sound, hpass.unreached, hpass.params, hpass.moments⟩
    dsimp only
    split
    · exact hcounted
    · rename_i hupdates
      exact Outcome.foldlM_keeps hupdates hcounted fun _ _ i _ hs hstep =>
        hs.updateNode (hgrads grads rfl) hstep

theorem steps? (heqv : Arith.eqv (0 : α) 0 = true) (h : Keeps g₀ o₀ id s) (x : Matrix α)
    (y : List α) (rate : α) (nodes : List NodeId) (n : Nat) :
    Keeps g₀ o₀ id ((Optimizer.steps? x y rate nodes n s.2 s.1).graph,
      (Optimizer.steps? x y rate nodes n s.2 s.1).optimizer) := by
  induction n generalizing s with
  | zero => exact h
  | succ n ih =>
    have hstep := h.step heqv x y rate nodes
    unfold stepped at hstep
    unfold Optimizer.steps?
    rcases hrun : s.2.step s.1 x y rate nodes with ⟨_ | loss, g', o'⟩
    · rw [hrun] at hstep
      exact hstep
    · rw [hrun] at hstep
      exact ih hstep

end Keeps

/-- Training leaves a node alone that is cut off from the first objective by dropped nodes, whatever
the data, the method, the rate, the running means and the number of steps are, and whether the run
succeeds or fails: the node keeps its parameters and its running means. -/
theorem run_keeps_cutOff (heqv : Arith.eqv (0 : α) 0 = true) (hg : g.Reachable)
    (hcut : g.Unreached id) (o : Optimizer α) (x : Matrix α) (y : List α) (n : Nat) (rate : α) :
    (o.run g x y n rate).1.graph.table.params[id]? = g.table.params[id]? ∧
      (o.run g x y n rate).1.optimizer.moments? id = o.moments? id := by
  have hstart : Keeps g o id (g, o) := ⟨hg.sound, hcut, rfl, rfl⟩
  unfold run
  split
  · exact ⟨rfl, rfl⟩
  · rename_i nodes _
    have hsteps := hstart.steps? heqv x y rate nodes n
    dsimp only
    split <;> exact ⟨hsteps.params, hsteps.moments⟩

end Optimizer

end Descents

/-! ## A dropped branch -/

section Example

/-- Two ways from the input to the output, and the longer one has its end dropped. -/
def droppedBranch [Arith α] : List (Action α) :=
  [.addInput "x", .addNode .linear [0] "a", .addNode .exp [1] "e", .addOutput [0, 2] "out",
    .addTarget "y", .addObjective 3 4 "error", .setDropped 2 true]

/-- The first node of the longer way is cut off: all that reads it is dropped. -/
theorem unreached_droppedBranch : (Graph.run (droppedBranch (α := Float))).Unreached 1 := by
  have hchildren : ∀ child < 6,
      1 ∈ (Graph.run (droppedBranch (α := Float))).table.parentList child → child = 2 := by
    decide +kernel
  intro objective hobjective path hpath
  obtain rfl : 5 = objective := Option.some.inj hobjective
  rcases hpath with ⟨hfirst, hlast, hlinks, hactive⟩
  match path, hfirst, hlast, hlinks with
  | [_], rfl, hlast, _ => cases hlast
  | _ :: child :: rest, rfl, hlast, hlinks =>
    have hchild := hactive child (by simp)
    have hlt : child < 6 := (Array.getElem?_eq_some_iff.1 hchild).1
    obtain rfl := hchildren child hlt (List.isChain_cons_cons.1 hlinks).1
    exact ⟨2, by simp, rfl⟩

/-- Two steps over an infinity and a number that is none leave the node with its first parameters,
and without running means. -/
theorem run_keeps_cutOff_droppedBranch :
    Arith.eqv (0 : Float) 0 = true ∧ (Graph.run (droppedBranch (α := Float))).Reachable ∧
    (Graph.run (droppedBranch (α := Float))).Unreached 1 ∧
    (((Optimizer.ofMethod .adam).run (Graph.run (droppedBranch (α := Float)))
      (.ofFn 1 1 fun _ _ => Arith.inf) [Arith.nan] 2 0.5).1.graph.table.params[1]? =
        some [1, 0] ∧
    ((Optimizer.ofMethod .adam).run (Graph.run (droppedBranch (α := Float)))
      (.ofFn 1 1 fun _ _ => Arith.inf) [Arith.nan] 2 0.5).1.optimizer.moments? 1 = none) := by
  have heqv : Arith.eqv (0 : Float) 0 = true := by decide
  exact ⟨heqv, Graph.reachable_run _, unreached_droppedBranch,
    Optimizer.run_keeps_cutOff heqv (Graph.reachable_run _) unreached_droppedBranch _ _ _ _ _⟩

end Example

end FeatureGraph
