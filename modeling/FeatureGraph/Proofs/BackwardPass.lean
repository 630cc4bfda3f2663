import FeatureGraph.Proofs.Pairing

/-!
# The backward pass

Reverse mode against forward mode, in exact arithmetic.  The pass goes from the
objective back to the first slot.  What it has collected for a parameter, together with
the pairing of the gradients that are still to be handed on with the tangents, is the
mean tangent of the objective all the time.

* `Skips` says at which nodes a step changes nothing, and `backwardStep_of_skips` and
  `backwardStep_of_not_skips` what one step does.
* `Balanced` is that invariant, `exists_backwardStep` is one step and
  `exists_backward_run` the whole pass.
* `gradients_eq_mean_tangent` is the statement about graphs that actions lead to.
-/

namespace FeatureGraph

variable {α : Type} [ExactArith α]

theorem Primitive.length_paramSlopes {op : Primitive} (args : List α) (out : α)
    (hop : op.admits args.length = true) :
    (op.paramSlopes args out).length = op.paramCount args.length := by
  cases op with
  | pow =>
    obtain ⟨a, rfl⟩ := List.length_eq_one_iff.1 (show args.length = 1 by
      simpa [admits, arity?] using hop)
    rfl
  | linear | output => simp [paramSlopes, paramCount]
  | _ => simp [paramSlopes, paramCount]

namespace NodeTable

variable {t : NodeTable α} {x : Matrix α} {y : Option (List α)}

/-- The tangent of the node in a slot. -/
def slotTangent (t : NodeTable α) (x : Matrix α) (y : Option (List α)) (moved : NodeId)
    (j : Nat) (k : Nat) (r : Fin x.nRows) : α :=
  t.tangentAt (x.sample y r) moved j (t.activeIds.getD k 0)

/-- The gradient of a node's column times its slopes: what the node hands on to its
parents, with their slots. -/
def handedOn (t : NodeTable α) (x : Matrix α) (y : Option (List α)) (op : Primitive)
    (ps : List α) (node : NodeId) (grad : Fin x.nRows → α) : List (Nat × (Fin x.nRows → α)) :=
  (List.range (t.parentList node).length).map fun q =>
    (t.activeIds.idxOf ((t.parentList node).getD q 0), fun r =>
      grad r * (op.argSlopes ps ((t.parentList node).map (t.valueAt (x.sample y r)))
        (t.valueAt (x.sample y r) node)).getD q 0)

/-- The gradient of the parameters of a node. -/
def collected (t : NodeTable α) (x : Matrix α) (y : Option (List α)) (op : Primitive)
    (ps : List α) (node : NodeId) (grad : Fin x.nRows → α) : List α :=
  (List.range ps.length).map fun j =>
    ∑ r, grad r * (op.paramSlopes ((t.parentList node).map (t.valueAt (x.sample y r)))
      (t.valueAt (x.sample y r) node)).getD j 0

/-- The local rule of a node, on the columns of a forward pass. -/
theorem exists_backward (ht : t.Sound) {node : NodeId} {op : Primitive} {ps : List α}
    (hop : t.ops[node]? = some op) (hps : t.params[node]? = some ps) (grad : Fin x.nRows → α) :
    ∃ pulled : Primitive.Pullback α,
      op.backward ps ((t.parentList node).map (t.columnAt x y)) (t.columnAt x y node)
          (List.ofFn grad) = (.ok pulled : Outcome GraphError (Primitive.Pullback α)) ∧
      ((t.parentList node).map t.activeIds.idxOf).zip pulled.srcs =
        (t.handedOn x y op ps node grad).map (fun e => (e.1, List.ofFn e.2)) ∧
      pulled.params = t.collected x y op ps node grad := by
  have hcolumns : (t.parentList node).map (t.columnAt x y) =
      ((t.parentList node).map fun p r => t.valueAt (x.sample y r) p).map List.ofFn := by
    simp [columnAt, Function.comp_def]
  have hadmits := ht.arity node op hop
  have hcount := ht.paramCount node op ps hop hps
  rw [hcolumns]
  refine ⟨_, Primitive.backward_ofFn _ (by simpa using hadmits) (by simpa using hcount)
    (fun r => t.valueAt (x.sample y r) node) grad, ?_, ?_⟩
  · refine List.ext_getElem (by simp [handedOn]) fun q hq _ => ?_
    have hqp : q < (t.parentList node).length := by simpa using hq
    simp [handedOn, Function.comp_def, hqp]
  · simp [collected, Function.comp_def]

/-- A node hands on to smaller slots. -/
theorem lt_of_mem_handedOn (ht : t.Sound) (hclosed : t.Closed) {i : Nat}
    (hi : i < t.activeIds.length) {op : Primitive} {ps : List α} {grad : Fin x.nRows → α} :
    ∀ e ∈ t.handedOn x y op ps t.activeIds[i] grad, e.1 < i := by
  intro e he
  obtain ⟨q, hq, rfl⟩ := List.mem_map.1 he
  have hqp : q < (t.parentList t.activeIds[i]).length := List.mem_range.1 hq
  refine hclosed.idxOf_lt ht hi ?_
  simp [hqp]

/-- A node hands on what its tangent takes from the tangents of its parents. -/
theorem sum_handedOn (hclosed : t.Closed) {node : NodeId} (hnode : node ∈ t.activeIds)
    (op : Primitive) (ps : List α) (grad : Fin x.nRows → α) (moved : NodeId) (j : Nat) :
    ((t.handedOn x y op ps node grad).map fun e =>
        ∑ r, e.2 r * t.slotTangent x y moved j e.1 r).sum =
      ∑ r, grad r * (List.zipWith (· * ·)
        (op.argSlopes ps ((t.parentList node).map (t.valueAt (x.sample y r)))
          (t.valueAt (x.sample y r) node))
        ((t.parentList node).map (t.tangentAt (x.sample y r) moved j))).sum := by
  have hlist : ∀ f : Nat → α, ((List.range (t.parentList node).length).map f).sum =
      ∑ q ∈ Finset.range (t.parentList node).length, f q := fun _ => rfl
  have htangent : ∀ q ∈ Finset.range (t.parentList node).length, ∀ r,
      t.slotTangent x y moved j (t.activeIds.idxOf ((t.parentList node).getD q 0)) r =
        ((t.parentList node).map (t.tangentAt (x.sample y r) moved j)).getD q 0 := by
    intro q hq r
    have hqp : q < (t.parentList node).length := Finset.mem_range.1 hq
    have hmem := hclosed node hnode _ (List.getElem_mem hqp)
    simp [slotTangent, hqp, List.getElem?_idxOf hmem]
  simp only [handedOn, List.map_map, Function.comp_def, hlist, sum_zipWith_mul, List.length_map,
    Finset.mul_sum]
  rw [Finset.sum_comm]
  refine Finset.sum_congr rfl fun r _ => Finset.sum_congr rfl fun q hq => ?_
  rw [htangent q hq r, mul_assoc]

/-- What the backward pass keeps, when the slots from `i` on have been handed on: the
gradient collected for the parameter and the pairing over the other slots add up to the
total, and nothing has been collected for the nodes in those slots. -/
structure Balanced (t : NodeTable α) (x : Matrix α) (y : Option (List α)) (moved : NodeId)
    (j : Nat) (total : α) (i : Nat) (adj : Tape.Adjoint α) : Prop where
  slots : ∃ a : Nat → Fin x.nRows → α, adj.slots = gradientSlots t.activeIds.length a ∧
    pairing i a (t.slotTangent x y moved j) + (adj.params.get moved).getD j 0 = total
  size : adj.params.params.size = t.size
  pending : ∀ k (hk : k < t.activeIds.length), k < i → adj.params.get t.activeIds[k] = []

/-- A slot whose gradients and tangents have no product anywhere may be skipped. -/
theorem Balanced.skip {moved : NodeId} {j i : Nat} {total : α} {adj : Tape.Adjoint α}
    {a : Nat → Fin x.nRows → α} (h : t.Balanced x y moved j total (i + 1) adj)
    (ha : adj.slots = gradientSlots t.activeIds.length a)
    (hbalance : pairing (i + 1) a (t.slotTangent x y moved j) +
      (adj.params.get moved).getD j 0 = total)
    (hzero : ∀ r, a i r * t.slotTangent x y moved j i r = 0) :
    t.Balanced x y moved j total i adj where
  slots := by
    refine ⟨a, ha, ?_⟩
    rw [pairing_succ, Finset.sum_eq_zero fun r _ => hzero r, add_zero] at hbalance
    exact hbalance
  size := h.size
  pending k hk hki := h.pending k hk (by omega)

/-- A node has one slope for each of its parameters. -/
theorem length_paramSlopes_eq (ht : t.Sound) {node : NodeId} {op : Primitive} {ps : List α}
    (hop : t.ops[node]? = some op) (hps : t.params[node]? = some ps) (s : Sample α) :
    (op.paramSlopes ((t.parentList node).map (t.valueAt s)) (t.valueAt s node)).length =
      ps.length := by
  rw [Primitive.length_paramSlopes _ _ (by simpa using ht.arity node op hop), List.length_map,
    ht.paramCount node op ps hop hps]

theorem getD_collected (ht : t.Sound) {node : NodeId} {op : Primitive} {ps : List α}
    (hop : t.ops[node]? = some op) (hps : t.params[node]? = some ps) (grad : Fin x.nRows → α)
    (j : Nat) :
    (t.collected x y op ps node grad).getD j 0 =
      ∑ r, grad r * (op.paramSlopes ((t.parentList node).map (t.valueAt (x.sample y r)))
        (t.valueAt (x.sample y r) node)).getD j 0 := by
  by_cases hj : j < ps.length
  · simp [collected, hj]
  · have hnone : ∀ r, (op.paramSlopes ((t.parentList node).map (t.valueAt (x.sample y r)))
        (t.valueAt (x.sample y r) node)).getD j 0 = 0 := by
      intro r
      have hlength := length_paramSlopes_eq ht hop hps (x.sample y r)
      rw [List.getD_eq_getElem?_getD, List.getElem?_eq_none (by omega)]
      rfl
    rw [Finset.sum_eq_zero fun r _ => by rw [hnone r, mul_zero]]
    simp [collected, hj]

/-- Nothing moves a node that is dropped. -/
theorem slotTangent_of_dropped (ht : t.Sound) {i : Nat} (hi : i < t.activeIds.length)
    {op : Primitive} {ps : List α} (hop : t.ops[t.activeIds[i]]? = some op)
    (hps : t.params[t.activeIds[i]]? = some ps)
    (hdropped : t.dropped[t.activeIds[i]]? = some true) (moved : NodeId) (j : Nat)
    (r : Fin x.nRows) : t.slotTangent x y moved j i r = 0 := by
  have hnode : t.activeIds.getD i 0 = t.activeIds[i] := by simp [hi]
  rw [slotTangent, hnode, ht.tangentAt_eq _ moved j hop hps hdropped, if_pos rfl]

/-- The tangent in a slot whose node is not dropped. -/
theorem slotTangent_eq (ht : t.Sound) {i : Nat} (hi : i < t.activeIds.length) {op : Primitive}
    {ps : List α} (hop : t.ops[t.activeIds[i]]? = some op)
    (hps : t.params[t.activeIds[i]]? = some ps)
    (hkept : t.dropped[t.activeIds[i]]? = some false) (moved : NodeId) (j : Nat)
    (r : Fin x.nRows) :
    t.slotTangent x y moved j i r =
      (List.zipWith (· * ·)
        (op.argSlopes ps ((t.parentList t.activeIds[i]).map (t.valueAt (x.sample y r)))
          (t.valueAt (x.sample y r) t.activeIds[i]))
        ((t.parentList t.activeIds[i]).map (t.tangentAt (x.sample y r) moved j))).sum +
      if t.activeIds[i] = moved then
        (op.paramSlopes ((t.parentList t.activeIds[i]).map (t.valueAt (x.sample y r)))
          (t.valueAt (x.sample y r) t.activeIds[i])).getD j 0
      else 0 := by
  have hnode : t.activeIds.getD i 0 = t.activeIds[i] := by simp [hi]
  rw [slotTangent, hnode, ht.tangentAt_eq _ moved j hop hps hkept, if_neg Bool.false_ne_true]

/-- Nothing moves a node without parents and parameters. -/
theorem slotTangent_of_inert (ht : t.Sound) {i : Nat} (hi : i < t.activeIds.length)
    {op : Primitive} (hop : t.ops[t.activeIds[i]]? = some op)
    (hps : t.params[t.activeIds[i]]? = some [])
    (hkept : t.dropped[t.activeIds[i]]? = some false)
    (hparents : t.parentList t.activeIds[i] = []) (moved : NodeId) (j : Nat)
    (r : Fin x.nRows) : t.slotTangent x y moved j i r = 0 := by
  have hlength := length_paramSlopes_eq ht hop hps (x.sample y r)
  have hslopes := List.length_eq_zero_iff.1 hlength
  rw [hparents, List.map_nil] at hslopes
  simp [slotTangent_eq ht hi hop hps hkept, hparents, hslopes]

/-- Handing a slot on keeps the balance. -/
theorem Balanced.handOn {moved : NodeId} {j i : Nat} {total : α} {adj : Tape.Adjoint α}
    {a : Nat → Fin x.nRows → α} {op : Primitive} {ps : List α} (ht : t.Sound)
    (hclosed : t.Closed) (hi : i < t.activeIds.length)
    (hop : t.ops[t.activeIds[i]]? = some op) (hps : t.params[t.activeIds[i]]? = some ps)
    (hkept : t.dropped[t.activeIds[i]]? = some false)
    (h : t.Balanced x y moved j total (i + 1) adj)
    (hbalance : pairing (i + 1) a (t.slotTangent x y moved j) +
      (adj.params.get moved).getD j 0 = total) :
    t.Balanced x y moved j total i {
      slots := gradientSlots t.activeIds.length
        (addAll a (t.handedOn x y op ps t.activeIds[i] (a i)))
      params := ⟨adj.params.params.setIfInBounds t.activeIds[i]
        (t.collected x y op ps t.activeIds[i] (a i))⟩ } where
  slots := by
    have hmem : t.activeIds[i] ∈ t.activeIds := List.getElem_mem hi
    have hsize : t.activeIds[i] < adj.params.params.size :=
      h.size ▸ lt_size_of_mem_activeIds hmem
    refine ⟨_, rfl, ?_⟩
    rw [pairing_addAll a _ (lt_of_mem_handedOn ht hclosed hi), sum_handedOn hclosed hmem,
      ← hbalance, pairing_succ]
    simp only [slotTangent_eq ht hi hop hps hkept, mul_add, Finset.sum_add_distrib]
    by_cases hmoved : t.activeIds[i] = moved
    · -- the parameter belongs to this node, and nothing has been collected for it before
      have hbefore : adj.params.get moved = [] := hmoved ▸ h.pending i hi (by omega)
      have hafter : (Gradients.get ⟨adj.params.params.setIfInBounds t.activeIds[i]
          (t.collected x y op ps t.activeIds[i] (a i))⟩ moved) =
          t.collected x y op ps t.activeIds[i] (a i) :=
        hmoved ▸ Gradients.get_set_self hsize _
      rw [hafter, hbefore, getD_collected ht hop hps]
      simp [hmoved, add_assoc]
    · rw [Gradients.get_set_ne hmoved]
      simp [hmoved]
  size := by simpa using h.size
  pending k hk hki := by
    have hne : t.activeIds[i] ≠ t.activeIds[k] := fun heq =>
      Nat.ne_of_gt hki (t.nodup_activeIds.getElem_inj_iff.1 heq)
    rw [Gradients.get_set_ne hne]
    exact h.pending k hk (by omega)

/-- A node that hands nothing on: it is dropped, it has neither parents nor parameters, or its
gradient is zero in all rows. -/
def Skips (t : NodeTable α) {n : Nat} (node : NodeId) (grad : Fin n → α) : Prop :=
  t.dropped[node]? = some true ∨ (t.parentList node = [] ∧ t.params[node]? = some []) ∨
    ∀ r, grad r = 0

section Step

variable {i : Nat} {adj : Tape.Adjoint α} {a : Nat → Fin x.nRows → α}

/-- The step at a node that hands nothing on changes nothing. -/
theorem backwardStep_of_skips (ht : t.Sound) (hi : i < t.activeIds.length)
    (ha : adj.slots = gradientSlots t.activeIds.length a) (h : t.Skips t.activeIds[i] (a i)) :
    Tape.backwardStep t (t.computed x y t.activeIds.length) adj
        (⟨t.activeIds[i], (t.parentList t.activeIds[i]).map t.activeIds.idxOf⟩, i) = .ok adj := by
  have hlt := lt_size_of_mem_activeIds (List.getElem_mem hi)
  have hop := ht.ops_getElem? hlt
  obtain ⟨ps, hps⟩ := ht.params_getElem? hlt
  obtain ⟨dropped, hdropped⟩ := ht.dropped_getElem? hlt
  have hgrad : (adj.slots.get i : Outcome GraphError (List α)) = .ok (List.ofFn (a i)) := by
    rw [ha, get_gradientSlots hi]
  simp only [Tape.backwardStep, Outcome.fetch_eq_ok.2 hdropped, Outcome.ok_bind]
  cases dropped with
  | true => rfl
  | false =>
    simp only [Outcome.fetch_eq_ok.2 hop, Outcome.fetch_eq_ok.2 hps, hgrad, Outcome.ok_bind,
      Bool.false_eq_true, if_false]
    split
    · rfl
    rename_i hfed
    rcases h with hdrop | ⟨hparents, hnone⟩ | hzero
    · rw [hdropped] at hdrop
      cases hdrop
    · rw [hps] at hnone
      exact absurd (by simp [hparents, Option.some.inj hnone]) hfed
    · have hall : (List.ofFn (a i)).all (Arith.eqv · 0) = true :=
        List.all_eq_true.2 fun v hv => by
          obtain ⟨r, rfl⟩ := List.mem_ofFn.1 hv
          exact (ExactArith.eqv_iff _ _).2 (hzero r)
      rw [if_pos hall]
      rfl

/-- The step at any other node hands its gradient on, to its parents and to its parameters. -/
theorem backwardStep_of_not_skips (ht : t.Sound) (hclosed : t.Closed)
    (hi : i < t.activeIds.length) (ha : adj.slots = gradientSlots t.activeIds.length a)
    (hsize : adj.params.params.size = t.size) {op : Primitive} {ps : List α}
    (hop : t.ops[t.activeIds[i]]? = some op) (hps : t.params[t.activeIds[i]]? = some ps)
    (h : ¬t.Skips t.activeIds[i] (a i)) :
    Tape.backwardStep t (t.computed x y t.activeIds.length) adj
        (⟨t.activeIds[i], (t.parentList t.activeIds[i]).map t.activeIds.idxOf⟩, i) =
      .ok {
        slots := gradientSlots t.activeIds.length
          (addAll a (t.handedOn x y op ps t.activeIds[i] (a i)))
        params := ⟨adj.params.params.setIfInBounds t.activeIds[i]
          (t.collected x y op ps t.activeIds[i] (a i))⟩ } := by
  have hlt := lt_size_of_mem_activeIds (List.getElem_mem hi)
  obtain ⟨dropped, hdropped⟩ := ht.dropped_getElem? hlt
  have hkept : dropped = false := by
    cases dropped with
    | false => rfl
    | true => exact absurd (.inl hdropped) h
  have hgrad : (adj.slots.get i : Outcome GraphError (List α)) = .ok (List.ofFn (a i)) := by
    rw [ha, get_gradientSlots hi]
  have hfed : ¬(((t.parentList t.activeIds[i]).map t.activeIds.idxOf).isEmpty && ps.isEmpty) =
      true := by
    intro hinert
    obtain ⟨hparents, rfl⟩ : t.parentList t.activeIds[i] = [] ∧ ps = [] := by simpa using hinert
    exact h (.inr (.inl ⟨hparents, hps⟩))
  have hmoved : ¬(List.ofFn (a i)).all (Arith.eqv · 0) = true := by
    intro hzero
    refine h (.inr (.inr fun r => (ExactArith.eqv_iff _ _).1 ?_))
    exact List.all_eq_true.1 hzero (a i r) (by simp)
  have hstore : ∀ b, (Outcome.store adj.params.params t.activeIds[i] b :
      Outcome GraphError (Array (List α))) =
      .ok (adj.params.params.setIfInBounds t.activeIds[i] b) :=
    fun b => Outcome.store_eq_ok.2 ⟨hsize ▸ hlt, rfl⟩
  obtain ⟨pulled, hpulled, hsrcs, hparams⟩ := exists_backward (y := y) ht hop hps (a i)
  simp only [Tape.backwardStep, Outcome.fetch_eq_ok.2 hdropped, hkept, Outcome.fetch_eq_ok.2 hop,
    Outcome.fetch_eq_ok.2 hps, hgrad, Outcome.ok_bind, Bool.false_eq_true, if_false]
  rw [if_neg hfed, if_neg hmoved]
  simp only [mapM_get_computed ht hclosed hi (Nat.le_of_lt hi), get_computed_length hi, hpulled,
    hsrcs, ha, foldlM_accumulate (Nat.le_of_lt hi) (lt_of_mem_handedOn ht hclosed hi), hstore,
    hparams, Outcome.ok_bind, Outcome.pure_eq_ok]

end Step

/-- One step of the pass succeeds and keeps the balance. -/
theorem exists_backwardStep (ht : t.Sound) (hclosed : t.Closed) {moved : NodeId} {j i : Nat}
    {total : α} {adj : Tape.Adjoint α} (hi : i < t.activeIds.length)
    (h : t.Balanced x y moved j total (i + 1) adj) :
    ∃ adj', Tape.backwardStep t (t.computed x y t.activeIds.length) adj
        (⟨t.activeIds[i], (t.parentList t.activeIds[i]).map t.activeIds.idxOf⟩, i) = .ok adj' ∧
      t.Balanced x y moved j total i adj' := by
  obtain ⟨a, ha, hbalance⟩ := h.slots
  have hlt := lt_size_of_mem_activeIds (List.getElem_mem hi)
  have hop := ht.ops_getElem? hlt
  obtain ⟨ps, hps⟩ := ht.params_getElem? hlt
  obtain ⟨dropped, hdropped⟩ := ht.dropped_getElem? hlt
  by_cases hskips : t.Skips t.activeIds[i] (a i)
  · refine ⟨adj, backwardStep_of_skips ht hi ha hskips, h.skip ha hbalance fun r => ?_⟩
    cases dropped with
    | true => rw [slotTangent_of_dropped ht hi hop hps hdropped, mul_zero]
    | false =>
      rcases hskips with hdrop | ⟨hparents, hnone⟩ | hzero
      · rw [hdropped] at hdrop
        cases hdrop
      · -- without parents and parameters nothing moves the node
        rw [slotTangent_of_inert ht hi hop hnone hdropped hparents, mul_zero]
      · rw [hzero r, zero_mul]
  · have hkept : t.dropped[t.activeIds[i]]? = some false := by
      cases dropped with
      | false => exact hdropped
      | true => exact absurd (.inl hdropped) hskips
    exact ⟨_, backwardStep_of_not_skips ht hclosed hi ha h.size hop hps hskips,
      h.handOn ht hclosed hi hop hps hkept hbalance⟩

/-- Before the first step one over the number of rows stands at the objective. -/
theorem seed_eq {slot : Nat} (hslot : slot < t.activeIds.length) (nRows : Nat) :
    Tape.seed t t.straightTape nRows slot = .ok ⟨gradientSlots t.activeIds.length
      (Function.update (fun _ _ => 0) slot fun _ : Fin nRows => 1 / (nRows : α)),
      ⟨Array.replicate t.size []⟩⟩ := by
  have hseed : List.replicate nRows (1 / (nRows : α)) =
      List.ofFn fun _ : Fin nRows => 1 / (nRows : α) := List.ofFn_const _ _ |>.symm
  rw [Tape.seed, size_straightTape, zeros_eq_gradientSlots, hseed, set_gradientSlots hslot,
    Outcome.ok_bind, Outcome.pure_eq_ok]

/-- The balance before the first step. -/
theorem balanced_seed {slot : Nat} (hslot : slot < t.activeIds.length) (moved : NodeId) (j : Nat) :
    ∃ adj, Tape.seed t t.straightTape x.nRows slot = .ok adj ∧
      t.Balanced x y moved j
        (Arith.mean (List.ofFn fun r => t.slotTangent x y moved j slot r)) (slot + 1) adj := by
  refine ⟨_, seed_eq hslot x.nRows, ⟨_, rfl, ?_⟩, ?_, ?_⟩
  · have hothers : ∀ k ∈ Finset.range slot, ∑ r, Function.update (fun _ _ => 0) slot
        (fun _ : Fin x.nRows => 1 / (x.nRows : α)) k r * t.slotTangent x y moved j k r = 0 := by
      intro k hk
      have hne : k ≠ slot := Nat.ne_of_lt (Finset.mem_range.1 hk)
      simp [Function.update_of_ne hne]
    rw [Gradients.get_replicate, pairing_succ, pairing, Finset.sum_eq_zero hothers, zero_add,
      Arith.mean_ofFn]
    simp [mul_comm]
  · exact Array.size_replicate
  · exact fun k hk _ => Gradients.get_replicate _ _

omit [ExactArith α] in
/-- The instruction in a slot, as the pass meets it. -/
theorem getElem_zipIdx_steps {i : Nat} (hi : i < t.activeIds.length)
    (h : i < t.straightTape.steps.zipIdx.length) :
    t.straightTape.steps.zipIdx[i] =
      (⟨t.activeIds[i], (t.parentList t.activeIds[i]).map t.activeIds.idxOf⟩, i) := by
  simp [straightTape]

/-- A pass from any slot back to the first succeeds and keeps the balance. -/
theorem exists_backward_run (ht : t.Sound) (hclosed : t.Closed) {moved : NodeId} {j : Nat}
    {total : α} {i : Nat} (hi : i ≤ t.activeIds.length) {adj : Tape.Adjoint α}
    (h : t.Balanced x y moved j total i adj) :
    ∃ adj', ((t.straightTape.steps.zipIdx.take i).reverse).foldlM
        (Tape.backwardStep t (t.computed x y t.activeIds.length)) adj = .ok adj' ∧
      t.Balanced x y moved j total 0 adj' := by
  induction i generalizing adj with
  | zero => exact ⟨adj, rfl, h⟩
  | succ i ih =>
    obtain ⟨adj₁, hstep, h₁⟩ := exists_backwardStep ht hclosed hi h
    obtain ⟨adj₂, hrun, h₂⟩ := ih (by omega) h₁
    have hlength : i < t.straightTape.steps.zipIdx.length := by simpa [straightTape] using hi
    refine ⟨adj₂, ?_, h₂⟩
    rw [List.take_succ_eq_append_getElem hlength, List.reverse_append, List.reverse_singleton,
      List.singleton_append, List.foldlM_cons, getElem_zipIdx_steps hi, hstep, Outcome.ok_bind,
      hrun]

omit [ExactArith α] in
/-- A pass from an active objective goes through the slots from that of the objective down to the
first. -/
theorem backward_of_mem [Arith α] {objective : NodeId} (hobjective : objective ∈ t.activeIds) :
    t.straightTape.backward t (t.computed x y t.activeIds.length) objective =
      Tape.seed t t.straightTape x.nRows (t.activeIds.idxOf objective) >>=
        ((t.straightTape.steps.zipIdx.take (t.activeIds.idxOf objective + 1)).reverse).foldlM
          (Tape.backwardStep t (t.computed x y t.activeIds.length)) := by
  have hsize : (t.computed x y t.activeIds.length).size = t.straightTape.size := by
    simp [computed, Slots.size]
  rw [Tape.backward, slotOf?_straightTape, if_pos hobjective]
  exact if_neg (not_not.2 hsize)

/-- The pass over the columns of a forward pass succeeds, and what it collects for a
parameter is the mean tangent of the objective. -/
theorem exists_backward_eq_ok (ht : t.Sound) (hclosed : t.Closed) {objective : NodeId}
    (hobjective : objective ∈ t.activeIds) :
    ∃ adj, t.straightTape.backward t (t.computed x y t.activeIds.length) objective = .ok adj ∧
      ∀ moved j, (adj.params.get moved).getD j 0 =
        Arith.mean (List.ofFn fun r => t.tangentAt (x.sample y r) moved j objective) := by
  have hslot := List.idxOf_lt_length_iff.2 hobjective
  have hrun : ∀ moved j, ∃ adj,
      t.straightTape.backward t (t.computed x y t.activeIds.length) objective = .ok adj ∧
      (adj.params.get moved).getD j 0 =
        Arith.mean (List.ofFn fun r => t.tangentAt (x.sample y r) moved j objective) := by
    intro moved j
    obtain ⟨adj₀, hseed, hbalanced₀⟩ := balanced_seed (x := x) (y := y) hslot moved j
    obtain ⟨adj, hrun, hbalanced⟩ := exists_backward_run ht hclosed hslot hbalanced₀
    refine ⟨adj, ?_, ?_⟩
    · rw [backward_of_mem hobjective, hseed, Outcome.ok_bind, hrun]
    · obtain ⟨a, _, htotal⟩ := hbalanced.slots
      rw [pairing, Finset.range_zero, Finset.sum_empty, zero_add] at htotal
      simpa [slotTangent, List.getElem?_idxOf hobjective] using htotal
  obtain ⟨adj, hadj, _⟩ := hrun 0 0
  refine ⟨adj, hadj, fun moved j => ?_⟩
  obtain ⟨adj', hadj', heq⟩ := hrun moved j
  rw [hadj, Except.ok.injEq] at hadj'
  rw [hadj', heq]

end NodeTable

/-! ## Graphs -/

namespace Graph

variable {g : Graph α} {x : Matrix α} {y : List α}

/-- Gradients of a graph whose first objective is active. -/
theorem exists_gradients_eq_ok (hg : g.Sound) {objective : NodeId} {rest : List NodeId}
    (hobjectives : g.objectives = objective :: rest) (hclosed : g.table.Closed)
    (hdata : g.table.Accepts x (some y)) (hobjective : objective ∈ g.table.activeIds) :
    ∃ grads, (g.gradients x y).1 = .ok grads ∧
      ∀ moved j, (grads.get moved).getD j 0 =
        Arith.mean (List.ofFn fun r =>
          g.table.tangentAt (x.sample (some y) r) moved j objective) := by
  obtain ⟨adj, hadj, heq⟩ := NodeTable.exists_backward_eq_ok (x := x) (y := some y) hg.table
    hclosed hobjective
  refine ⟨adj.params, ?_, heq⟩
  have hforward := (runForward_eq_ok_iff hg).2 ⟨hclosed, hdata, rfl⟩
  simp only [gradients, hobjectives, hforward, Outcome.ok_bind, hadj, Outcome.pure_eq_ok]

/-- Gradients are answered only if the graph has an objective, it is active and the
forward pass succeeds. -/
theorem of_gradients_eq_ok (hg : g.Sound) {grads : Gradients α}
    (hpass : (g.gradients x y).1 = .ok grads) :
    ∃ objective rest, g.objectives = objective :: rest ∧ g.table.Closed ∧
      g.table.Accepts x (some y) ∧ objective ∈ g.table.activeIds := by
  obtain ⟨objective, tape, values, adj, hhead, hforward, hback, _⟩ :=
    exists_passes_of_gradients_eq_ok hpass
  obtain ⟨rest, hobjectives⟩ := List.head?_eq_some_iff.1 hhead
  obtain ⟨hclosed, hdata, hp⟩ := (runForward_eq_ok_iff hg).1 hforward
  obtain ⟨rfl, rfl⟩ := Prod.mk.inj hp
  refine ⟨objective, rest, hobjectives, hclosed, hdata, ?_⟩
  by_contra hinactive
  rw [Tape.backward, NodeTable.slotOf?_straightTape, if_neg hinactive] at hback
  cases hback

/-- Reverse mode is forward mode: the gradient of a parameter is the mean over the rows of
the tangent of the first objective when that parameter moves with speed one.  A node with
an empty gradient, and a node that the objective does not depend on, have gradient zero.
The tangents obey the recursion on parents with the slopes of `Primitive.backward_ofFn`. -/
theorem gradients_eq_mean_tangent (hg : g.Reachable) {grads : Gradients α}
    (hpass : (g.gradients x y).1 = .ok grads) :
    (∀ s moved j id (op : Primitive) ps dropped, g.table.ops[id]? = some op →
      g.table.params[id]? = some ps → g.table.dropped[id]? = some dropped →
      g.table.tangentAt s moved j id =
        if dropped then 0
        else
          (List.zipWith (· * ·)
            (op.argSlopes ps ((g.table.parentList id).map (g.table.valueAt s))
              (g.table.valueAt s id))
            ((g.table.parentList id).map (g.table.tangentAt s moved j))).sum +
          if id = moved then
            (op.paramSlopes ((g.table.parentList id).map (g.table.valueAt s))
              (g.table.valueAt s id)).getD j 0
          else 0) ∧
    ∃ objective, g.objectives.head? = some objective ∧
      ∀ moved j, (grads.get moved).getD j 0 =
        Arith.mean (List.ofFn fun r =>
          g.table.tangentAt (x.sample (some y) r) moved j objective) := by
  have hsound := hg.sound
  refine ⟨fun s moved j id op ps dropped hop hps hdropped =>
    hsound.table.tangentAt_eq s moved j hop hps hdropped, ?_⟩
  obtain ⟨objective, rest, hobjectives, hclosed, hdata, hobjective⟩ :=
    of_gradients_eq_ok hsound hpass
  obtain ⟨grads', hgrads', heq⟩ :=
    exists_gradients_eq_ok hsound hobjectives hclosed hdata hobjective
  rw [hpass, Except.ok.injEq] at hgrads'
  exact ⟨objective, by rw [hobjectives, List.head?_cons], hgrads' ▸ heq⟩

/-- The line through two rows of real numbers. -/
theorem gradients_eq_mean_tangent_lineFit :
    ∃ grads, ((lineFit : Graph ℝ).gradients (.ofFn 2 1 fun _ _ => 3) [1, 2]).1 = .ok grads ∧
      ∃ objective, (lineFit : Graph ℝ).objectives.head? = some objective ∧
        ∀ moved j, (grads.get moved).getD j 0 =
          Arith.mean (List.ofFn fun r => (lineFit : Graph ℝ).table.tangentAt
            ((Matrix.ofFn 2 1 fun _ _ => 3).sample (some [1, 2]) r) moved j objective) := by
  have hforward : ((lineFit : Graph ℝ).evaluate (.ofFn 2 1 fun _ _ => 3) (some [1, 2])).1 =
      .ok () := by rfl
  obtain ⟨hclosed, hdata⟩ := (evaluate_eq_ok_iff reachable_lineFit.sound).1 hforward
  have hobjective : 3 ∈ (lineFit : Graph ℝ).table.activeIds := by decide
  obtain ⟨grads, hgrads, _⟩ := exists_gradients_eq_ok reachable_lineFit.sound rfl hclosed hdata
    hobjective
  exact ⟨grads, hgrads, (gradients_eq_mean_tangent reachable_lineFit hgrads).2⟩

end Graph

end FeatureGraph
