import FeatureGraph.Graph.Census
import FeatureGraph.Proofs.Compilation

/-!
# What a census counts

The census of a well-formed table goes through the nodes in the order of their numbers.  It counts
the active ones, in total and by the names of their primitives, and their parameters, the protected
ones apart from those that may be updated.

* `WellFormed.trainable_eq` lists the nodes that an optimizer may update, and
  `paramTotal_trainableIds` says that they have all the parameters that may be updated.
* `Census.Summarizes` is what a census says about a list of nodes, and `Summarizes.enter` counts one
  more node.
* `WellFormed.exists_census` is the census of a table, which summarizes its active nodes.
-/

namespace FeatureGraph

open Outcome (Meets meets_ok)

/-! ## Names -/

/-- One more occurrence is counted. -/
theorem sum_tally (name : String) (counts : List (String × Nat)) :
    ((tally name counts).map Prod.snd).sum = (counts.map Prod.snd).sum + 1 := by
  induction counts with
  | nil => rfl
  | cons entry rest ih =>
    obtain ⟨other, n⟩ := entry
    rw [tally]
    split
    · simp only [List.map_cons, List.sum_cons]
      omega
    · simp only [List.map_cons, List.sum_cons, ih]
      omega

/-- It is counted under its name. -/
theorem lookup_tally (name : String) (counts : List (String × Nat)) (query : String) :
    ((tally name counts).lookup query).getD 0 =
      (counts.lookup query).getD 0 + if query = name then 1 else 0 := by
  induction counts with
  | nil =>
    rw [tally, List.lookup_cons, List.lookup_nil]
    cases hquery : query == name <;> simp_all
  | cons entry rest ih =>
    obtain ⟨other, n⟩ := entry
    rw [tally]
    by_cases hother : other = name
    · rw [if_pos hother, hother, List.lookup_cons, List.lookup_cons]
      cases hquery : query == name <;> simp_all
    · rw [if_neg hother, List.lookup_cons, List.lookup_cons]
      cases hquery : query == other with
      | true =>
        have hne : query ≠ name := beq_iff_eq.1 hquery ▸ hother
        simp [hne]
      | false => exact ih

theorem mem_keys_tally {name query : String} {counts : List (String × Nat)} :
    query ∈ (tally name counts).map Prod.fst ↔ query = name ∨ query ∈ counts.map Prod.fst := by
  induction counts with
  | nil => simp [tally]
  | cons entry rest ih =>
    obtain ⟨other, n⟩ := entry
    rw [tally]
    split
    · rename_i hother
      simp [hother]
    · rw [List.map_cons, List.map_cons, List.mem_cons, List.mem_cons, ih, or_left_comm]

/-- Each name stands once. -/
theorem nodup_keys_tally (name : String) {counts : List (String × Nat)}
    (h : (counts.map Prod.fst).Nodup) : ((tally name counts).map Prod.fst).Nodup := by
  induction counts with
  | nil => simp [tally]
  | cons entry rest ih =>
    obtain ⟨other, n⟩ := entry
    obtain ⟨hother, hrest⟩ := List.nodup_cons.1 h
    rw [tally]
    split
    · exact h
    · rename_i hne
      refine List.nodup_cons.2 ⟨fun hmem => ?_, ih hrest⟩
      exact (mem_keys_tally.1 hmem).elim hne hother

namespace NodeTable

variable {ε α : Type} {t : NodeTable α} {ids : List NodeId}

/-! ## Parameters -/

/-- Number of parameters of the listed nodes. -/
def paramTotal (t : NodeTable α) (ids : List NodeId) : Nat :=
  (ids.map fun id => ((t.params[id]?).getD []).length).sum

@[simp] theorem paramTotal_nil : t.paramTotal [] = 0 := rfl

@[simp] theorem paramTotal_cons (id : NodeId) (ids : List NodeId) :
    t.paramTotal (id :: ids) = ((t.params[id]?).getD []).length + t.paramTotal ids := rfl

@[simp] theorem paramTotal_append (ids later : List NodeId) :
    t.paramTotal (ids ++ later) = t.paramTotal ids + t.paramTotal later := by
  rw [paramTotal, List.map_append, List.sum_append]
  rfl

/-- Each parameter is protected, or it may be updated. -/
theorem paramTotal_split (p : NodeId → Bool) (ids : List NodeId) :
    t.paramTotal (ids.filter fun id => !p id) + t.paramTotal (ids.filter p) = t.paramTotal ids := by
  rw [Nat.add_comm, ← paramTotal_append]
  exact ((List.filter_append_perm p ids).map _).sum_eq

/-- The active nodes that have parameters which may be updated. -/
def trainableIds (t : NodeTable α) : List NodeId :=
  (t.activeIds.filter fun id => !(t.constant[id]?).getD false).filter fun id =>
    !((t.params[id]?).getD []).isEmpty

/-- Nodes without parameters do not count. -/
theorem paramTotal_trainableIds (t : NodeTable α) :
    t.paramTotal t.trainableIds =
      t.paramTotal (t.activeIds.filter fun id => !(t.constant[id]?).getD false) := by
  rw [trainableIds]
  induction t.activeIds.filter fun id => !(t.constant[id]?).getD false with
  | nil => rfl
  | cons id ids ih =>
    rw [List.filter_cons, paramTotal_cons, ← ih]
    split
    · rfl
    · rename_i hempty
      simp [show (t.params[id]?).getD [] = [] by simpa using hempty]

/-- The nodes that an optimizer may update. -/
theorem WellFormed.trainable_eq (ht : t.WellFormed) :
    (t.trainable : Outcome ε (List NodeId)) = .ok t.trainableIds := by
  have hfilter : t.trainableIds = (List.range t.size).filter fun id =>
      (t.active[id]?).getD false && !(t.constant[id]?).getD false &&
        !((t.params[id]?).getD []).isEmpty := by
    rw [trainableIds, activeIds, List.filter_filter, List.filter_filter]
    refine List.filter_congr fun id _ => ?_
    ac_rfl
  rw [hfilter]
  refine Outcome.filterM_ok fun id hid => ?_
  have hid := List.mem_range.1 hid
  obtain ⟨active, hactive⟩ := ht.active_getElem? hid
  obtain ⟨ps, hps⟩ := ht.params_getElem? hid
  obtain ⟨constant, hconstant⟩ := ht.constant_getElem? hid
  simp only [isTrainable, Outcome.fetch_eq_ok.2 hactive, Outcome.fetch_eq_ok.2 hps,
    Outcome.fetch_eq_ok.2 hconstant, Outcome.ok_bind, hactive, hps, hconstant]
  cases active <;> cases constant <;> rfl

theorem WellFormed.exists_trainable (ht : t.WellFormed) :
    ∃ ids, (t.trainable : Outcome ε (List NodeId)) = .ok ids :=
  ⟨_, ht.trainable_eq⟩

end NodeTable

/-! ## Counting -/

namespace Census

variable {ε α : Type} {t : NodeTable α} {ids : List NodeId}

/-- What a census says about the listed nodes. -/
structure Summarizes (c : Census) (t : NodeTable α) (ids : List NodeId) : Prop where
  total : c.total = t.size
  active : c.active = ids.length
  names : (c.byName.map Prod.fst).Nodup
  byName : ∀ name, (c.byName.lookup name).getD 0 =
    ids.countP fun id => (t.ops[id]?).map Primitive.name = some name
  byNameSum : (c.byName.map Prod.snd).sum = ids.length
  trainable : c.trainableParams =
    t.paramTotal (ids.filter fun id => !(t.constant[id]?).getD false)
  constant : c.constantParams = t.paramTotal (ids.filter fun id => (t.constant[id]?).getD false)

theorem summarizes_nil (t : NodeTable α) : Summarizes { total := t.size } t [] where
  total := rfl
  active := rfl
  names := List.nodup_nil
  byName _ := rfl
  byNameSum := rfl
  trainable := rfl
  constant := rfl

/-- One more active node is counted. -/
theorem Summarizes.enter {c : Census} (h : c.Summarizes t ids) {id : NodeId} {op : Primitive}
    {ps : List α} {constant : Bool} (hop : t.ops[id]? = some op)
    (hactive : t.active[id]? = some true) (hps : t.params[id]? = some ps)
    (hconstant : t.constant[id]? = some constant) :
    ∃ c', (t.count c (op, id) : Outcome ε Census) = .ok c' ∧ c'.Summarizes t (ids ++ [id]) := by
  have hbyName : ∀ name, ((tally op.name c.byName).lookup name).getD 0 =
      (ids ++ [id]).countP fun id => (t.ops[id]?).map Primitive.name = some name := by
    intro name
    rw [lookup_tally, h.byName, List.countP_append, List.countP_singleton]
    simp [hop, eq_comm]
  simp only [NodeTable.count, Outcome.fetch_eq_ok.2 hactive, Outcome.fetch_eq_ok.2 hps,
    Outcome.fetch_eq_ok.2 hconstant, Outcome.ok_bind]
  -- the parameters count for one of the two totals, and the other one stays
  cases constant
  all_goals
    refine ⟨_, rfl, ?_⟩
    exact {
      total := h.total
      active := by simp [h.active]
      names := nodup_keys_tally op.name h.names
      byName := hbyName
      byNameSum := by simp [sum_tally, h.byNameSum]
      trainable := by simp [h.trainable, hconstant, hps]
      constant := by simp [h.constant, hconstant, hps] }

end Census

namespace NodeTable

variable {ε α : Type} {t : NodeTable α}

/-- The census of a table summarizes its active nodes. -/
theorem WellFormed.exists_census (ht : t.WellFormed) :
    ∃ c, (t.census : Outcome ε Census) = .ok c ∧ c.Summarizes t t.activeIds := by
  set seen : Nat → List NodeId := fun k =>
    (List.range k).filter fun id => (t.active[id]?).getD false with hseen
  have hlength : t.ops.toList.zipIdx.length = t.size := by simp [size]
  have hrun : Meets (fun _ => False) (·.Summarizes t (seen t.ops.toList.zipIdx.length))
      (t.census : Outcome ε Census) := by
    refine Outcome.meets_foldlM (P := fun k (c : Census) => c.Summarizes t (seen k))
      (Census.summarizes_nil t) fun k hk c hc => ?_
    have hid : k < t.size := hlength ▸ hk
    obtain ⟨active, hactive⟩ := ht.active_getElem? hid
    obtain ⟨ps, hps⟩ := ht.params_getElem? hid
    obtain ⟨constant, hconstant⟩ := ht.constant_getElem? hid
    have hop : t.ops[k]? = some t.ops[k] := Array.getElem?_eq_getElem hid
    have hentry : t.ops.toList.zipIdx[k] = (t.ops[k], k) := by
      rw [List.getElem_zipIdx, Nat.zero_add]
      rfl
    rw [hentry]
    cases active with
    | false =>
      have hnext : seen (k + 1) = seen k := by simp [hseen, List.range_succ, hactive]
      simp only [count, Outcome.fetch_eq_ok.2 hactive, Outcome.ok_bind, hnext]
      exact meets_ok hc
    | true =>
      have hnext : seen (k + 1) = seen k ++ [k] := by simp [hseen, List.range_succ, hactive]
      obtain ⟨c', hrun, hc'⟩ := hc.enter (ε := ε) hop hactive hps hconstant
      rw [hrun, hnext]
      exact meets_ok hc'
  exact (hlength ▸ hrun).exists_ok

end NodeTable

end FeatureGraph
