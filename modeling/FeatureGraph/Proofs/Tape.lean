import FeatureGraph.Proofs.Order
import FeatureGraph.Graph.Tape

/-!
# The tape of a sound table

`NodeTable.straightTape` is the tape that a sound table compiles to if it compiles at
all: the active nodes in the order of their numbers, each with the slots of its
parents.

* `slotOf?_straightTape` says which slot a node has.
* `compile_eq_ok_iff` says when the table compiles: it has to be `Closed`.
* `SameShape.compile` says what the tape depends on.
-/

namespace FeatureGraph.NodeTable

variable {α : Type} {t u : NodeTable α}

/-- The active nodes in the order of their numbers. -/
def activeIds (t : NodeTable α) : List NodeId :=
  (List.range t.size).filter fun id => (t.active[id]?).getD false

/-- The tape of the active nodes in the order of their numbers. -/
def straightTape (t : NodeTable α) : Tape where
  steps := t.activeIds.map fun id => ⟨id, (t.parentList id).map t.activeIds.idxOf⟩
  layout := slotLayout t.size t.activeIds

theorem mem_activeIds (ht : t.Sound) {id : NodeId} :
    id ∈ t.activeIds ↔ (t.active[id]?).getD false = true := by
  have hlt : (t.active[id]?).getD false = true → id < t.size := by
    intro hid
    by_contra hge
    rw [Array.getElem?_eq_none (by rw [ht.active]; exact Nat.le_of_not_lt hge)] at hid
    exact absurd hid (by simp)
  simp only [activeIds, List.mem_filter, List.mem_range]
  exact ⟨fun h => h.2, fun h => ⟨hlt h, h⟩⟩

theorem lt_size_of_mem_activeIds {id : NodeId} (hid : id ∈ t.activeIds) : id < t.size := by
  simp only [activeIds, List.mem_filter, List.mem_range] at hid
  exact hid.1

theorem sortedLT_activeIds (t : NodeTable α) : t.activeIds.Pairwise (· < ·) :=
  List.pairwise_lt_range.filter _

theorem nodup_activeIds (t : NodeTable α) : t.activeIds.Nodup :=
  List.nodup_range.filter _

/-- A parent has a smaller slot than its child. -/
theorem idxOf_lt_idxOf {p id : NodeId} (hp : p ∈ t.activeIds) (hid : id ∈ t.activeIds)
    (hlt : p < id) : t.activeIds.idxOf p < t.activeIds.idxOf id := by
  by_contra hge
  have hpi := List.idxOf_lt_length_iff.2 hp
  have hidi := List.idxOf_lt_length_iff.2 hid
  have hle : t.activeIds[t.activeIds.idxOf id] ≤ t.activeIds[t.activeIds.idxOf p] := by
    rcases Nat.lt_or_eq_of_le (Nat.le_of_not_lt hge) with h | h
    · exact Nat.le_of_lt (List.pairwise_iff_getElem.1 t.sortedLT_activeIds _ _ hidi hpi h)
    · simp only [h]
      exact Nat.le_refl _
  rw [List.getElem_idxOf hpi, List.getElem_idxOf hidi] at hle
  exact absurd hlt (Nat.not_lt.2 hle)

/-! ## The layout -/

/-- Entering the slots of a list of nodes, from a given slot on. -/
theorem getElem?_foldl_layout {order : List NodeId} (hnodup : order.Nodup) (id : NodeId) :
    ∀ (start : Nat) (layout : Array (Option Nat)),
      ((order.zipIdx start).foldl (fun layout (p : NodeId × Nat) =>
          layout.setIfInBounds p.1 (some p.2)) layout)[id]? =
        if id ∈ order then layout[id]?.map fun _ => some (start + order.idxOf id)
        else layout[id]? := by
  induction order with
  | nil => simp
  | cons head order ih =>
    intro start layout
    obtain ⟨hhead, hnodup⟩ := List.nodup_cons.1 hnodup
    rw [List.zipIdx_cons, List.foldl_cons, ih hnodup]
    by_cases hid : id = head
    · subst hid
      simp only [hhead, if_false, List.mem_cons_self, if_true, List.idxOf_cons_self,
        Array.getElem?_setIfInBounds_self, Nat.add_zero]
      split
      · rename_i h
        rw [Array.getElem?_eq_getElem h]
        rfl
      · rename_i h
        rw [Array.getElem?_eq_none (by omega)]
        rfl
    · have hidx : (head :: order).idxOf id = order.idxOf id + 1 :=
        List.idxOf_cons_ne order (Ne.symm hid)
      have hget : (layout.setIfInBounds head (some start))[id]? = layout[id]? :=
        Array.getElem?_setIfInBounds_ne (Ne.symm hid)
      simp only [List.mem_cons, hid, false_or, hget, hidx]
      split
      · congr 1
        funext _
        congr 1
        omega
      · rfl

theorem getElem?_slotLayout {order : List NodeId} (hnodup : order.Nodup) (n : Nat)
    (id : NodeId) : (slotLayout n order)[id]? =
      if id < n then some (if id ∈ order then some (order.idxOf id) else none) else none := by
  have h := getElem?_foldl_layout hnodup id 0 (Array.replicate n none)
  simp only [slotLayout, Array.getElem?_replicate, Nat.zero_add] at h ⊢
  rw [h]
  by_cases hid : id < n <;> by_cases hmem : id ∈ order <;> simp [hid, hmem]

/-- The slot of a listed node is its place in the list; the others have none. -/
theorem slotOf?_slotLayout {order : List NodeId} (hnodup : order.Nodup) {n : Nat}
    (hinside : ∀ id ∈ order, id < n) (steps : List Instruction) (id : NodeId) :
    (⟨steps, slotLayout n order⟩ : Tape).slotOf? id =
      if id ∈ order then some (order.idxOf id) else none := by
  rw [Tape.slotOf?, getElem?_slotLayout hnodup]
  by_cases hid : id ∈ order
  · simp [hid, hinside id hid]
  · by_cases hlt : id < n <;> simp [hid, hlt]

/-- The slot of an active node is its place among the active nodes; the others have
none. -/
theorem slotOf?_straightTape (t : NodeTable α) (id : NodeId) :
    t.straightTape.slotOf? id =
      if id ∈ t.activeIds then some (t.activeIds.idxOf id) else none :=
  slotOf?_slotLayout t.nodup_activeIds (fun _ => lt_size_of_mem_activeIds) _ id

@[simp] theorem order_straightTape (t : NodeTable α) : t.straightTape.order = t.activeIds := by
  simp [Tape.order, straightTape, Function.comp_def]

@[simp] theorem size_straightTape (t : NodeTable α) :
    t.straightTape.size = t.activeIds.length := by
  simp [Tape.size, straightTape]

/-! ## Compiling -/

theorem activeOrder_eq (ht : t.Sound) : t.activeOrder = .ok t.activeIds := by
  rw [activeOrder, sort_eq ht, Outcome.mapFailure_ok, Outcome.ok_bind]
  refine Outcome.filterM_ok fun id hid => ?_
  obtain ⟨b, hb⟩ := ht.active_getElem? (List.mem_range.1 hid)
  rw [Outcome.fetch_eq_ok, hb]
  rfl

/-- A parent has a slot exactly if it is active. -/
theorem parentSlot_eq_ok_iff (ht : t.Sound) {id p : NodeId} (hp : p < t.size) {slot : Nat} :
    t.parentSlot (slotLayout t.size t.activeIds) id p = .ok slot ↔
      p ∈ t.activeIds ∧ slot = t.activeIds.idxOf p := by
  rw [parentSlot, getElem?_slotLayout t.nodup_activeIds, if_pos hp]
  by_cases hmem : p ∈ t.activeIds
  · simp [hmem, eq_comm]
  · obtain ⟨label, hlabel⟩ := ht.labels_getElem? hp
    simp only [hmem, if_false, false_and, iff_false]
    cases hid : (Outcome.fetch t.labels id : Outcome GraphError String) with
    | error fault => simp
    | ok name => simp [Outcome.fetch, Outcome.ofOption, hlabel, Outcome.fail]

/-- The instruction of a node can be made exactly if its parents are active. -/
theorem instruction_eq_ok_iff (ht : t.Sound) {id : NodeId} (hid : id < t.size)
    {step : Instruction} :
    t.instruction (slotLayout t.size t.activeIds) id = .ok step ↔
      (∀ p ∈ t.parentList id, p ∈ t.activeIds) ∧
        step = ⟨id, (t.parentList id).map t.activeIds.idxOf⟩ := by
  have hslot : ∀ p ∈ t.parentList id, ∀ slot,
      t.parentSlot (slotLayout t.size t.activeIds) id p = .ok slot ↔
        p ∈ t.activeIds ∧ slot = t.activeIds.idxOf p :=
    fun p hp slot => parentSlot_eq_ok_iff ht (ht.parent_lt_size hp)
  rw [instruction, ht.parents_eq hid, Outcome.ok_bind, Outcome.bind_eq_ok]
  constructor
  · rintro ⟨slots, hslots, hstep⟩
    have hactive : ∀ p ∈ t.parentList id, p ∈ t.activeIds := by
      intro p hp
      obtain ⟨i, hi, rfl⟩ := List.getElem_of_mem hp
      have hall := List.forall₂_iff_get.1 (Outcome.mapM_eq_ok.1 hslots)
      exact ((hslot _ hp _).1 (hall.2 i hi (hall.1 ▸ hi))).1
    have hmap : slots = (t.parentList id).map t.activeIds.idxOf :=
      Outcome.eq_map_of_mapM_eq_ok hslots fun p hp slot h => ((hslot p hp slot).1 h).2
    rw [Outcome.pure_eq_ok, Except.ok.injEq] at hstep
    exact ⟨hactive, by rw [← hstep, hmap]⟩
  · rintro ⟨hactive, rfl⟩
    exact ⟨_, Outcome.mapM_ok fun p hp => (hslot p hp _).2 ⟨hactive p hp, rfl⟩, rfl⟩

/-- No active node reads from an inactive one. -/
def Closed (t : NodeTable α) : Prop :=
  ∀ id ∈ t.activeIds, ∀ p ∈ t.parentList id, p ∈ t.activeIds

/-- A new node is active. -/
theorem activeIds_addNode [Arith α] (ht : t.Sound) (op : Primitive) (ps : List NodeId)
    (name : String) : (t.addNode op ps name).2.activeIds = t.activeIds ++ [t.size] := by
  have hactive := ht.active
  have hold : (List.range t.size).filter (fun id => ((t.active.push true)[id]?).getD false) =
      t.activeIds := by
    refine List.filter_congr fun id hid => ?_
    have hne : id ≠ t.active.size := by
      have hlt := List.mem_range.1 hid
      omega
    rw [Array.getElem?_push, if_neg hne]
  have hnew : ((t.active.push true)[t.size]?).getD false = true := by simp [← hactive]
  rw [activeIds, size_addNode, List.range_succ, List.filter_append]
  change (List.range t.size).filter (fun id => ((t.active.push true)[id]?).getD false) ++
    [t.size].filter (fun id => ((t.active.push true)[id]?).getD false) = _
  rw [hold, List.filter_cons, if_pos hnew, List.filter_nil]

/-- A new node over active nodes keeps a table closed. -/
theorem Closed.addNode [Arith α] (hclosed : t.Closed) (ht : t.Sound) (op : Primitive)
    {ps : List NodeId} (name : String) (hps : ∀ p ∈ ps, p ∈ t.activeIds) :
    (t.addNode op ps name).2.Closed := by
  intro id hid p hp
  rw [activeIds_addNode ht] at hid ⊢
  rw [ht.parentList_addNode] at hp
  apply List.mem_append_left
  rcases List.mem_append.1 hid with hid | hid
  · have hlt := lt_size_of_mem_activeIds hid
    rw [if_neg (Nat.ne_of_lt hlt)] at hp
    exact hclosed id hid p hp
  · rw [if_pos (List.mem_singleton.1 hid)] at hp
    exact hps p hp

/-- The parents of an active node have smaller slots. -/
theorem Closed.idxOf_lt (hclosed : t.Closed) (ht : t.Sound) {k : Nat}
    (hk : k < t.activeIds.length) {p : NodeId} (hp : p ∈ t.parentList t.activeIds[k]) :
    t.activeIds.idxOf p < k := by
  have hmem : t.activeIds[k] ∈ t.activeIds := List.getElem_mem hk
  have hidx := idxOf_lt_idxOf (hclosed _ hmem p hp) hmem (ht.earlier _ p hp)
  rwa [t.nodup_activeIds.idxOf_getElem k hk] at hidx

/-- A sound table compiles exactly if it is closed, and then to its straight tape. -/
theorem compile_eq_ok_iff (ht : t.Sound) {tape : Tape} :
    t.compile = .ok tape ↔ t.Closed ∧ tape = t.straightTape := by
  have hstep : ∀ id ∈ t.activeIds, ∀ step,
      t.instruction (slotLayout t.size t.activeIds) id = .ok step ↔
        (∀ p ∈ t.parentList id, p ∈ t.activeIds) ∧
          step = ⟨id, (t.parentList id).map t.activeIds.idxOf⟩ :=
    fun id hid step => instruction_eq_ok_iff ht (lt_size_of_mem_activeIds hid)
  rw [compile, activeOrder_eq ht, Outcome.ok_bind]
  simp only [Outcome.bind_eq_ok, Outcome.pure_eq_ok, Except.ok.injEq]
  constructor
  · rintro ⟨steps, hsteps, htape⟩
    refine ⟨fun id hid => ?_, ?_⟩
    · obtain ⟨i, hi, rfl⟩ := List.getElem_of_mem hid
      have hall := List.forall₂_iff_get.1 (Outcome.mapM_eq_ok.1 hsteps)
      exact ((hstep _ hid _).1 (hall.2 i hi (hall.1 ▸ hi))).1
    · rw [← htape, straightTape, Tape.mk.injEq]
      exact ⟨Outcome.eq_map_of_mapM_eq_ok hsteps fun id hid step h =>
        ((hstep id hid step).1 h).2, rfl⟩
  · rintro ⟨hclosed, rfl⟩
    exact ⟨_, Outcome.mapM_ok fun id hid => (hstep id hid _).2 ⟨hclosed id hid, rfl⟩, rfl⟩

/-! ## What a tape depends on -/

/-- Two tables with the same topology: numbers, parents, names and activation. -/
structure SameShape (t u : NodeTable α) : Prop where
  size : u.size = t.size
  labels : u.labels = t.labels
  parentIds : u.parentIds = t.parentIds
  parentSpans : u.parentSpans = t.parentSpans
  active : u.active = t.active

theorem SameShape.parents {ε : Type} (h : SameShape t u) (id : NodeId) :
    (u.parents id : Outcome ε (List NodeId)) = t.parents id := by
  rw [NodeTable.parents, NodeTable.parents, h.parentIds, h.parentSpans]

theorem SameShape.visit (h : SameShape t u) (depth : Nat) : u.visit depth = t.visit depth := by
  induction depth with
  | zero => rfl
  | succ depth ih =>
    funext id v
    rw [NodeTable.visit, NodeTable.visit, h.parents, ih]

/-- The order of the nodes depends on the topology only. -/
theorem SameShape.sort (h : SameShape t u) : u.sort = t.sort := by
  rw [NodeTable.sort, NodeTable.sort, h.size, h.visit]

/-- The tape depends on the topology and the activation only. -/
theorem SameShape.compile (h : SameShape t u) : u.compile = t.compile := by
  have horder : u.activeOrder = t.activeOrder := by
    rw [activeOrder, activeOrder, h.sort, h.active]
  have hinstruction : u.instruction = t.instruction := by
    funext layout id
    have hslot : u.parentSlot = t.parentSlot := by
      funext layout id parent
      rw [parentSlot, parentSlot, h.labels]
    rw [instruction, instruction, h.parents, hslot]
  rw [NodeTable.compile, NodeTable.compile, horder, hinstruction, h.size]

end FeatureGraph.NodeTable
