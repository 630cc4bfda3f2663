import FeatureGraph.Proofs.Sorting
import FeatureGraph.Proofs.Tape

/-!
# When a table compiles, and to what

A table compiles exactly if no node depends on itself and every parent of an active node is active.
The tape lists the active nodes, and each of its unchecked accesses finds what it looks for: the
layout is the inverse of the order, and the slots that a step reads stand in a stretch of their own,
hold the parents of its node and come before its own slot.

* `Filled` is all that compiling needs of a table, and `Obstacle` is what may be in its way.
* `Tape.Schedules` is what the steps compute, and `meets_compile` puts the tape together from the
  order of the sort.
* `Tape.Tiles` says that spans follow each other without a gap.  `Tape.tiles_sourceSpans` and
  `Tape.sourcesOf_eq` are about any tape.
* `Tape.WellFormed` is what a tape has to be over a table, and `Tape.Schedules.wellFormed` takes it
  from what the steps compute.
* `Filled.exists_compile_iff` says when a table compiles.
-/

namespace FeatureGraph

variable {ε α : Type}

open Outcome (Meets meets_ok meets_error meets_fetch meets_mapM)

namespace NodeTable

variable {t : NodeTable α}

/-! ## Steps -/

/-- All that compiling needs of a table: it is linked, and the columns of names and flags reach over
all nodes.  The primitives need not fit their parents. -/
structure Filled (t : NodeTable α) : Prop extends t.Linked where
  labels : t.size ≤ t.labels.size
  active : t.size ≤ t.active.size

theorem WellFormed.filled (ht : t.WellFormed) : t.Filled where
  toLinked := ht.linked
  labels := ht.labels.ge
  active := ht.active.ge

theorem mem_activeIds_iff {id : NodeId} :
    id ∈ t.activeIds ↔ id < t.size ∧ (t.active[id]?).getD false = true := by
  rw [activeIds, List.mem_filter, List.mem_range]

/-- What may keep a table from being compiled: a cycle, an active node with an inactive parent, or
that the table is not filled. -/
def Obstacle (t : NodeTable α) : Fault GraphError → Prop
  | .failure reason =>
      (∃ c : Cycle, t.OnCycle c.node ∧ reason = .cycle c.message) ∨
      ∃ id ∈ t.activeIds, ∃ p ∈ t.parentList id, p ∉ t.activeIds ∧
        ∃ child parent, t.labels[id]? = some child ∧ t.labels[p]? = some parent ∧
          reason = .inactiveParent child parent
  | .outOfRange => ¬t.Filled

/-- The nodes of a tape: the active ones, each once and after its parents. -/
structure Ordered (t : NodeTable α) (order : List NodeId) : Prop extends t.Arranged order where
  active : ∀ id, id ∈ order ↔ id ∈ t.activeIds

theorem meets_activeOrder (t : NodeTable α) : Meets t.Obstacle t.Ordered t.activeOrder := by
  have hsort : Meets t.Obstacle (fun order => t.Arranged order ∧ ∀ id < t.size, id ∈ order)
      (Outcome.mapFailure (fun c : Cycle => GraphError.cycle c.message) t.sort) :=
    t.meets_sort.mapFailure (fun c hc => .inl ⟨c, hc, rfl⟩) fun hill ht => hill ht.toLinked
  refine hsort.bind ?_
  rintro sorted ⟨harranged, hall⟩
  have htest : ∀ id ∈ sorted, Meets t.Obstacle (· = (t.active[id]?).getD false)
      (Outcome.fetch t.active id : Outcome GraphError Bool) := by
    intro id hid
    have hfetch : Meets t.Obstacle (fun b => t.active[id]? = some b)
        (Outcome.fetch t.active id : Outcome GraphError Bool) := by
      refine meets_fetch fun hout ht => absurd (harranged.inside id hid) ?_
      exact Nat.not_lt.2 (ht.active.trans hout)
    refine hfetch.mono fun b _ hb => ?_
    rw [hb]
    rfl
  refine (Outcome.meets_filterM htest).mono ?_
  rintro _ _ rfl
  refine ⟨harranged.sublist List.filter_sublist, fun id => ?_⟩
  rw [List.mem_filter, mem_activeIds_iff]
  exact and_congr_left fun _ => ⟨harranged.inside id, hall id⟩

section Compile

variable {order : List NodeId} {id : NodeId}

/-- A parent has its place in the order as its slot, or it has none and is refused by name. -/
theorem meets_parentSlot (horder : t.Ordered order) (hid : id ∈ order) {p : NodeId}
    (hp : p ∈ t.parentList id) :
    Meets t.Obstacle (fun slot => p ∈ order ∧ slot = order.idxOf p)
      (t.parentSlot (slotLayout t.size order) id p) := by
  rw [parentSlot, getElem?_slotLayout horder.nodup]
  by_cases hsize : p < t.size
  · by_cases hmem : p ∈ order
    · rw [if_pos hsize, if_pos hmem]
      exact meets_ok ⟨hmem, rfl⟩
    · rw [if_pos hsize, if_neg hmem]
      have hlabel : ∀ q < t.size, Meets t.Obstacle (fun label => t.labels[q]? = some label)
          (Outcome.fetch t.labels q : Outcome GraphError String) :=
        fun q hq => meets_fetch fun hout ht => absurd hq (Nat.not_lt.2 (ht.labels.trans hout))
      refine (hlabel id (horder.inside id hid)).bind fun child hchild => ?_
      refine (hlabel p hsize).bind fun parent hparent => meets_error (.inr ?_)
      exact ⟨id, (horder.active id).1 hid, p, hp, mt (horder.active p).2 hmem,
        child, parent, hchild, hparent, rfl⟩
  · rw [if_neg hsize]
    exact meets_error fun ht => absurd (ht.known id (horder.inside id hid) p hp) hsize

/-- A step computes its node from the slots of the node's parents, in their order. -/
structure Computes (t : NodeTable α) (order : List NodeId) (id : NodeId) (step : Instruction) :
    Prop where
  node : step.node = id
  sources : List.Forall₂ (fun p slot => p ∈ order ∧ slot = order.idxOf p) (t.parentList id)
    step.sources

theorem meets_instruction (horder : t.Ordered order) (hid : id ∈ order) :
    Meets t.Obstacle (t.Computes order id) (t.instruction (slotLayout t.size order) id) := by
  refine (meets_parents (fun _ => horder.inside id hid) fun hill ht => hill ht.toLinked).bind ?_
  rintro _ rfl
  refine (meets_mapM fun p hp => meets_parentSlot horder hid hp).bind fun sources hsources => ?_
  exact meets_ok ⟨rfl, hsources⟩

/-- The slots that a step reads come before its own. -/
theorem Computes.lt (horder : t.Arranged order) {i : Nat} (hi : i < order.length)
    {step : Instruction} (h : t.Computes order order[i] step) {s : Nat} (hs : s ∈ step.sources) :
    s < i := by
  obtain ⟨k, hk, rfl⟩ := List.getElem_of_mem hs
  obtain ⟨hlength, hall⟩ := List.forall₂_iff_get.1 h.sources
  obtain ⟨hmem, hslot⟩ := hall k (hlength ▸ hk) hk
  have hlt := horder.idxOf_lt hi (List.get_mem _ ⟨k, hlength ▸ hk⟩) hmem
  rwa [← hslot] at hlt

end Compile

end NodeTable

open NodeTable (slotLayout)

/-- What a table compiles to: a step for each active node, the nodes arranged, and a layout with the
place of each node. -/
structure Tape.Schedules (p : Tape) (t : NodeTable α) : Prop where
  ordered : t.Ordered p.order
  computes : List.Forall₂ (t.Computes p.order) p.order p.steps
  layout : p.layout = slotLayout t.size p.order

namespace Tape.Schedules

variable {t : NodeTable α} {p : Tape} (h : p.Schedules t)

include h

theorem slotOf?_eq (id : NodeId) :
    p.slotOf? id = if id ∈ p.order then some (p.order.idxOf id) else none := by
  have hslot := NodeTable.slotOf?_slotLayout h.ordered.nodup h.ordered.inside p.steps id
  rwa [← h.layout] at hslot

/-- Exactly the active nodes have a slot. -/
theorem exists_slot_iff (id : NodeId) : (∃ slot, p.slotOf? id = some slot) ↔ id ∈ t.activeIds := by
  rw [← h.ordered.active, h.slotOf?_eq]
  by_cases hid : id ∈ p.order <;> simp [hid]

/-- A step computes the node at its place. -/
theorem computes_getElem {i : Nat} (hi : i < p.steps.length) :
    ∃ hi' : i < p.order.length, t.Computes p.order p.order[i] p.steps[i] := by
  obtain ⟨hlength, hall⟩ := List.forall₂_iff_get.1 h.computes
  exact ⟨hlength ▸ hi, hall i (hlength ▸ hi) hi⟩

end Tape.Schedules

namespace NodeTable

variable {t : NodeTable α}

/-- A table compiles to a tape of its active nodes, unless there is an obstacle. -/
theorem meets_compile (t : NodeTable α) : Meets t.Obstacle (·.Schedules t) t.compile := by
  refine t.meets_activeOrder.bind fun order horder => ?_
  refine (meets_mapM fun id hid => meets_instruction horder hid).bind fun steps hsteps => ?_
  have hnodes : (⟨steps, slotLayout t.size order⟩ : Tape).order = order := by
    refine (List.ext_get_iff.2 ⟨?_, fun i hi hi' => ?_⟩)
    · rw [Tape.order, List.length_map, hsteps.length_eq]
    · have hstep := (List.forall₂_iff_get.1 hsteps).2 i hi' (hsteps.length_eq ▸ hi')
      simpa [Tape.order] using hstep.node
  refine meets_ok ⟨?_, ?_, ?_⟩ <;> rw [hnodes]
  · exact horder
  · exact hsteps

end NodeTable

namespace Tape

/-! ## The stretches of the steps -/

/-- Spans that follow each other without a gap, from one place to another one. -/
def Tiles : Nat → List Span → Nat → Prop
  | start, [], stop => start = stop
  | start, span :: rest, stop => span.start = start ∧ Tiles (start + span.count) rest stop

theorem tiles_spansFrom (start : Nat) (steps : List Instruction) :
    Tiles start (sourceSpans.spansFrom start steps)
      (start + (steps.flatMap (·.sources)).length) := by
  induction steps generalizing start with
  | nil => rfl
  | cons step steps ih =>
    refine ⟨rfl, ?_⟩
    rw [List.flatMap_cons, List.length_append, ← Nat.add_assoc]
    exact ih (start + step.sources.length)

/-- The stretches of the steps fill the list of all slots that are read. -/
theorem tiles_sourceSpans (p : Tape) : Tiles 0 p.sourceSpans p.sourceList.length := by
  have htiles := tiles_spansFrom 0 p.steps
  rwa [Nat.zero_add] at htiles

theorem getElem?_spansFrom (start : Nat) (steps : List Instruction) (i : Nat) :
    (sourceSpans.spansFrom start steps)[i]? = steps[i]?.map fun step =>
      ⟨start + ((steps.take i).flatMap (·.sources)).length, step.sources.length⟩ := by
  induction steps generalizing start i with
  | nil => rfl
  | cons step steps ih =>
    cases i with
    | zero => rfl
    | succ i =>
      rw [sourceSpans.spansFrom, List.getElem?_cons_succ, ih, List.getElem?_cons_succ,
        List.take_succ_cons, List.flatMap_cons, List.length_append, Nat.add_assoc]

@[simp] theorem length_spansFrom (start : Nat) (steps : List Instruction) :
    (sourceSpans.spansFrom start steps).length = steps.length := by
  induction steps generalizing start with
  | nil => rfl
  | cons step steps ih => rw [sourceSpans.spansFrom, List.length_cons, ih, List.length_cons]

/-- The stretch of a step holds the slots that the step reads. -/
theorem sourcesOf_eq {p : Tape} {i : Nat} (hi : i < p.steps.length) :
    (p.sourcesOf i : Outcome ε (List Nat)) = .ok p.steps[i].sources := by
  have hspan : (Outcome.fetchList p.sourceSpans i : Outcome ε Span) =
      .ok ⟨((p.steps.take i).flatMap (·.sources)).length, p.steps[i].sources.length⟩ := by
    rw [Outcome.fetchList_eq_ok, sourceSpans, getElem?_spansFrom, List.getElem?_eq_getElem hi,
      Option.map_some, Nat.zero_add]
  have hlist : p.sourceList = (p.steps.take i).flatMap (·.sources) ++
      (p.steps[i].sources ++ (p.steps.drop (i + 1)).flatMap (·.sources)) := by
    rw [sourceList, ← List.flatMap_cons, ← List.drop_eq_getElem_cons hi, ← List.flatMap_append,
      List.take_append_drop]
  rw [sourcesOf, hspan, Outcome.ok_bind, hlist, List.drop_left, List.take_left]
  exact if_pos (by simp only [List.length_append]; omega)

/-! ## Tapes that can be run without checks -/

/-- What a tape has to be over a table: it lists the active nodes once, its layout is the inverse of
that list, and the stretch of each step holds the slots of the node's parents. -/
structure WellFormed (p : Tape) (t : NodeTable α) : Prop where
  nodup : p.order.Nodup
  active : ∀ id, id ∈ p.order ↔ id < t.size ∧ t.active[id]? = some true
  slot : ∀ i (hi : i < p.order.length), p.slotOf? p.order[i] = some i
  noSlot : ∀ id ∉ p.order, p.slotOf? id = none
  sources : ∀ i (hi : i < p.order.length), ∃ slots : List Nat,
    (p.sourcesOf i : Outcome GraphError (List Nat)) = .ok slots ∧
      slots.map some = (t.parentList p.order[i]).map p.slotOf? ∧ ∀ s ∈ slots, s < i
  spans : p.sourceSpans.length = p.order.length
  tiles : Tiles 0 p.sourceSpans p.sourceList.length

/-- The slots that a step reads are those of its node's parents. -/
theorem Schedules.map_sources {p : Tape} {t : NodeTable α} (h : p.Schedules t) {id : NodeId}
    {step : Instruction} (hstep : t.Computes p.order id step) :
    step.sources.map some = (t.parentList id).map p.slotOf? := by
  symm
  rw [← List.forall₂_eq_eq_eq, List.forall₂_map_left_iff, List.forall₂_map_right_iff]
  refine hstep.sources.imp ?_
  rintro parent slot ⟨hmem, rfl⟩
  rw [h.slotOf?_eq, if_pos hmem]

theorem Schedules.wellFormed {p : Tape} {t : NodeTable α} (h : p.Schedules t) :
    p.WellFormed t where
  nodup := h.ordered.nodup
  active id := by
    rw [h.ordered.active, NodeTable.mem_activeIds_iff]
    refine and_congr_right fun _ => ?_
    cases t.active[id]? <;> simp
  slot i hi := by
    rw [h.slotOf?_eq, if_pos (List.getElem_mem hi), h.ordered.nodup.idxOf_getElem]
  noSlot id hid := by rw [h.slotOf?_eq, if_neg hid]
  sources i hi := by
    have hi' : i < p.steps.length := by rwa [order, List.length_map] at hi
    obtain ⟨_, hcomputes⟩ := h.computes_getElem hi'
    refine ⟨_, sourcesOf_eq hi', h.map_sources hcomputes, fun s hs => ?_⟩
    exact hcomputes.lt h.ordered.toArranged hi hs
  spans := by rw [sourceSpans, length_spansFrom, order, List.length_map]
  tiles := p.tiles_sourceSpans

/-- A table that has been compiled is closed: each parent of an active node has a slot. -/
theorem Schedules.closed {p : Tape} {t : NodeTable α} (h : p.Schedules t) : t.Closed := by
  intro id hid parent hparent
  obtain ⟨i, hi, rfl⟩ := List.getElem_of_mem ((h.ordered.active id).2 hid)
  have hi' : i < p.steps.length := by rwa [order, List.length_map] at hi
  obtain ⟨_, hcomputes⟩ := h.computes_getElem hi'
  obtain ⟨hlength, hall⟩ := List.forall₂_iff_get.1 hcomputes.sources
  obtain ⟨k, hk, rfl⟩ := List.getElem_of_mem hparent
  exact (h.ordered.active _).1 (hall k hk (hlength ▸ hk)).1

end Tape

namespace NodeTable

variable {t : NodeTable α}

/-- There is nothing in the way of a filled table that has no cycle and is closed. -/
theorem Filled.not_obstacle (ht : t.Filled) (hacyclic : t.Acyclic) (hclosed : t.Closed)
    (fault : Fault GraphError) : ¬t.Obstacle fault := by
  cases fault with
  | outOfRange => exact fun hill => hill ht
  | failure reason =>
    rintro (⟨c, hcycle, _⟩ | ⟨id, hid, p, hp, hinactive, _⟩)
    · exact hacyclic c.node hcycle
    · exact hinactive (hclosed id hid p hp)

theorem Filled.exists_compile_iff (ht : t.Filled) :
    (∃ p, t.compile = .ok p) ↔ t.Acyclic ∧ t.Closed := by
  constructor
  · rintro ⟨p, hcompile⟩
    obtain ⟨order, horder, -⟩ := Outcome.bind_eq_ok.1 hcompile
    obtain ⟨sorted, hsorted, -⟩ := Outcome.bind_eq_ok.1 horder
    exact ⟨ht.exists_sort_iff.1 ⟨sorted, Outcome.mapFailure_eq_ok.1 hsorted⟩,
      (t.meets_compile.ok p hcompile).closed⟩
  · rintro ⟨hacyclic, hclosed⟩
    obtain ⟨p, hcompile, _⟩ :=
      (t.meets_compile.fault (ht.not_obstacle hacyclic hclosed)).exists_ok
    exact ⟨p, hcompile⟩

/-- A filled table compiles exactly if no node depends on itself and every parent of an active node
is active.  The tape is then well-formed over the table; otherwise what is in the way is named. -/
theorem Filled.compiles_iff (ht : t.Filled) :
    ((∃ p, t.compile = .ok p) ↔ t.Acyclic ∧ t.Closed) ∧
    (∀ p, t.compile = .ok p → p.WellFormed t) ∧
    ∀ fault, t.compile = .error fault → ∃ reason, fault = .failure reason ∧ t.Obstacle fault := by
  refine ⟨ht.exists_compile_iff, fun p hcompile => (t.meets_compile.ok p hcompile).wellFormed, ?_⟩
  intro fault hfault
  have hobstacle := t.meets_compile.error fault hfault
  cases fault with
  | failure reason => exact ⟨reason, rfl, hobstacle⟩
  | outOfRange => exact absurd ht hobstacle

/-- A node that reads twice from one that is added after it, and a node between them. -/
def detourNodes : List Request :=
  [⟨.linear, [2, 2], "sum"⟩, ⟨.input 0, [], "unused"⟩, ⟨.input 1, [], "x"⟩]

/-- Their table, with the node between them inactive. -/
def detour : NodeTable Float := { ofNodes detourNodes with active := #[true, false, true] }

theorem filled_detour : detour.Filled := by
  have hlinked : (ofNodes detourNodes : NodeTable Float).Linked :=
    linked_ofNodes_iff.2 (by decide)
  exact ⟨⟨hlinked.spans, hlinked.known⟩, by decide, by decide⟩

theorem compiles_detour : (detour.Acyclic ∧ detour.Closed) ∧
    ∃ p, detour.compile = .ok p ∧ p.order = [2, 0] ∧ p.sourceList = [0, 0] ∧
      p.WellFormed detour := by
  have hcompile : detour.compile =
      .ok ⟨[⟨2, []⟩, ⟨0, [0, 0]⟩], #[some 1, none, some 0]⟩ := rfl
  obtain ⟨hiff, hwellFormed, -⟩ := filled_detour.compiles_iff
  exact ⟨hiff.1 ⟨_, hcompile⟩, _, hcompile, rfl, rfl, hwellFormed _ hcompile⟩

end NodeTable

end FeatureGraph
