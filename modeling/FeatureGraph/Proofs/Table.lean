import FeatureGraph.Proofs.Outcome
import FeatureGraph.Graph.NodeTable

/-!
# Well-formed and sound tables

`NodeTable.WellFormed` says that the columns of a table fit together: they have one length, the
spans stand inside of the list of parents, every parent is there, and the numbers of parents and
parameters fit the primitive.  In a `Sound` table every parent is also smaller than its child.
That is what adding and changing nodes keeps.

* `addNode` and the `with…` lemmas are the steps, once for well-formed and once for sound tables.
* `NodeTable.parentList` reads the parents of a node without a failure; `Linked.parents_eq` says
  that a table whose parents are in their places never fails to.
* `NodeTable.Agree` is the frame: two tables that agree below a number compute the
  same for the nodes below it.
-/

namespace FeatureGraph

/-- A new node has as many parameters as its primitive asks for. -/
@[simp] theorem Primitive.length_defaultParams {α : Type} [Arith α] (op : Primitive) (n : Nat) :
    (op.defaultParams n : List α).length = op.paramCount n := by
  cases op <;> simp [defaultParams, paramCount]

namespace NodeTable

variable {ε α : Type}

/-- The parents that a span names. -/
def stretch (t : NodeTable α) (span : Span) : List NodeId :=
  (t.parentIds.toList.drop span.start).take span.count

/-- The parents of a node; none for an unknown node. -/
def parentList (t : NodeTable α) (id : NodeId) : List NodeId :=
  ((t.parentSpans[id]?).map t.stretch).getD []

/-- Parents that have been read are those of the node. -/
theorem parentList_of_parents_eq_ok {t : NodeTable α} {id : NodeId} {ps : List NodeId}
    (h : (t.parents id : Outcome ε (List NodeId)) = .ok ps) : t.parentList id = ps := by
  obtain ⟨span, hspan, h⟩ := Outcome.bind_eq_ok.1 h
  rw [Outcome.fetch_eq_ok] at hspan
  split at h
  · rw [Outcome.pure_eq_ok, Outcome.ok_eq_iff] at h
    simp [parentList, stretch, hspan, h]
  · cases h

@[simp] theorem size_addNode [Arith α] (t : NodeTable α) (op : Primitive) (ps : List NodeId)
    (name : String) : (t.addNode op ps name).2.size = t.size + 1 := by
  simp [NodeTable.addNode, size]

/-- The parents of every node can be looked up, and they are nodes of the table.  They may come in
any order, before or after the node, and nothing is asked of the other columns. -/
structure Linked (t : NodeTable α) : Prop where
  spans : ∀ id < t.size, ∃ span, t.parentSpans[id]? = some span ∧
    span.start + span.count ≤ t.parentIds.size
  known : ∀ id < t.size, ∀ p ∈ t.parentList id, p < t.size

/-- The parents of a node that is there can be read. -/
theorem Linked.parents_eq {t : NodeTable α} (ht : t.Linked) {id : NodeId} (hid : id < t.size) :
    (t.parents id : Outcome ε (List NodeId)) = .ok (t.parentList id) := by
  obtain ⟨span, hspan, hinside⟩ := ht.spans id hid
  have hfetch : (Outcome.fetch t.parentSpans id : Outcome ε Span) = .ok span :=
    Outcome.fetch_eq_ok.2 hspan
  simp [NodeTable.parents, hfetch, parentList, stretch, hspan, hinside]

/-- Each node has a span, and it stands inside of the list of parents. -/
structure Spanned (t : NodeTable α) : Prop where
  spans : t.parentSpans.size = t.size
  inside : ∀ span ∈ t.parentSpans, span.start + span.count ≤ t.parentIds.size

namespace Spanned

variable {t : NodeTable α}

theorem linked (ht : t.Spanned) (known : ∀ id < t.size, ∀ p ∈ t.parentList id, p < t.size) :
    t.Linked where
  spans id hid := by
    have hspan : id < t.parentSpans.size := ht.spans ▸ hid
    exact ⟨_, Array.getElem?_eq_getElem hspan, ht.inside _ (Array.getElem_mem hspan)⟩
  known := known

/-- A new node has the parents that were given for it, and no other node changes its
parents. -/
theorem parentList_addNode [Arith α] (ht : t.Spanned) (op : Primitive) (ps : List NodeId)
    (name : String) (id : NodeId) :
    (t.addNode op ps name).2.parentList id = if id = t.size then ps else t.parentList id := by
  have hsize := ht.spans
  simp only [parentList, NodeTable.addNode, Array.getElem?_push, hsize]
  split
  · simp [stretch]
  · cases hspan : t.parentSpans[id]? with
    | none => rfl
    | some span =>
      have hinside := ht.inside span (Array.mem_of_getElem? hspan)
      have hstart : span.start ≤ t.parentIds.toList.length := by
        rw [Array.length_toList]
        omega
      have hcount : span.count ≤ (t.parentIds.toList.drop span.start).length := by
        rw [List.length_drop, Array.length_toList]
        omega
      simp only [Option.map_some, Option.getD_some, stretch, Array.toList_append]
      rw [List.drop_append_of_le_length hstart, List.take_append_of_le_length hcount]

/-- Whatever parents a new node is given, they stand behind the others. -/
theorem addNode [Arith α] (ht : t.Spanned) (op : Primitive) (ps : List NodeId) (name : String) :
    (t.addNode op ps name).2.Spanned where
  spans := by simpa [NodeTable.addNode, size] using ht.spans
  inside := by
    intro span hspan
    simp only [NodeTable.addNode, Array.mem_push] at hspan
    simp only [NodeTable.addNode, Array.size_append, List.size_toArray]
    rcases hspan with hspan | rfl
    · have := ht.inside span hspan
      omega
    · exact Nat.le_refl _

end Spanned

/-- The columns of the table fit together. -/
structure WellFormed (t : NodeTable α) : Prop where
  labels : t.labels.size = t.size
  spans : t.parentSpans.size = t.size
  params : t.params.size = t.size
  active : t.active.size = t.size
  constant : t.constant.size = t.size
  dropped : t.dropped.size = t.size
  inside : ∀ span ∈ t.parentSpans, span.start + span.count ≤ t.parentIds.size
  known : ∀ id, ∀ p ∈ t.parentList id, p < t.size
  arity : ∀ id (op : Primitive), t.ops[id]? = some op →
    op.admits (t.parentList id).length = true
  paramCount : ∀ id (op : Primitive) (ps : List α), t.ops[id]? = some op → t.params[id]? = some ps →
    ps.length = op.paramCount (t.parentList id).length

/-- What adding and changing nodes keeps of a table. -/
structure Sound (t : NodeTable α) : Prop where
  labels : t.labels.size = t.size
  spans : t.parentSpans.size = t.size
  params : t.params.size = t.size
  active : t.active.size = t.size
  constant : t.constant.size = t.size
  dropped : t.dropped.size = t.size
  inside : ∀ span ∈ t.parentSpans, span.start + span.count ≤ t.parentIds.size
  earlier : ∀ id, ∀ p ∈ t.parentList id, p < id
  arity : ∀ id (op : Primitive), t.ops[id]? = some op →
    op.admits (t.parentList id).length = true
  paramCount : ∀ id (op : Primitive) (ps : List α), t.ops[id]? = some op → t.params[id]? = some ps →
    ps.length = op.paramCount (t.parentList id).length

theorem sound_empty : ({} : NodeTable α).Sound where
  labels := rfl
  spans := rfl
  params := rfl
  active := rfl
  constant := rfl
  dropped := rfl
  inside := by simp
  earlier := by simp [parentList]
  arity := by simp
  paramCount := by simp

/-- Two tables whose first `n` nodes have the same primitives, parents, parameters and
drop flags. -/
structure Agree (n : Nat) (t u : NodeTable α) : Prop where
  ops : ∀ i < n, u.ops[i]? = t.ops[i]?
  parents : ∀ i < n, u.parentList i = t.parentList i
  params : ∀ i < n, u.params[i]? = t.params[i]?
  dropped : ∀ i < n, u.dropped[i]? = t.dropped[i]?

namespace Agree

variable {n m : Nat} {t u v : NodeTable α}

theorem trans (h : Agree n t u) (h' : Agree m u v) (hnm : n ≤ m) : Agree n t v where
  ops i hi := (h'.ops i (by omega)).trans (h.ops i hi)
  parents i hi := (h'.parents i (by omega)).trans (h.parents i hi)
  params i hi := (h'.params i (by omega)).trans (h.params i hi)
  dropped i hi := (h'.dropped i (by omega)).trans (h.dropped i hi)

end Agree

/-- What a table says of a node that is not dropped. -/
structure Holds (t : NodeTable α) (id : NodeId) (op : Primitive) (ps : List NodeId)
    (params : List α) : Prop where
  op : t.ops[id]? = some op
  parents : t.parentList id = ps
  params : t.params[id]? = some params
  kept : t.dropped[id]? = some false

theorem Agree.holds {n : Nat} {t u : NodeTable α} (h : Agree n t u) {id : NodeId} (hid : id < n)
    {op : Primitive} {ps : List NodeId} {params : List α} (hnode : t.Holds id op ps params) :
    u.Holds id op ps params where
  op := (h.ops id hid).trans hnode.op
  parents := (h.parents id hid).trans hnode.parents
  params := (h.params id hid).trans hnode.params
  kept := (h.dropped id hid).trans hnode.kept

theorem Holds.setParams {t : NodeTable α} {id : NodeId} {op : Primitive} {ps : List NodeId}
    {old : List α} (h : t.Holds id op ps old) (params : List α) :
    ({ t with params := t.params.setIfInBounds id params } : NodeTable α).Holds
      id op ps params where
  op := h.op
  parents := h.parents
  params := by
    have hid : id < t.params.size := (Array.getElem?_eq_some_iff.1 h.params).1
    simp [hid]
  kept := h.kept

/-- Other parameters of one node change none of the others. -/
theorem agree_setParams (t : NodeTable α) (id : NodeId) (params : List α) :
    Agree id t { t with params := t.params.setIfInBounds id params } where
  ops _ _ := rfl
  parents _ _ := rfl
  params _ hi := Array.getElem?_setIfInBounds_ne (by omega)
  dropped _ _ := rfl

namespace WellFormed

variable {t : NodeTable α}

/-! ## Reading a well-formed table -/

theorem ops_getElem? (_ : t.WellFormed) {id : NodeId} (hid : id < t.size) :
    t.ops[id]? = some t.ops[id] :=
  Array.getElem?_eq_getElem hid

theorem labels_getElem? (ht : t.WellFormed) {id : NodeId} (hid : id < t.size) :
    ∃ label, t.labels[id]? = some label :=
  ⟨_, Array.getElem?_eq_getElem (ht.labels ▸ hid)⟩

theorem params_getElem? (ht : t.WellFormed) {id : NodeId} (hid : id < t.size) :
    ∃ ps, t.params[id]? = some ps :=
  ⟨_, Array.getElem?_eq_getElem (ht.params ▸ hid)⟩

theorem active_getElem? (ht : t.WellFormed) {id : NodeId} (hid : id < t.size) :
    ∃ b, t.active[id]? = some b :=
  ⟨_, Array.getElem?_eq_getElem (ht.active ▸ hid)⟩

theorem constant_getElem? (ht : t.WellFormed) {id : NodeId} (hid : id < t.size) :
    ∃ b, t.constant[id]? = some b :=
  ⟨_, Array.getElem?_eq_getElem (ht.constant ▸ hid)⟩

theorem dropped_getElem? (ht : t.WellFormed) {id : NodeId} (hid : id < t.size) :
    ∃ b, t.dropped[id]? = some b :=
  ⟨_, Array.getElem?_eq_getElem (ht.dropped ▸ hid)⟩

theorem spanned (ht : t.WellFormed) : t.Spanned := ⟨ht.spans, ht.inside⟩

theorem linked (ht : t.WellFormed) : t.Linked := ht.spanned.linked fun id _ => ht.known id

theorem parents_eq (ht : t.WellFormed) {id : NodeId} (hid : id < t.size) :
    (t.parents id : Outcome ε (List NodeId)) = .ok (t.parentList id) :=
  ht.linked.parents_eq hid

/-! ## Adding a node -/

theorem parentList_addNode [Arith α] (ht : t.WellFormed) (op : Primitive) (ps : List NodeId)
    (name : String) (id : NodeId) :
    (t.addNode op ps name).2.parentList id = if id = t.size then ps else t.parentList id :=
  ht.spanned.parentList_addNode op ps name id

theorem addNode [Arith α] (ht : t.WellFormed) {op : Primitive} {ps : List NodeId} (name : String)
    (hps : ∀ p ∈ ps, p < t.size) (hop : op.admits ps.length = true) :
    (t.addNode op ps name).2.WellFormed where
  labels := by simpa [NodeTable.addNode, size] using ht.labels
  spans := (ht.spanned.addNode op ps name).spans
  params := by simpa [NodeTable.addNode, size] using ht.params
  active := by simpa [NodeTable.addNode, size] using ht.active
  constant := by simpa [NodeTable.addNode, size] using ht.constant
  dropped := by simpa [NodeTable.addNode, size] using ht.dropped
  inside := (ht.spanned.addNode op ps name).inside
  known := by
    intro id p hp
    rw [ht.parentList_addNode] at hp
    rw [size_addNode]
    split at hp
    · exact Nat.lt_succ_of_lt (hps p hp)
    · exact Nat.lt_succ_of_lt (ht.known id p hp)
  arity := by
    intro id op' hid
    rw [ht.parentList_addNode]
    simp only [NodeTable.addNode, Array.getElem?_push] at hid
    split
    · rename_i h
      rw [if_pos (show id = t.ops.size from h), Option.some.injEq] at hid
      exact hid ▸ hop
    · rename_i h
      rw [if_neg (show id ≠ t.ops.size from h)] at hid
      exact ht.arity id op' hid
  paramCount := by
    intro id op' ps' hid hps'
    rw [ht.parentList_addNode]
    simp only [NodeTable.addNode, Array.getElem?_push, ht.params] at hid hps'
    split
    · rename_i h
      rw [if_pos (show id = t.ops.size from h), Option.some.injEq] at hid
      rw [if_pos h, Option.some.injEq] at hps'
      rw [← hid, ← hps', Primitive.length_defaultParams]
    · rename_i h
      rw [if_neg (show id ≠ t.ops.size from h)] at hid
      rw [if_neg h] at hps'
      exact ht.paramCount id op' ps' hid hps'

/-- A new node is what was asked for, with default parameters. -/
theorem holds_addNode [Arith α] (ht : t.WellFormed) (op : Primitive) (ps : List NodeId)
    (name : String) :
    (t.addNode op ps name).2.Holds t.size op ps (op.defaultParams ps.length) where
  op := by simp [NodeTable.addNode, size]
  parents := by
    rw [ht.parentList_addNode]
    exact if_pos rfl
  params := by simp [NodeTable.addNode, ← ht.params]
  kept := by simp [NodeTable.addNode, ← ht.dropped]

/-- Adding a node changes none of the others. -/
theorem agree_addNode [Arith α] (ht : t.WellFormed) (op : Primitive) (ps : List NodeId)
    (name : String) : Agree t.size t (t.addNode op ps name).2 where
  ops i hi := Array.getElem?_push_lt hi |>.trans (Array.getElem?_eq_getElem hi).symm
  parents i hi := by rw [ht.parentList_addNode, if_neg (Nat.ne_of_lt hi)]
  params i hi := by
    simp only [NodeTable.addNode, Array.getElem?_push, ht.params]
    rw [if_neg (by omega)]
  dropped i hi := by
    simp only [NodeTable.addNode, Array.getElem?_push, ht.dropped]
    rw [if_neg (by omega)]

/-! ## Changing a column -/

/-- The parameters of a node may be replaced by as many others. -/
theorem setParams (ht : t.WellFormed) (id : NodeId) {ps : List α}
    (hps : ∀ old, t.params[id]? = some old → ps.length = old.length) :
    ({ t with params := t.params.setIfInBounds id ps } : NodeTable α).WellFormed :=
  { ht with
    params := Array.size_setIfInBounds.trans ht.params
    known := ht.known
    arity := ht.arity
    paramCount := by
      intro i op qs hop hqs
      simp only [Array.getElem?_setIfInBounds] at hqs
      split at hqs
      · rename_i hi
        subst hi
        split at hqs
        · rename_i hid
          rw [Option.some.injEq] at hqs
          have hold : t.params[id]? = some t.params[id] := Array.getElem?_eq_getElem hid
          rw [← hqs, hps _ hold]
          exact ht.paramCount id op _ hop hold
        · exact absurd hqs (by simp)
      · exact ht.paramCount i op qs hop hqs }

theorem withActive (ht : t.WellFormed) {column : Array Bool} (hsize : column.size = t.active.size) :
    ({ t with active := column } : NodeTable α).WellFormed :=
  { ht with
    active := hsize.trans ht.active
    known := ht.known
    arity := ht.arity
    paramCount := ht.paramCount }

theorem withConstant (ht : t.WellFormed) {column : Array Bool}
    (hsize : column.size = t.constant.size) :
    ({ t with constant := column } : NodeTable α).WellFormed :=
  { ht with
    constant := hsize.trans ht.constant
    known := ht.known
    arity := ht.arity
    paramCount := ht.paramCount }

theorem withDropped (ht : t.WellFormed) {column : Array Bool}
    (hsize : column.size = t.dropped.size) :
    ({ t with dropped := column } : NodeTable α).WellFormed :=
  { ht with
    dropped := hsize.trans ht.dropped
    known := ht.known
    arity := ht.arity
    paramCount := ht.paramCount }

/-- If every parent is smaller than its child, a well-formed table is sound. -/
theorem sound (ht : t.WellFormed) (earlier : ∀ id, ∀ p ∈ t.parentList id, p < id) : t.Sound :=
  ⟨ht.labels, ht.spans, ht.params, ht.active, ht.constant, ht.dropped, ht.inside, earlier,
    ht.arity, ht.paramCount⟩

end WellFormed

namespace Sound

variable {t : NodeTable α}

/-! ## Sound tables -/

/-- The parents of a node that is there are there too. -/
theorem parent_lt_size (ht : t.Sound) {id p : NodeId} (hp : p ∈ t.parentList id) :
    p < t.size := by
  have hid : id < t.size := by
    by_contra hid
    have : t.parentSpans[id]? = none :=
      Array.getElem?_eq_none (by rw [ht.spans]; exact Nat.le_of_not_lt hid)
    simp [parentList, this] at hp
  exact Nat.lt_trans (ht.earlier id p hp) hid

theorem wellFormed (ht : t.Sound) : t.WellFormed :=
  ⟨ht.labels, ht.spans, ht.params, ht.active, ht.constant, ht.dropped, ht.inside,
    fun _ _ hp => ht.parent_lt_size hp, ht.arity, ht.paramCount⟩

theorem ops_getElem? (ht : t.Sound) {id : NodeId} (hid : id < t.size) :
    t.ops[id]? = some t.ops[id] :=
  ht.wellFormed.ops_getElem? hid

theorem labels_getElem? (ht : t.Sound) {id : NodeId} (hid : id < t.size) :
    ∃ label, t.labels[id]? = some label :=
  ht.wellFormed.labels_getElem? hid

theorem params_getElem? (ht : t.Sound) {id : NodeId} (hid : id < t.size) :
    ∃ ps, t.params[id]? = some ps :=
  ht.wellFormed.params_getElem? hid

theorem active_getElem? (ht : t.Sound) {id : NodeId} (hid : id < t.size) :
    ∃ b, t.active[id]? = some b :=
  ht.wellFormed.active_getElem? hid

theorem dropped_getElem? (ht : t.Sound) {id : NodeId} (hid : id < t.size) :
    ∃ b, t.dropped[id]? = some b :=
  ht.wellFormed.dropped_getElem? hid

theorem parents_eq (ht : t.Sound) {id : NodeId} (hid : id < t.size) :
    (t.parents id : Outcome ε (List NodeId)) = .ok (t.parentList id) :=
  ht.wellFormed.parents_eq hid

section Adding

variable [Arith α] {op : Primitive} {ps : List NodeId} {name : String}

theorem parentList_addNode (ht : t.Sound) (op : Primitive) (ps : List NodeId) (name : String)
    (id : NodeId) :
    (t.addNode op ps name).2.parentList id = if id = t.size then ps else t.parentList id :=
  ht.wellFormed.parentList_addNode op ps name id

theorem holds_addNode (ht : t.Sound) (op : Primitive) (ps : List NodeId) (name : String) :
    (t.addNode op ps name).2.Holds t.size op ps (op.defaultParams ps.length) :=
  ht.wellFormed.holds_addNode op ps name

theorem agree_addNode (ht : t.Sound) (op : Primitive) (ps : List NodeId) (name : String) :
    Agree t.size t (t.addNode op ps name).2 :=
  ht.wellFormed.agree_addNode op ps name

/-- A new node comes after its parents. -/
theorem addNode (ht : t.Sound) (name : String) (hps : ∀ p ∈ ps, p < t.size)
    (hop : op.admits ps.length = true) : (t.addNode op ps name).2.Sound := by
  refine (ht.wellFormed.addNode name hps hop).sound fun id p hp => ?_
  rw [ht.parentList_addNode] at hp
  split at hp
  · rename_i hid
    exact hid ▸ hps p hp
  · exact ht.earlier id p hp

end Adding

theorem setParams (ht : t.Sound) (id : NodeId) {ps : List α}
    (hps : ∀ old, t.params[id]? = some old → ps.length = old.length) :
    ({ t with params := t.params.setIfInBounds id ps } : NodeTable α).Sound :=
  (ht.wellFormed.setParams id hps).sound ht.earlier

theorem withActive (ht : t.Sound) {column : Array Bool} (hsize : column.size = t.active.size) :
    ({ t with active := column } : NodeTable α).Sound :=
  (ht.wellFormed.withActive hsize).sound ht.earlier

theorem withConstant (ht : t.Sound) {column : Array Bool}
    (hsize : column.size = t.constant.size) :
    ({ t with constant := column } : NodeTable α).Sound :=
  (ht.wellFormed.withConstant hsize).sound ht.earlier

theorem withDropped (ht : t.Sound) {column : Array Bool}
    (hsize : column.size = t.dropped.size) :
    ({ t with dropped := column } : NodeTable α).Sound :=
  (ht.wellFormed.withDropped hsize).sound ht.earlier

end Sound

end NodeTable

end FeatureGraph
