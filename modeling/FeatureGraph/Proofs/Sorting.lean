import FeatureGraph.Arith.Double
import FeatureGraph.Proofs.Order

/-!
# The sort of any table

The sort lists every node once and after its parents, or it names a node on a cycle.  Its depth
suffices, and it never leaves a table whose parents can be looked up; what it says of another one is
right if it answers at all.

* `ofNodes` adds nodes without looking at their parents.  `linked_ofNodes_iff` says that the table
  is `Linked`, which is all that the sort needs, if the parents are there in the end.
* `DependsOn` is the relation that must not have a cycle.
* `Arranged` is what the order has: no node comes before one of its parents.
* `Visit.Fits` is the invariant of the visits, and `Visit.Onward` is what later visits keep of
  earlier ones.  `Fits.enter` and `Fits.finish` are the two steps.
* `Visit.LeadTo` says that the nodes whose visits are under way form a path to the node at hand.  A
  node that is met again on that path lies on a cycle.
* `Snag` says which faults a table can cause.
* `meets_visit` is the induction on the depth.  A fresh node is entered before its parents are
  visited, so there are always fewer fresh nodes than levels left.
* `meets_sort` is the run over all nodes, and `Linked.sorts_iff_acyclic` says when it succeeds.
-/

namespace FeatureGraph

namespace NodeTable

variable {α : Type} {t : NodeTable α} {id p : NodeId}

/-! ## Nodes in any order -/

/-- A node that is going to be added. -/
structure Request where
  op : Primitive
  parents : List NodeId
  name : String

/-- The table of some nodes.  Their parents are not checked. -/
def ofNodes [Arith α] (nodes : List Request) : NodeTable α :=
  nodes.foldl (fun t node => (t.addNode node.op node.parents node.name).2) {}

section OfNodes

variable [Arith α] {nodes : List Request}

theorem ofNodes_concat (nodes : List Request) (node : Request) :
    (ofNodes (nodes ++ [node]) : NodeTable α) =
      ((ofNodes nodes).addNode node.op node.parents node.name).2 := by
  rw [ofNodes, List.foldl_concat, ofNodes]

theorem size_ofNodes (nodes : List Request) : (ofNodes nodes : NodeTable α).size = nodes.length := by
  induction nodes using List.reverseRecOn with
  | nil => rfl
  | append_singleton nodes node ih => simp [ofNodes_concat, ih]

theorem spanned_ofNodes (nodes : List Request) : (ofNodes nodes : NodeTable α).Spanned := by
  induction nodes using List.reverseRecOn with
  | nil => exact ⟨rfl, by simp [ofNodes]⟩
  | append_singleton nodes node ih => rw [ofNodes_concat]; exact ih.addNode _ _ _

/-- Each node has the parents that were asked for, be they added before it or after it. -/
theorem parentList_ofNodes (nodes : List Request) (id : NodeId) :
    (ofNodes nodes : NodeTable α).parentList id = (nodes[id]?.map (·.parents)).getD [] := by
  induction nodes using List.reverseRecOn with
  | nil => rfl
  | append_singleton nodes node ih =>
    rw [ofNodes_concat, (spanned_ofNodes nodes).parentList_addNode, size_ofNodes, ih]
    rcases Nat.lt_trichotomy id nodes.length with hlt | rfl | hgt
    · rw [if_neg hlt.ne, List.getElem?_append_left hlt]
    · simp
    · have hnone : (nodes ++ [node])[id]? = none := List.getElem?_eq_none (by simpa using hgt)
      rw [if_neg hgt.ne', List.getElem?_eq_none hgt.le, hnone]

/-- The table is linked exactly if the parents of all nodes are among the nodes. -/
theorem linked_ofNodes_iff :
    (ofNodes nodes : NodeTable α).Linked ↔
      ∀ node ∈ nodes, ∀ p ∈ node.parents, p < nodes.length := by
  have hparents : ∀ id (hid : id < nodes.length),
      (ofNodes nodes : NodeTable α).parentList id = nodes[id].parents := fun id hid => by
    rw [parentList_ofNodes, List.getElem?_eq_getElem hid]
    rfl
  constructor
  · intro h node hnode p hp
    obtain ⟨id, hid, rfl⟩ := List.getElem_of_mem hnode
    rw [← hparents id hid] at hp
    exact size_ofNodes (α := α) nodes ▸ h.known id (by rwa [size_ofNodes]) p hp
  · intro h
    refine (spanned_ofNodes nodes).linked fun id hid p hp => ?_
    rw [size_ofNodes] at hid ⊢
    rw [hparents id hid] at hp
    exact h _ (List.getElem_mem hid) p hp

end OfNodes

/-! ## Dependence -/

/-- A node depends on its parents, on their parents and so on. -/
def DependsOn (t : NodeTable α) : NodeId → NodeId → Prop :=
  Relation.TransGen fun id p => p ∈ t.parentList id

/-- A node of the table that depends on itself. -/
structure OnCycle (t : NodeTable α) (id : NodeId) : Prop where
  inside : id < t.size
  loop : t.DependsOn id id

/-- No node depends on itself. -/
def Acyclic (t : NodeTable α) : Prop := ∀ id, ¬t.OnCycle id

/-- Every node is listed once, and none before one of its parents. -/
structure Arranged (t : NodeTable α) (order : List NodeId) : Prop where
  nodup : order.Nodup
  inside : ∀ id ∈ order, id < t.size
  noLoop : ∀ id ∈ order, id ∉ t.parentList id
  later : order.Pairwise fun a b => b ∉ t.parentList a

/-- Some of the nodes of an arranged list are arranged. -/
theorem Arranged.sublist {order kept : List NodeId} (h : t.Arranged order)
    (hkept : kept.Sublist order) : t.Arranged kept where
  nodup := h.nodup.sublist hkept
  inside id hid := h.inside id (hkept.subset hid)
  noLoop id hid := h.noLoop id (hkept.subset hid)
  later := h.later.sublist hkept

/-- A listed parent comes before its child. -/
theorem Arranged.idxOf_lt {order : List NodeId} (h : t.Arranged order) {i : Nat}
    (hi : i < order.length) {p : NodeId} (hp : p ∈ t.parentList order[i]) (hmem : p ∈ order) :
    order.idxOf p < i := by
  have hidx := List.idxOf_lt_length_iff.2 hmem
  have hget : order[order.idxOf p] = p := List.getElem_idxOf hidx
  rcases Nat.lt_trichotomy (order.idxOf p) i with hlt | heq | hgt
  · exact hlt
  · refine absurd ?_ (h.noLoop order[i] (List.getElem_mem hi))
    have hloop : order[i] = p := by simp only [← heq, hget]
    rwa [hloop] at hp ⊢
  · have hlater := List.pairwise_iff_getElem.1 h.later i _ hi hidx hgt
    rw [hget] at hlater
    exact absurd hp hlater

section Listed

variable {order : List NodeId} (h : t.Arranged order)
  (hclosed : ∀ id ∈ order, ∀ p ∈ t.parentList id, p ∈ order)

include h hclosed

/-- The parents of a node are among the nodes listed before it. -/
theorem Arranged.mem_take {i : Nat} (hi : i < order.length) (hp : p ∈ t.parentList order[i]) :
    p ∈ order.take i := by
  have hmem : p ∈ order := hclosed _ (List.getElem_mem hi) p hp
  exact List.mem_take_iff_idxOf_lt hmem |>.2 (h.idxOf_lt hi hp hmem)

/-- Whatever a listed node depends on comes before it. -/
theorem Arranged.idxOf_lt_of_dependsOn (hid : id ∈ order) (hdepends : t.DependsOn id p) :
    p ∈ order ∧ order.idxOf p < order.idxOf id := by
  have hparent : ∀ {a b}, a ∈ order → b ∈ t.parentList a →
      b ∈ order ∧ order.idxOf b < order.idxOf a := by
    intro a b ha hb
    have hlt := List.idxOf_lt_length_iff.2 ha
    have hget : order[order.idxOf a] = a := List.getElem_idxOf hlt
    have hmem := hclosed a ha b hb
    exact ⟨hmem, h.idxOf_lt hlt (hget.symm ▸ hb) hmem⟩
  induction hdepends with
  | single hp => exact hparent hid hp
  | tail _ hp ih =>
    obtain ⟨hmem, hlt⟩ := hparent ih.1 hp
    exact ⟨hmem, hlt.trans ih.2⟩

/-- No listed node depends on itself. -/
theorem Arranged.not_dependsOn_self (hid : id ∈ order) : ¬t.DependsOn id id := fun hloop =>
  Nat.lt_irrefl _ (h.idxOf_lt_of_dependsOn hclosed hid hloop).2

end Listed

end NodeTable

namespace Visit

variable {α : Type} {t : NodeTable α} {v w : Visit} {id : NodeId}

/-- What visits keep: a mark for each node, and the finished nodes arranged, with the parents of
each among them. -/
structure Fits (t : NodeTable α) (v : Visit) : Prop where
  size : v.marks.size = t.size
  finished : ∀ id, id ∈ v.order.toList ↔ v.marks[id]? = some .finished
  closed : ∀ id ∈ v.order.toList, ∀ p ∈ t.parentList id, p ∈ v.order.toList
  arranged : t.Arranged v.order.toList

/-- What later visits keep of earlier ones: entered nodes stay entered, no other node is left
entered, and finished nodes stay finished. -/
structure Onward (v w : Visit) : Prop where
  entered : ∀ id : NodeId, w.marks[id]? = some .entered ↔ v.marks[id]? = some .entered
  finished : ∀ id : NodeId, v.marks[id]? = some .finished → w.marks[id]? = some .finished

theorem Onward.refl (v : Visit) : v.Onward v := ⟨fun _ => Iff.rfl, fun _ h => h⟩

theorem Onward.trans {u : Visit} (h : u.Onward v) (h' : v.Onward w) : u.Onward w where
  entered id := (h'.entered id).trans (h.entered id)
  finished id hid := h'.finished id (h.finished id hid)

/-- The nodes that have not been met. -/
def fresh (v : Visit) : Finset NodeId :=
  (Finset.range v.marks.size).filter fun id => v.marks[id]? = some .fresh

theorem mem_fresh : id ∈ v.fresh ↔ v.marks[id]? = some .fresh := by
  rw [fresh, Finset.mem_filter, Finset.mem_range]
  exact and_iff_right_of_imp fun h => (Array.getElem?_eq_some_iff.1 h).1

theorem card_fresh_le (v : Visit) : v.fresh.card ≤ v.marks.size :=
  (Finset.card_filter_le _ _).trans (Finset.card_range _).le

/-- No visit makes a node fresh again. -/
theorem Onward.fresh_subset (h : v.Onward w) (hsize : w.marks.size = v.marks.size) :
    w.fresh ⊆ v.fresh := by
  intro id hid
  rw [mem_fresh] at hid ⊢
  have hlt : id < v.marks.size := hsize ▸ (Array.getElem?_eq_some_iff.1 hid).1
  cases hmark : v.marks[id] with
  | fresh => rw [Array.getElem?_eq_getElem hlt, hmark]
  | entered =>
    have hentered := (h.entered id).2 (by rw [Array.getElem?_eq_getElem hlt, hmark])
    cases hid.symm.trans hentered
  | finished =>
    have hfinished := h.finished id (by rw [Array.getElem?_eq_getElem hlt, hmark])
    cases hid.symm.trans hfinished

/-! ## Entering and finishing a node -/

theorem marks_enter (hid : id < v.marks.size) (i : NodeId) :
    (v.enter id).marks[i]? = if i = id then some .entered else v.marks[i]? := by
  rw [enter, Array.getElem?_setIfInBounds]
  by_cases hi : i = id
  · subst hi
    simp [hid]
  · simp [hi, Ne.symm hi]

theorem marks_finish (hid : id < v.marks.size) (i : NodeId) :
    (v.finish id).marks[i]? = if i = id then some .finished else v.marks[i]? := by
  rw [finish, Array.getElem?_setIfInBounds]
  by_cases hi : i = id
  · subst hi
    simp [hid]
  · simp [hi, Ne.symm hi]

theorem Fits.enter (h : v.Fits t) (hfresh : v.marks[id]? = some .fresh) :
    (v.enter id).Fits t where
  size := by simpa [Visit.enter] using h.size
  finished i := by
    have hid := (Array.getElem?_eq_some_iff.1 hfresh).1
    rw [marks_enter hid]
    refine (h.finished i).trans ?_
    split
    · rename_i hi
      rw [hi, hfresh]
      simp
    · rfl
  closed := h.closed
  arranged := h.arranged

/-- Entering a fresh node leaves fewer fresh nodes. -/
theorem card_fresh_enter (hfresh : v.marks[id]? = some .fresh) :
    (v.enter id).fresh.card < v.fresh.card := by
  have hid := (Array.getElem?_eq_some_iff.1 hfresh).1
  refine Finset.card_lt_card ⟨fun i hi => ?_, fun hsub => ?_⟩
  · rw [mem_fresh, marks_enter hid] at hi
    rw [mem_fresh]
    split at hi
    · cases hi
    · exact hi
  · have hmem := hsub (mem_fresh.2 hfresh)
    rw [mem_fresh, marks_enter hid, if_pos rfl] at hmem
    cases hmem

/-- A node is finished when its parents are. -/
theorem Fits.finish (h : v.Fits t) (hentered : v.marks[id]? = some .entered)
    (hparents : ∀ p ∈ t.parentList id, v.marks[p]? = some .finished) : (v.finish id).Fits t := by
  have hid := (Array.getElem?_eq_some_iff.1 hentered).1
  have hnew : id ∉ v.order.toList := by
    rw [h.finished, hentered]
    simp
  have horder : (v.finish id).order.toList = v.order.toList ++ [id] := by
    simp [Visit.finish]
  constructor
  · simpa [Visit.finish] using h.size
  · intro i
    rw [horder, marks_finish hid, List.mem_append, List.mem_singleton, h.finished]
    split <;> simp [*]
  · intro i hi p hp
    rw [horder, List.mem_append, List.mem_singleton] at hi ⊢
    rcases hi with hi | rfl
    · exact .inl (h.closed i hi p hp)
    · exact .inl ((h.finished p).2 (hparents p hp))
  · rw [horder]
    constructor
    · exact h.arranged.nodup.append (List.nodup_singleton id) (by simpa using hnew)
    · intro i hi
      rcases List.mem_append.1 hi with hi | hi
      · exact h.arranged.inside i hi
      · rw [List.mem_singleton.1 hi]
        exact h.size ▸ hid
    · intro i hi hloop
      rcases List.mem_append.1 hi with hi | hi
      · exact h.arranged.noLoop i hi hloop
      · rw [List.mem_singleton.1 hi] at hloop
        exact hnew ((h.finished id).2 (hparents id hloop))
    · refine List.pairwise_append.2 ⟨h.arranged.later, List.pairwise_singleton _ _, ?_⟩
      intro i hi j hj hparent
      rw [List.mem_singleton.1 hj] at hparent
      exact hnew (h.closed i hi id hparent)

/-- A node that was fresh, was entered and is finished now has been visited. -/
theorem Onward.finish (hfresh : v.marks[id]? = some .fresh) (h : (v.enter id).Onward w)
    (hsize : w.marks.size = v.marks.size) : v.Onward (w.finish id) := by
  have hid := (Array.getElem?_eq_some_iff.1 hfresh).1
  have hidw : id < w.marks.size := hsize.symm ▸ hid
  constructor
  · intro i
    have hentered := h.entered i
    rw [marks_enter hid] at hentered
    rw [marks_finish hidw]
    by_cases hi : i = id
    · subst hi
      simp [hfresh]
    · simpa [hi] using hentered
  · intro i hi
    have hne : i ≠ id := fun heq => by
      rw [heq, hfresh] at hi
      cases hi
    rw [marks_finish hidw, if_neg hne]
    exact h.finished i (by rw [marks_enter hid, if_neg hne, hi])

/-! ## The path to the node at hand -/

/-- All nodes whose visits are under way depend on a node. -/
def LeadTo (t : NodeTable α) (v : Visit) (id : NodeId) : Prop :=
  ∀ a : NodeId, v.marks[a]? = some .entered → t.DependsOn a id

theorem LeadTo.onward (h : v.LeadTo t id) (hw : v.Onward w) : w.LeadTo t id :=
  fun a ha => h a ((hw.entered a).1 ha)

/-- The path to a node, and then the node itself, lead to each of its parents. -/
theorem LeadTo.enter (h : v.LeadTo t id) (hid : id < v.marks.size) {p : NodeId}
    (hp : p ∈ t.parentList id) : (v.enter id).LeadTo t p := by
  intro a ha
  rw [marks_enter hid] at ha
  split at ha
  · rename_i heq
    exact heq ▸ .single hp
  · exact (h a ha).tail hp

end Visit

namespace NodeTable

variable {ε α : Type} {t : NodeTable α}

open Outcome (Meets Unrefused meets_ok meets_error meets_foldlM)

/-- What may keep a table from being sorted: a node on a cycle, or that the parents of a node cannot
be looked up. -/
def Snag (t : NodeTable α) : Fault Cycle → Prop
  | .failure c => t.OnCycle c.node
  | .outOfRange => ¬t.Linked

theorem unrefused_parents (t : NodeTable α) (id : NodeId) :
    Unrefused (t.parents id : Outcome ε (List NodeId)) := by
  refine (Outcome.unrefused_fetch _ _).bind fun span _ => ?_
  split
  · exact Outcome.unrefused_ok _
  · exact Outcome.unrefused_outOfRange

/-- The parents of a node of a linked table can be read. -/
theorem meets_parents {F : Fault ε → Prop} {id : NodeId} (hid : t.Linked → id < t.size)
    (hF : ¬t.Linked → F .outOfRange) :
    Meets F (· = t.parentList id) (t.parents id : Outcome ε (List NodeId)) where
  error fault hfault := by
    by_cases ht : t.Linked
    · rw [ht.parents_eq (hid ht)] at hfault
      cases hfault
    · rw [(unrefused_parents t id).error fault hfault]
      exact hF ht
  ok _ hps := (parentList_of_parents_eq_ok hps).symm

/-- A visit with more levels left than there are fresh nodes finishes its node, or names a node on a
cycle. -/
theorem meets_visit (depth : Nat) {id : NodeId} (hid : t.Linked → id < t.size)
    {v : Visit} (hv : v.Fits t) (hpath : v.LeadTo t id) (hdepth : v.fresh.card < depth) :
    Meets t.Snag (fun w => w.Fits t ∧ v.Onward w ∧ w.marks[id]? = some .finished)
      (t.visit depth id v) := by
  induction depth generalizing id v with
  | zero => exact absurd hdepth (Nat.not_lt_zero _)
  | succ depth ih =>
    rw [visit]
    split
    · rename_i hmark
      refine meets_error fun ht => absurd (hv.size ▸ hid ht) ?_
      exact Nat.not_lt.2 (Array.getElem?_eq_none_iff.1 hmark)
    · rename_i hmark
      exact meets_ok ⟨hv, .refl v, hmark⟩
    · -- the node is on the path that leads to it
      rename_i hmark
      exact meets_error ⟨hv.size ▸ (Array.getElem?_eq_some_iff.1 hmark).1, hpath id hmark⟩
    · rename_i hmark
      refine (meets_parents hid fun hill => hill).bind ?_
      rintro _ rfl
      have hidv : id < v.marks.size := (Array.getElem?_eq_some_iff.1 hmark).1
      have hentered := hv.enter hmark
      have hless : (v.enter id).fresh.card < depth :=
        Nat.lt_of_lt_of_le (Visit.card_fresh_enter hmark) (Nat.le_of_lt_succ hdepth)
      -- the parents are visited one after the other, and stay finished
      have hparents : Meets t.Snag (fun w => w.Fits t ∧ (v.enter id).Onward w ∧
          ∀ p ∈ t.parentList id, w.marks[p]? = some .finished)
          ((t.parentList id).foldlM (fun v p => t.visit depth p v) (v.enter id)) := by
        have hrun := meets_foldlM (F := t.Snag) (s := v.enter id)
          (f := fun v p => t.visit depth p v) (l := t.parentList id)
          (P := fun k (w : Visit) => w.Fits t ∧ (v.enter id).Onward w ∧
            ∀ p ∈ (t.parentList id).take k, w.marks[p]? = some .finished)
          ⟨hentered, .refl _, by simp⟩ ?_
        · simpa using hrun
        · rintro k hk w ⟨hw, honward, hdone⟩
          have hsub := honward.fresh_subset (hw.size.trans hentered.size.symm)
          have hmem : (t.parentList id)[k] ∈ t.parentList id := List.getElem_mem hk
          refine (ih (fun ht => ht.known id (hid ht) _ hmem) hw
            ((hpath.enter hidv hmem).onward honward)
            (Nat.lt_of_le_of_lt (Finset.card_le_card hsub) hless)).mono ?_
          rintro w' _ ⟨hw', honward', hfinished⟩
          refine ⟨hw', honward.trans honward', fun p hp => ?_⟩
          rw [List.take_succ_eq_append_getElem hk, List.mem_append, List.mem_singleton] at hp
          rcases hp with hp | rfl
          · exact honward'.finished p (hdone p hp)
          · exact hfinished
      refine hparents.bind ?_
      rintro w ⟨hw, honward, hdone⟩
      have hidw : id < w.marks.size := by rw [hw.size, ← hv.size]; exact hidv
      have hstill : w.marks[id]? = some .entered := by
        rw [honward.entered, Visit.marks_enter hidv, if_pos rfl]
      refine meets_ok ⟨hw.finish hstill hdone,
        Visit.Onward.finish hmark honward (hw.size.trans hv.size.symm), ?_⟩
      rw [Visit.marks_finish hidw, if_pos rfl]

/-- Before the first visit every node is fresh. -/
theorem fits_start (t : NodeTable α) :
    Visit.Fits t ⟨Array.replicate t.size .fresh, #[]⟩ where
  size := by simp
  finished id := by simp [Array.getElem?_replicate]
  closed := by simp
  arranged := ⟨List.nodup_nil, by simp, by simp, .nil⟩

/-- The sort lists all nodes, each once and after its parents, or it names a node on a cycle.  It
does not leave a linked table. -/
theorem meets_sort (t : NodeTable α) :
    Meets t.Snag (fun order => t.Arranged order ∧ ∀ id < t.size, id ∈ order) t.sort := by
  have hrun := meets_foldlM (F := t.Snag) (l := List.range t.size)
    (f := fun v id => t.visit (t.size + 1) id v)
    (P := fun k (w : Visit) => w.Fits t ∧ (∀ a : NodeId, w.marks[a]? ≠ some .entered) ∧
      ∀ id < k, w.marks[id]? = some .finished)
    ⟨fits_start t, by simp [Array.getElem?_replicate], by simp⟩ ?_
  · refine hrun.bind ?_
    rintro w ⟨hw, _, hdone⟩
    rw [List.length_range] at hdone
    exact meets_ok ⟨hw.arranged, fun id hid => (hw.finished id).2 (hdone id hid)⟩
  · rintro k hk w ⟨hw, hidle, hdone⟩
    rw [List.length_range] at hk
    rw [List.getElem_range]
    have hpath : w.LeadTo t k := fun a ha => absurd ha (hidle a)
    refine (meets_visit (t.size + 1) (fun _ => hk) hw hpath ?_).mono ?_
    · exact Nat.lt_succ_of_le (hw.size ▸ w.card_fresh_le)
    · rintro w' _ ⟨hw', honward, hfinished⟩
      refine ⟨hw', fun a ha => hidle a ((honward.entered a).1 ha), fun id hid => ?_⟩
      rcases Nat.lt_succ_iff_lt_or_eq.1 hid with hid | rfl
      · exact honward.finished id (hdone id hid)
      · exact hfinished

/-! ## When there is an order -/

/-- A list of all nodes of a linked table holds the parents of each of them. -/
theorem Linked.closed_of_listed (ht : t.Linked) {order : List NodeId} (h : t.Arranged order)
    (hall : ∀ id < t.size, id ∈ order) : ∀ id ∈ order, ∀ p ∈ t.parentList id, p ∈ order :=
  fun id hid p hp => hall p (ht.known id (h.inside id hid) p hp)

/-- A linked table has an order exactly if no node depends on itself. -/
theorem Linked.exists_sort_iff (ht : t.Linked) :
    (∃ order, t.sort = .ok order) ↔ t.Acyclic := by
  constructor
  · rintro ⟨order, hsort⟩ id hid
    obtain ⟨harranged, hall⟩ := t.meets_sort.ok order hsort
    have hclosed := ht.closed_of_listed harranged hall
    exact harranged.not_dependsOn_self hclosed (hall id hid.inside) hid.loop
  · intro hacyclic
    have hsure : Meets (fun _ => False) _ t.sort := t.meets_sort.fault fun fault hsnag => by
      cases fault with
      | failure c => exact hacyclic c.node hsnag
      | outOfRange => exact hsnag ht
    obtain ⟨order, hsort, _⟩ := hsure.exists_ok
    exact ⟨order, hsort⟩

/-- The sort of a linked table answers exactly if no node depends on itself.  Then it lists all
nodes, each once and after all of its parents; otherwise it names a node that depends on itself. -/
theorem Linked.sorts_iff_acyclic (ht : t.Linked) :
    ((∃ order, t.sort = .ok order) ↔ t.Acyclic) ∧
    (∀ order, t.sort = .ok order → order.Perm (List.range t.size) ∧
      ∀ i (hi : i < order.length), ∀ p ∈ t.parentList order[i], p ∈ order.take i) ∧
    ∀ fault, t.sort = .error fault → ∃ c : Cycle, fault = .failure c ∧ t.OnCycle c.node ∧
      c.message = "Cycle detected involving node " ++ toString c.node := by
  refine ⟨ht.exists_sort_iff, fun order hsort => ?_, fun fault hfault => ?_⟩
  · obtain ⟨harranged, hall⟩ := t.meets_sort.ok order hsort
    have hmem : ∀ id, id ∈ order ↔ id ∈ List.range t.size := fun id => by
      rw [List.mem_range]
      exact ⟨harranged.inside id, hall id⟩
    refine ⟨(List.perm_ext_iff_of_nodup harranged.nodup List.nodup_range).2 hmem, ?_⟩
    intro i hi p hp
    exact harranged.mem_take (ht.closed_of_listed harranged hall) hi hp
  · have hsnag := t.meets_sort.error fault hfault
    cases fault with
    | failure c => exact ⟨c, rfl, hsnag, rfl⟩
    | outOfRange => exact absurd ht hsnag

/-- A node that reads twice from a node that is added after it. -/
def readsLater : NodeTable Float := ofNodes [⟨.linear, [1, 1], "sum"⟩, ⟨.input 0, [], "x"⟩]

/-- Two nodes that read from each other. -/
def ring : NodeTable Float := ofNodes [⟨.linear, [1], "left"⟩, ⟨.linear, [0], "right"⟩]

theorem sorts_readsLater_not_ring : readsLater.sort = .ok [1, 0] ∧ readsLater.Acyclic ∧
    ∃ c : Cycle, ring.sort = .error (.failure c) ∧ ring.OnCycle c.node := by
  have hsort : readsLater.sort = .ok [1, 0] := rfl
  have hlater : readsLater.Linked := linked_ofNodes_iff.2 (by decide)
  have hring : ring.Linked := linked_ofNodes_iff.2 (by decide)
  refine ⟨hsort, hlater.sorts_iff_acyclic.1.1 ⟨_, hsort⟩, ⟨0⟩, rfl, ?_⟩
  obtain ⟨c, hc, hcycle, _⟩ := hring.sorts_iff_acyclic.2.2 (.failure ⟨0⟩) rfl
  cases hc
  exact hcycle

end NodeTable

end FeatureGraph
