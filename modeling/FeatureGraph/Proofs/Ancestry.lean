import FeatureGraph.Proofs.Table
import FeatureGraph.Graph.Ancestry

/-!
# What an ancestry holds

The ancestry of some nodes is the least list of nodes that holds them and with each node its
parents.

* `Frontier` is the invariant of the walk, and `Frontier.skip` and `Frontier.visit` are its
  steps.
* `exists_collectAncestry` is the walk, from any frontier.
* `exists_ancestry` is the walk from the start.
* `Walked.mem_iff` and `nodup_collectAncestry` say that each node that is needed is kept once.
-/

namespace FeatureGraph.NodeTable

variable {ε α : Type} {t : NodeTable α}

/-- With each node that satisfies it, its parents satisfy a property. -/
def ParentClosed (t : NodeTable α) (Q : NodeId → Prop) : Prop :=
  ∀ id, Q id → ∀ p ∈ t.parentList id, Q p

/-- Where a walk stands that has seen some nodes and has others to look at: whatever has been
seen has its parents among the two. -/
structure Frontier (t : NodeTable α) (seen stack : List NodeId) : Prop where
  seenInside : ∀ id ∈ seen, id < t.size
  stackInside : ∀ id ∈ stack, id < t.size
  parents : ∀ id ∈ seen, ∀ p ∈ t.parentList id, p ∈ seen ∨ p ∈ stack

/-- What a walk keeps that has seen some nodes and has others to look at. -/
structure Walked (t : NodeTable α) (seen stack kept : List NodeId) : Prop where
  keepsSeen : ∀ id ∈ seen, id ∈ kept
  keepsStack : ∀ id ∈ stack, id ∈ kept
  inside : ∀ id ∈ kept, id < t.size
  closed : t.ParentClosed (· ∈ kept)
  least : ∀ Q, t.ParentClosed Q → (∀ id ∈ seen, Q id) → (∀ id ∈ stack, Q id) →
    ∀ id ∈ kept, Q id

variable {seen stack kept : List NodeId} {id : NodeId}

/-! ## One step -/

/-- A node that has been seen before is taken off the stack. -/
theorem Frontier.skip (h : t.Frontier seen (id :: stack)) (hid : id ∈ seen) :
    t.Frontier seen stack where
  seenInside := h.seenInside
  stackInside q hq := h.stackInside q (List.mem_cons_of_mem _ hq)
  parents q hq p hp := (seen_or_cons_iff_of_mem hid).1 (h.parents q hq p hp)

/-- The parents of a node that is seen for the first time are put on the stack. -/
theorem Frontier.visit (h : t.Frontier seen (id :: stack)) (ht : t.Linked) :
    t.Frontier (id :: seen) (t.parentList id ++ stack) where
  seenInside q hq := by
    rcases List.mem_cons.1 hq with rfl | hq
    · exact h.stackInside q (by simp)
    · exact h.seenInside q hq
  stackInside p hp := by
    rcases List.mem_append.1 hp with hp | hp
    · exact ht.known id (h.stackInside id (by simp)) p hp
    · exact h.stackInside p (List.mem_cons_of_mem _ hp)
  parents q hq p hp := by
    rcases List.mem_cons.1 hq with rfl | hq
    · exact .inr (List.mem_append_left _ hp)
    · exact (seen_or_cons_iff.1 (h.parents q hq p hp)).imp_right (List.mem_append_right _)

/-- What is kept from the stack below a node that has been seen is kept from the whole stack. -/
theorem Walked.skip (h : t.Walked seen stack kept) (hid : id ∈ seen) :
    t.Walked seen (id :: stack) kept where
  keepsSeen := h.keepsSeen
  keepsStack q hq := by
    rcases List.mem_cons.1 hq with rfl | hq
    · exact h.keepsSeen q hid
    · exact h.keepsStack q hq
  inside := h.inside
  closed := h.closed
  least Q hQ hseen hstack := h.least Q hQ hseen fun q hq => hstack q (List.mem_cons_of_mem _ hq)

/-- What is kept once a node has been seen is kept from the stack with that node. -/
theorem Walked.visit (h : t.Walked (id :: seen) (t.parentList id ++ stack) kept) :
    t.Walked seen (id :: stack) kept where
  keepsSeen q hq := h.keepsSeen q (List.mem_cons_of_mem _ hq)
  keepsStack q hq := by
    rcases List.mem_cons.1 hq with rfl | hq
    · exact h.keepsSeen q (by simp)
    · exact h.keepsStack q (List.mem_append_right _ hq)
  inside := h.inside
  closed := h.closed
  least Q hQ hseen hstack := by
    have hid : Q id := hstack id (by simp)
    refine h.least Q hQ ?_ ?_
    · intro q hq
      rcases List.mem_cons.1 hq with rfl | hq
      · exact hid
      · exact hseen q hq
    · intro q hq
      rcases List.mem_append.1 hq with hq | hq
      · exact hQ id hid q hq
      · exact hstack q (List.mem_cons_of_mem _ hq)

/-! ## The walk -/

/-- A walk over a linked table succeeds. -/
theorem exists_collectAncestry (ht : t.Linked) (h : t.Frontier seen stack) :
    ∃ kept, (t.collectAncestry seen stack : Outcome ε (List NodeId)) = .ok kept ∧
      t.Walked seen stack kept := by
  fun_induction collectAncestry (ε := ε) t seen stack with
  | case1 seen =>
    refine ⟨seen, rfl, fun _ hid => hid, by simp, h.seenInside, ?_, fun Q _ hseen _ => hseen⟩
    intro id hid p hp
    rcases h.parents id hid p hp with hp | hp
    · exact hp
    · simp at hp
  | case2 seen id stack hknown ih =>
    have hid : id ∈ seen := by simpa using hknown
    obtain ⟨kept, hrun, hkept⟩ := ih (h.skip hid)
    exact ⟨kept, hrun, hkept.skip hid⟩
  | case3 seen id stack hknown hinside fault hfault =>
    rw [ht.parents_eq (h.stackInside id (by simp))] at hfault
    cases hfault
  | case4 seen id stack hknown hinside parents hread ih =>
    rw [ht.parents_eq (h.stackInside id (by simp)), Outcome.ok_eq_iff] at hread
    subst hread
    obtain ⟨kept, hrun, hkept⟩ := ih (h.visit ht)
    exact ⟨kept, hrun, hkept.visit⟩
  | case5 seen id stack hknown hinside =>
    obtain ⟨span, hspan, _⟩ := ht.spans id (h.stackInside id (by simp))
    exact absurd (Array.getElem?_eq_some_iff.1 hspan).1 hinside

/-- The ancestry of nodes of a linked table is the least closed list that holds them. -/
theorem Linked.exists_ancestry (ht : t.Linked) {start : List NodeId}
    (hstart : ∀ p ∈ start, p < t.size) :
    ∃ kept, (t.ancestry start : Outcome ε (List NodeId)) = .ok kept ∧ t.Walked [] start kept :=
  exists_collectAncestry ht ⟨by simp, hstart, by simp⟩

theorem exists_ancestry (ht : t.WellFormed) {start : List NodeId}
    (hstart : ∀ p ∈ start, p < t.size) :
    ∃ kept, (t.ancestry start : Outcome ε (List NodeId)) = .ok kept ∧ t.Walked [] start kept :=
  ht.linked.exists_ancestry hstart

/-! ## What is kept -/

/-- A node needs itself, its parents, their parents and so on. -/
def Needs (t : NodeTable α) : NodeId → NodeId → Prop :=
  Relation.ReflTransGen fun id p => p ∈ t.parentList id

/-- Exactly what the nodes at the start need is kept. -/
theorem Walked.mem_iff {start : List NodeId} (h : t.Walked [] start kept) {id : NodeId} :
    id ∈ kept ↔ ∃ root ∈ start, t.Needs root id := by
  constructor
  · refine h.least (fun id => ∃ root ∈ start, t.Needs root id) ?_ (by simp) ?_ id
    · rintro id ⟨root, hroot, hneeds⟩ p hp
      exact ⟨root, hroot, hneeds.tail hp⟩
    · intro root hroot
      exact ⟨root, hroot, .refl⟩
  · rintro ⟨root, hroot, hneeds⟩
    induction hneeds with
    | refl => exact h.keepsStack root hroot
    | tail _ hp ih => exact h.closed _ ih _ hp

/-- A list that holds the nodes with a property, each once, is as long as there are such nodes. -/
theorem length_eq_encard {P : NodeId → Prop} {nodes : List NodeId} (hnodup : nodes.Nodup)
    (hmem : ∀ id, id ∈ nodes ↔ P id) : (nodes.length : ℕ∞) = {id | P id}.encard := by
  have hset : {id | P id} = ↑nodes.toFinset := Set.ext fun id => by simp [hmem id]
  rw [hset, Set.encard_coe_eq_coe_finsetCard, List.toFinset_card_of_nodup hnodup]

/-- A walk that has seen each node once keeps each node once. -/
theorem nodup_collectAncestry (hseen : seen.Nodup)
    (hrun : (t.collectAncestry seen stack : Outcome ε (List NodeId)) = .ok kept) :
    kept.Nodup := by
  fun_induction collectAncestry (ε := ε) t seen stack with
  | case1 seen => exact Outcome.ok_eq_iff.1 hrun ▸ hseen
  | case2 seen id stack hknown ih => exact ih hseen hrun
  | case3 seen id stack hknown hinside fault hfault => cases hrun
  | case4 seen id stack hknown hinside parents hread ih =>
    have hnew : id ∉ seen := by simpa using hknown
    exact ih (List.nodup_cons.2 ⟨hnew, hseen⟩) hrun
  | case5 seen id stack hknown hinside => cases hrun

end FeatureGraph.NodeTable
