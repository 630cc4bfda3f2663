import FeatureGraph.Graph.Error
import FeatureGraph.Proofs.Ancestry
import FeatureGraph.Proofs.Sorting

/-!
# Ancestry is a closure

Over a linked table, with cycles or without, the ancestry of some nodes is everything that they
need.  The walk puts a node on its stack once for each child that it comes from, so the same node
may stand there many times; it is kept once.

* `Collects` is what the walk answers, and the lemmas after it are those of a closure: it holds the
  start, it is the least that is closed under parents, and it grows with the start.
* `lt_of_collectAncestry_eq_ok` says that a walk with an answer has looked at all of its stack, so a
  start without a span cannot go unnoticed.
* `Linked.ancestry_is_closure` is the statement about all starts.
-/

namespace FeatureGraph.NodeTable

variable {ε α : Type} {t : NodeTable α} {start part rest seen stack kept kept' : List NodeId}

open Outcome (Unrefused meets_error unrefused_ok unrefused_outOfRange)

/-! ## What is collected -/

/-- A list of everything that some nodes need, each node once. -/
structure Collects (t : NodeTable α) (start kept : List NodeId) : Prop where
  nodup : kept.Nodup
  mem : ∀ id, id ∈ kept ↔ ∃ root ∈ start, t.Needs root id

theorem Linked.exists_collects (ht : t.Linked) (hstart : ∀ id ∈ start, id < t.size) :
    ∃ kept, (t.ancestry start : Outcome ε (List NodeId)) = .ok kept ∧ t.Collects start kept := by
  obtain ⟨kept, hrun, hwalked⟩ := ht.exists_ancestry (ε := ε) hstart
  exact ⟨kept, hrun, nodup_collectAncestry .nil hrun, fun _ => hwalked.mem_iff⟩

namespace Collects

variable (h : t.Collects start kept)

include h

theorem start_subset : start ⊆ kept :=
  fun id hid => (h.mem id).2 ⟨id, hid, .refl⟩

theorem parentClosed : t.ParentClosed (· ∈ kept) := by
  intro id hid p hp
  obtain ⟨root, hroot, hneeds⟩ := (h.mem id).1 hid
  exact (h.mem p).2 ⟨root, hroot, hneeds.tail hp⟩

/-- Whatever holds the start and is closed under parents holds everything that is collected. -/
theorem least {Q : NodeId → Prop} (hQ : t.ParentClosed Q) (hstart : ∀ id ∈ start, Q id) :
    ∀ id ∈ kept, Q id := by
  intro id hid
  obtain ⟨root, hroot, hneeds⟩ := (h.mem id).1 hid
  induction hneeds with
  | refl => exact hstart root hroot
  | @tail child p hchild hp ih => exact hQ child (ih ((h.mem child).2 ⟨root, hroot, hchild⟩)) p hp

theorem mono (h' : t.Collects part kept') (hpart : part ⊆ start) : kept' ⊆ kept := by
  intro id hid
  obtain ⟨root, hroot, hneeds⟩ := (h'.mem id).1 hid
  exact (h.mem id).2 ⟨root, hpart hroot, hneeds⟩

/-- From a start with two parts, what the parts need is collected. -/
theorem union {kept₁ kept₂ : List NodeId} (h₁ : t.Collects part kept₁)
    (h₂ : t.Collects rest kept₂) (hstart : ∀ id, id ∈ start ↔ id ∈ part ∨ id ∈ rest) (id : NodeId) :
    id ∈ kept ↔ id ∈ kept₁ ∨ id ∈ kept₂ := by
  rw [h.mem, h₁.mem, h₂.mem]
  simp only [hstart, or_and_right, exists_or]

end Collects

/-! ## Starts that are not there -/

/-- A walk with an answer has found a span for each node of its stack. -/
theorem lt_of_collectAncestry_eq_ok
    (hrun : (t.collectAncestry seen stack : Outcome ε (List NodeId)) = .ok kept) :
    ∀ id ∈ stack, id ∈ seen ∨ id < t.parentSpans.size := by
  fun_induction collectAncestry (ε := ε) t seen stack with
  | case1 seen => simp
  | case2 seen id stack hknown ih =>
    intro i hi
    rcases List.mem_cons.1 hi with rfl | hi
    · exact .inl (by simpa using hknown)
    · exact ih hrun i hi
  | case3 seen id stack hknown hinside fault hfault => cases hrun
  | case4 seen id stack hknown hinside parents hread ih =>
    intro i hi
    rcases List.mem_cons.1 hi with rfl | hi
    · exact .inr hinside
    · rcases ih hrun i (List.mem_append_right _ hi) with hmem | hlt
      · rcases List.mem_cons.1 hmem with rfl | hmem
        · exact .inr hinside
        · exact .inl hmem
      · exact .inr hlt
  | case5 seen id stack hknown hinside => cases hrun

theorem unrefused_collectAncestry (t : NodeTable α) (seen stack : List NodeId) :
    Unrefused (t.collectAncestry seen stack : Outcome ε (List NodeId)) := by
  fun_induction collectAncestry (ε := ε) t seen stack with
  | case1 seen => exact unrefused_ok _
  | case2 seen id stack hknown ih => exact ih
  | case3 seen id stack hknown hinside fault hfault =>
    exact meets_error ((unrefused_parents t id).error fault hfault)
  | case4 seen id stack hknown hinside parents hread ih => exact ih
  | case5 seen id stack hknown hinside => exact unrefused_outOfRange

/-! ## All starts -/

/-- The ancestry of nodes of a linked table is a list of the nodes that they need, each once: the
least list that holds them and is closed under parents.  A part of the start needs a part of it,
and what a start of two parts needs is what one of the parts needs, whatever stands in the start
more than once and in which order.  A start without a span is not passed over. -/
theorem Linked.ancestry_is_closure (ht : t.Linked) :
    (∀ start : List NodeId, (∀ id ∈ start, id < t.size) →
      ∃ kept, (t.ancestry start : Outcome ε (List NodeId)) = .ok kept ∧ kept.Nodup ∧
        (∀ id, id ∈ kept ↔ ∃ root ∈ start, t.Needs root id) ∧
        (start ⊆ kept ∧ t.ParentClosed (· ∈ kept) ∧
          ∀ Q, t.ParentClosed Q → (∀ id ∈ start, Q id) → ∀ id ∈ kept, Q id) ∧
        (∀ part, part ⊆ start → ∃ kept',
          (t.ancestry part : Outcome ε (List NodeId)) = .ok kept' ∧ kept' ⊆ kept) ∧
        ∀ part rest, (∀ id, id ∈ start ↔ id ∈ part ∨ id ∈ rest) → ∃ kept₁ kept₂,
          (t.ancestry part : Outcome ε (List NodeId)) = .ok kept₁ ∧
          (t.ancestry rest : Outcome ε (List NodeId)) = .ok kept₂ ∧
          ∀ id, id ∈ kept ↔ id ∈ kept₁ ∨ id ∈ kept₂) ∧
    ∀ start : List NodeId, (∃ id ∈ start, t.parentSpans.size ≤ id) →
      (t.ancestry start : Outcome ε (List NodeId)) = .error .outOfRange := by
  constructor
  · intro start hstart
    have hcollects : ∀ part, part ⊆ start → ∃ kept,
        (t.ancestry part : Outcome ε (List NodeId)) = .ok kept ∧ t.Collects part kept :=
      fun part hpart => ht.exists_collects fun id hid => hstart id (hpart hid)
    obtain ⟨kept, hrun, h⟩ := hcollects start (List.Subset.refl start)
    refine ⟨kept, hrun, h.nodup, h.mem, ⟨h.start_subset, h.parentClosed, fun Q => h.least⟩, ?_, ?_⟩
    · intro part hpart
      obtain ⟨kept', hrun', h'⟩ := hcollects part hpart
      exact ⟨kept', hrun', h.mono h' hpart⟩
    · intro part rest hparts
      obtain ⟨kept₁, hrun₁, h₁⟩ := hcollects part fun id hid => (hparts id).2 (.inl hid)
      obtain ⟨kept₂, hrun₂, h₂⟩ := hcollects rest fun id hid => (hparts id).2 (.inr hid)
      exact ⟨kept₁, kept₂, hrun₁, hrun₂, h.union h₁ h₂ hparts⟩
  · rintro start ⟨id, hid, hout⟩
    cases hrun : (t.ancestry start : Outcome ε (List NodeId)) with
    | ok kept =>
      have hlooked := lt_of_collectAncestry_eq_ok hrun id hid
      simp only [List.not_mem_nil, false_or] at hlooked
      exact absurd hlooked (Nat.not_lt.2 hout)
    | error fault => rw [(unrefused_collectAncestry t [] start).error fault hrun]

/-- Two nodes that read from each other, one that reads from both, and two more that nothing of this
needs. -/
def sharedRingNodes : List Request :=
  [⟨.linear, [1, 1], "left"⟩, ⟨.linear, [0], "right"⟩, ⟨.mult, [0, 1], "product"⟩,
    ⟨.exp, [2], "exp"⟩, ⟨.input 0, [], "x"⟩]

/-- From the product, twice on the stack, one gets around the ring and no further. -/
theorem ancestry_is_closure_sharedRing : (ofNodes sharedRingNodes : NodeTable Float).Linked ∧
    (∃ kept, ((ofNodes sharedRingNodes : NodeTable Float).ancestry [2, 1, 2] :
        Outcome GraphError (List NodeId)) = .ok kept ∧ kept.Nodup ∧
      ∀ id, id ∈ kept ↔ id < 3) ∧
    ((ofNodes sharedRingNodes : NodeTable Float).ancestry [2, 5] :
      Outcome GraphError (List NodeId)) = .error .outOfRange := by
  have hlinked : (ofNodes sharedRingNodes : NodeTable Float).Linked :=
    linked_ofNodes_iff.2 (by decide)
  have hsize : (ofNodes sharedRingNodes : NodeTable Float).size = 5 := size_ofNodes _
  have hspans : (ofNodes sharedRingNodes : NodeTable Float).parentSpans.size = 5 :=
    (spanned_ofNodes _).spans.trans hsize
  have hinside : ∀ id ∈ [2, 1, 2], id < (ofNodes sharedRingNodes : NodeTable Float).size := by
    rw [hsize]
    decide
  obtain ⟨hclosure, hunknown⟩ := hlinked.ancestry_is_closure (ε := GraphError)
  obtain ⟨kept, hrun, hnodup, _, ⟨hstart, hclosed, hleast⟩, _⟩ := hclosure [2, 1, 2] hinside
  refine ⟨hlinked, ⟨kept, hrun, hnodup, fun id => ⟨?_, fun hid => ?_⟩⟩,
    hunknown [2, 5] ⟨5, by simp, hspans.le⟩⟩
  · have hring : ∀ id < 3, ∀ p ∈ (sharedRingNodes[id]?.map (·.parents)).getD [], p < 3 := by decide
    refine hleast (· < 3) (fun id hid p hp => ?_) (by decide) id
    rw [parentList_ofNodes] at hp
    exact hring id hid p hp
  · have hone : 1 ∈ kept := hstart (by simp)
    have hzero : 0 ∈ kept := hclosed 1 hone 0 (by rw [parentList_ofNodes]; decide)
    have htwo : 2 ∈ kept := hstart (by simp)
    interval_cases id
    · exact hzero
    · exact hone
    · exact htwo

end FeatureGraph.NodeTable
