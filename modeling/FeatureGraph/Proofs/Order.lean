import FeatureGraph.Proofs.Table
import FeatureGraph.Graph.Order

/-!
# The order of a sound table

In a sound table every parent has a smaller number than its child, so the sort finds
the parents of each node finished when it comes to the node, and lists the nodes in
the order of their numbers.  `sort_eq` is that statement.  `visited` is the state of
the sort after a number of nodes.
-/

namespace FeatureGraph.NodeTable

variable {α : Type} {t : NodeTable α}

/-- The marks and the order when the first `k` of `n` nodes are finished and the others
have not been met. -/
def visited (n k : Nat) : Visit where
  marks := Array.ofFn fun i : Fin n => if i.val < k then .finished else .fresh
  order := Array.range k

theorem visited_zero (n : Nat) : visited n 0 = ⟨Array.replicate n .fresh, #[]⟩ := by
  simp [visited, Array.ext_iff]

theorem marks_visited {n k i : Nat} (hi : i < n) :
    (visited n k).marks[i]? = some (if i < k then .finished else .fresh) := by
  simp [visited, hi]

/-- A finished node is passed over. -/
theorem visit_finished {depth : Nat} {id : NodeId} {v : Visit}
    (hid : v.marks[id]? = some .finished) : t.visit (depth + 1) id v = .ok v := by
  rw [visit, hid]

/-- The visit of the next node finds its parents finished. -/
theorem visit_next (ht : t.Sound) {k : Nat} (hk : k < t.size) :
    t.visit (t.size + 1) k (visited t.size k) = .ok (visited t.size (k + 1)) := by
  have hfresh : (visited t.size k).marks[k]? = some .fresh := by
    rw [marks_visited hk, if_neg (Nat.lt_irrefl k)]
  have hparents : (t.parentList k).foldlM (fun v p => t.visit t.size p v)
      ((visited t.size k).enter k) = .ok ((visited t.size k).enter k) := by
    refine Outcome.foldlM_eq_ok (fun _ => (visited t.size k).enter k) fun i hi => ?_
    have hlt : (t.parentList k)[i] < k := ht.earlier k _ (List.getElem_mem hi)
    have hmark : ((visited t.size k).enter k).marks[(t.parentList k)[i]]? = some .finished := by
      rw [Visit.enter, Array.getElem?_setIfInBounds_ne (Nat.ne_of_gt hlt),
        marks_visited (Nat.lt_trans hlt hk), if_pos hlt]
    obtain ⟨depth, hdepth⟩ : ∃ depth, t.size = depth + 1 := ⟨t.size - 1, by omega⟩
    have hvisit : t.visit (depth + 1) (t.parentList k)[i] ((visited t.size k).enter k) =
        .ok ((visited t.size k).enter k) := visit_finished hmark
    rwa [← hdepth] at hvisit
  have hfinish : ((visited t.size k).enter k).finish k = visited t.size (k + 1) := by
    simp only [Visit.enter, Visit.finish, visited, Visit.mk.injEq]
    constructor
    · refine Array.ext_getElem? fun i => ?_
      simp only [Array.getElem?_setIfInBounds, Array.getElem?_ofFn, Array.size_setIfInBounds,
        Array.size_ofFn]
      by_cases hi : k = i
      · subst hi
        simp [hk]
      · have hiff : i < k + 1 ↔ i < k := by omega
        simp only [hi, hiff, if_false]
    · simp [Array.range_succ]
  rw [visit, hfresh]
  simp only [ht.parents_eq hk, Outcome.ok_bind, hparents, Outcome.pure_eq_ok, hfinish]

/-- A sound table is sorted already. -/
theorem sort_eq (ht : t.Sound) : t.sort = .ok (List.range t.size) := by
  have hrun : (List.range t.size).foldlM (fun v id => t.visit (t.size + 1) id v)
      (visited t.size 0) = .ok (visited t.size (List.range t.size).length) := by
    refine Outcome.foldlM_eq_ok (visited t.size) fun i hi => ?_
    rw [List.getElem_range]
    exact visit_next ht (by simpa using hi)
  rw [sort, ← visited_zero, hrun, List.length_range, Outcome.ok_bind]
  simp [visited]

end FeatureGraph.NodeTable
