import FeatureGraph.Proofs.WellKept

/-!
# The two evaluators of a forest

The evaluator of one feature walks along the edges to the features that it is built from, puts them
in order and computes their columns alone.

* `of_mem_explore` and `exists_explore_ancestors` say what the walk visits: the feature and its
  ancestors, each of them once.  `closure_eq_of_visits` says that their order does not matter.
* `evaluateAt_agrees_with_evaluate` compares the evaluators on every forest that calls lead to.
-/

namespace FeatureGraph.ForestStore

variable {α : Type}

/-! ## Ancestors -/

/-- Edges lead from one position to another, directly or through others, or they are the same. -/
def Reaches (s : ForestStore α) (p i : Nat) : Prop :=
  Relation.ReflTransGen (fun p q => (p, q) ∈ s.edges) p i

/-- The positions from which edges lead to `i`, each of them once. -/
structure Visits (s : ForestStore α) (i : Nat) (visited : List Nat) : Prop where
  nodup : visited.Nodup
  mem_iff : ∀ p, p ∈ visited ↔ s.Reaches p i

theorem mem_sources_iff {s : ForestStore α} {p i : Nat} :
    p ∈ s.sources i ↔ (p, i) ∈ s.edges := by
  simp [sources]

/-- A walk stays where it has begun, if the edges do not lead out of there. -/
theorem of_mem_explore {s : ForestStore α} (kept : Nat → Prop) {seen stack found : List Nat}
    (hedge : ∀ p i, (p, i) ∈ s.edges → kept i → kept p) (hseen : ∀ i ∈ seen, kept i)
    (hstack : ∀ i ∈ stack, kept i) (hrun : s.explore seen stack = .ok found) :
    ∀ i ∈ found, kept i := by
  fun_induction explore s seen stack with
  | case1 seen => exact Except.ok.inj hrun ▸ hseen
  | case2 seen i stack _ ih =>
    exact ih hseen (fun q hq => hstack q (List.mem_cons_of_mem _ hq)) hrun
  | case3 seen i stack _ _ ih =>
    have hi : kept i := hstack i (by simp)
    refine ih (List.forall_mem_cons.2 ⟨hi, hseen⟩) (fun p hp => ?_) hrun
    rcases List.mem_append.1 hp with hp | hp
    · exact hedge p i (mem_sources_iff.1 (List.mem_filter.1 hp).1) hi
    · exact hstack p (List.mem_cons_of_mem _ hp)
  | case4 => cases hrun

/-- The walk from a feature visits its ancestors. -/
theorem exists_explore_ancestors {f : Forest α} (hf : f.Sound) {i : Nat} (hi : i < f.size) :
    ∃ visited, f.stored.explore [] [i] = .ok visited ∧ f.stored.Visits i visited := by
  have hstart : Frontier f [] [i] := ⟨by simp, by simp, by simpa using hi, by simp⟩
  obtain ⟨found, hrun, hfound, hmem⟩ := exists_explore hf hstart
  refine ⟨found, hrun, hfound.nodup, fun p => ⟨fun hp => ?_, fun hp => ?_⟩⟩
  · refine of_mem_explore (f.stored.Reaches · i) (fun p q hpq hq => ?_) (by simp)
      (fun q hq => ?_) hrun p hp
    · exact Relation.ReflTransGen.head hpq hq
    · exact List.mem_singleton.1 hq ▸ Relation.ReflTransGen.refl
  · induction hp using Relation.ReflTransGen.head_induction_on with
    | refl => exact hmem i (by simp)
    | head hpq _ ih =>
      have hparent := hfound.parents _ ih _ (Forest.mem_edges.1 hpq)
      simpa using hparent

/-- The order in which a walk comes to the ancestors does not matter. -/
theorem closure_eq_of_visits {f : Forest α} (hf : f.Sound) {i : Nat} (hi : i < f.size)
    {visited : List Nat} (hvisited : f.stored.Visits i visited) :
    f.stored.closure i = .ok visited.mergeSort := by
  obtain ⟨found, hrun, hfound⟩ := exists_explore_ancestors hf hi
  have hperm : found.Perm visited := (List.perm_ext_iff_of_nodup hfound.nodup hvisited.nodup).2
    fun p => (hfound.mem_iff p).trans (hvisited.mem_iff p).symm
  have hsorted : ∀ l : List Nat, l.mergeSort.Pairwise (· ≤ ·) := List.pairwise_mergeSort' (· ≤ ·)
  have hsame : found.mergeSort = visited.mergeSort := by
    have hmerged : found.mergeSort.Perm visited.mergeSort :=
      ((List.mergeSort_perm found _).trans hperm).trans (List.mergeSort_perm visited _).symm
    exact hmerged.eq_of_pairwise (fun _ _ _ _ => Nat.le_antisymm) (hsorted found) (hsorted visited)
  rw [closure, hrun, ← hsame]
  rfl

/-! ## Agreement -/

variable [Arith α]

/-- Whatever calls have led to a forest, the column of one feature is found if and only if the
feature is there and all columns are, and then it is one of them.  For a feature that is there, the
evaluators also fail alike.  The walk to its ancestors visits each of them once and nothing else,
and any other way to visit them leads to the same closure. -/
theorem evaluateAt_agrees_with_evaluate (calls : List (ForestCall α)) (i : Nat) (x : Matrix α) :
    let s : ForestStore α := empty.afterCalls calls
    ((∃ v, s.evaluateAt i x = .ok v) ↔ i < s.size ∧ ∃ vs, s.evaluate x = .ok vs) ∧
      (∀ v, s.evaluateAt i x = .ok v → ∃ vs, s.evaluate x = .ok vs ∧ vs[i]? = some v) ∧
      (i < s.size →
        (∀ fault, s.evaluateAt i x = .error fault ↔ s.evaluate x = .error fault) ∧
        (∃ visited, s.explore [] [i] = .ok visited ∧ s.Visits i visited) ∧
        ∀ visited, s.Visits i visited → s.closure i = .ok visited.mergeSort) := by
  obtain ⟨f, hf, hcalls⟩ := Forest.Built.empty.exists_afterCalls calls
  have hempty : (empty : ForestStore α) = Forest.empty.stored := rfl
  rw [hempty, hcalls]
  intro s
  have hone : s.evaluateAt i x = _ := evaluateAtBy_stored hf.sound _ _ i
  have hall : s.evaluate x = _ := evaluateBy_stored hf.sound _ _
  have hsize : s.size = f.size := rfl
  rw [hone, hall, hsize]
  by_cases hi : f.size ≤ i
  · simp [hi, Nat.not_lt.2 hi, Outcome.fail]
  · have hinside : i < f.size := Nat.not_le.1 hi
    have hwalk := exists_explore_ancestors hf.sound hinside
    have horder := fun visited (hvisited : s.Visits i visited) =>
      closure_eq_of_visits hf.sound hinside hvisited
    rw [if_neg hi]
    by_cases hx : x.nCols < f.rootCount
    · rw [if_pos hx, if_pos hx]
      refine ⟨?_, ?_, fun _ => ⟨?_, hwalk, horder⟩⟩ <;> simp [Outcome.fail]
    · have hcolumn : (f.columnsOf x)[i]? = some (f.columnAt x i) := by
        simp [Forest.columnsOf, hinside]
      rw [if_neg hx, if_neg hx]
      refine ⟨?_, ?_, fun _ => ⟨?_, hwalk, horder⟩⟩ <;> simp [hinside, hcolumn]

end FeatureGraph.ForestStore
