import FeatureGraph.Arith.Double
import FeatureGraph.Proofs.Store

/-!
# What stored forests keep

`ForestStore.afterCalls_wellKept` says of every stored forest, whatever calls have led to it, that
its structures agree, that a call fails exactly where it should and then changes nothing, that other
calls do what they are for, and that its evaluators never fall back on anything.

* `columnOr_stored` compares the rule of a store with that of its features: no fallback is used.
  `evaluateBy_stored` is the evaluator of all features.
* `Frontier` is the invariant of the walk along the edges, and `exists_closure` says what is found.
  `evaluateAtBy_stored` is the evaluator of one feature.
* `ForestStore.WellKept` puts together what holds of a store.
-/

namespace FeatureGraph

variable {α : Type}

/-! ## All columns -/

section Columns

variable [Arith α] {f : Forest α} {x : Matrix α} {i : Nat}

/-- The rule of a store is that of its features, whatever there is to fall back on. -/
theorem columnOr_stored (hf : f.Sound) {feature : Feature α} (hi : f.get? i = some feature)
    (fallback : Outcome ForestError Nat) (values : Outcome ForestError (List α))
    (lookup : Nat → Outcome ForestError (List α)) :
    f.stored.columnOr x fallback values lookup i feature = f.column x lookup i feature := by
  unfold ForestStore.columnOr Forest.column
  cases hroot : feature.isRoot with
  | true =>
    have hcolumn := Forest.rootColumn?_eq_some.2 ⟨feature, hi, hroot, rfl⟩
    simp only [if_true, Forest.rootColumn?_stored, hcolumn, Outcome.ok_bind, Option.getD_some]
  | false =>
    obtain ⟨hop, harity⟩ := hf.operator i feature hi hroot
    rcases Operator.exists_args hop harity with ⟨p, hps⟩ | ⟨p, q, hps⟩
    · simp only [hps, Bool.false_eq_true, if_false]
    · simp only [hps, Bool.false_eq_true, if_false]

/-- The evaluator of all features asks for a column for each root, and for nothing else. -/
theorem evaluateBy_stored (hf : f.Sound) (fallback : Outcome ForestError Nat)
    (values : Outcome ForestError (List α)) :
    f.stored.evaluateBy (f.stored.columnOr x fallback values) x =
      if x.nCols < f.rootCount then Outcome.fail (.columnMismatch f.rootCount x.nCols)
      else .ok (f.columnsOf x) := by
  have hsteps : f.stored.evaluateBy (f.stored.columnOr x fallback values) x = f.evaluate x := by
    have hcheck : f.stored.checkColumns x = f.checkColumns x := by
      rw [ForestStore.checkColumns, Forest.rootCount_stored, Forest.checkColumns]
    rw [ForestStore.evaluateBy, hcheck, Forest.evaluate]
    have hrun : f.entries.foldlM (fun columns e => do
        return columns.push (← f.stored.columnOr x fallback values (Outcome.fetch columns) e.1 e.2))
          #[] = f.entries.foldlM (f.pushColumn x) #[] := by
      refine Outcome.foldlM_congr (fun e he columns => ?_) _
      rw [columnOr_stored hf (Forest.mem_entries.1 he), Forest.pushColumn]
    exact congrArg _ (funext fun _ => congrArg (· >>= _) hrun)
  rw [hsteps]
  by_cases hx : x.nCols < f.rootCount
  · rw [if_pos hx, Forest.evaluate, Forest.checkColumns, if_pos hx]
    rfl
  · rw [if_neg hx]
    exact (Forest.evaluate_eq_ok_iff hf).2 ⟨Nat.not_lt.1 hx, rfl⟩

end Columns

/-! ## The column of one feature -/

namespace ForestStore

variable {f : Forest α} {seen stack : List Nat} {i : Nat}

/-- Where a walk along the edges stands: whatever has been seen has its parents among what has been
seen or is on the stack. -/
structure Frontier (f : Forest α) (seen stack : List Nat) : Prop where
  nodup : seen.Nodup
  seenInside : ∀ i ∈ seen, i < f.size
  stackInside : ∀ i ∈ stack, i < f.size
  parents : ∀ i ∈ seen, ∀ p ∈ f.parents i, p ∈ seen ∨ p ∈ stack

/-- A position that has been seen before is taken off the stack. -/
theorem Frontier.skip (h : Frontier f seen (i :: stack)) (hi : i ∈ seen) :
    Frontier f seen stack where
  nodup := h.nodup
  seenInside := h.seenInside
  stackInside q hq := h.stackInside q (List.mem_cons_of_mem _ hq)
  parents q hq p hp := (seen_or_cons_iff_of_mem hi).1 (h.parents q hq p hp)

/-- The parents of a position that is seen for the first time are put on the stack. -/
theorem Frontier.visit (h : Frontier f seen (i :: stack)) (hf : f.Sound) (hi : i ∉ seen) :
    Frontier f (i :: seen)
      ((f.stored.sources i).filter (fun p => !(i :: seen).contains p) ++ stack) where
  nodup := List.nodup_cons.2 ⟨hi, h.nodup⟩
  seenInside q hq := by
    rcases List.mem_cons.1 hq with rfl | hq
    · exact h.stackInside q (by simp)
    · exact h.seenInside q hq
  stackInside p hp := by
    rcases List.mem_append.1 hp with hp | hp
    · have hparent := Forest.mem_sources.1 (List.mem_filter.1 hp).1
      exact Nat.lt_trans (hf.lt_of_mem_parents hparent) (h.stackInside i (by simp))
    · exact h.stackInside p (List.mem_cons_of_mem _ hp)
  parents q hq p hp := by
    rcases List.mem_cons.1 hq with rfl | hq
    · by_cases hseen : p ∈ q :: seen
      · exact .inl hseen
      · refine .inr (List.mem_append_left _ (List.mem_filter.2 ⟨Forest.mem_sources.2 hp, ?_⟩))
        simpa using hseen
    · exact (seen_or_cons_iff.1 (h.parents q hq p hp)).imp_right (List.mem_append_right _)

/-- A walk along the edges finds what it has begun with, and with each position its parents. -/
theorem exists_explore (hf : f.Sound) (h : Frontier f seen stack) :
    ∃ found, f.stored.explore seen stack = .ok found ∧ Frontier f found [] ∧
      ∀ q, q ∈ seen ∨ q ∈ stack → q ∈ found := by
  fun_induction explore f.stored seen stack with
  | case1 seen => exact ⟨seen, rfl, h, by simp⟩
  | case2 seen i stack hknown ih =>
    have hi : i ∈ seen := by simpa using hknown
    obtain ⟨found, hrun, hfound, hmem⟩ := ih (h.skip hi)
    exact ⟨found, hrun, hfound, fun q hq => hmem q ((seen_or_cons_iff_of_mem hi).1 hq)⟩
  | case3 seen i stack hknown hinside ih =>
    have hi : i ∉ seen := by simpa using hknown
    obtain ⟨found, hrun, hfound, hmem⟩ := ih (h.visit hf hi)
    exact ⟨found, hrun, hfound, fun q hq =>
      hmem q ((seen_or_cons_iff.1 hq).imp_right (List.mem_append_right _))⟩
  | case4 seen i stack hknown hinside => exact absurd (h.stackInside i (by simp)) hinside

/-- The closure of a position holds it and with each position its parents, in ascending order. -/
theorem exists_closure (hf : f.Sound) (hi : i < f.size) :
    ∃ l, f.stored.closure i = .ok l ∧ l.Pairwise (· < ·) ∧ (∀ q ∈ l, q < f.size) ∧ i ∈ l ∧
      ∀ q ∈ l, ∀ p ∈ f.parents q, p ∈ l := by
  have hstart : Frontier f [] [i] := ⟨by simp, by simp, by simpa using hi, by simp⟩
  obtain ⟨found, hrun, hfound, hmem⟩ := exists_explore hf hstart
  have hsorted : found.mergeSort.Pairwise (· < ·) := by
    have hle : found.mergeSort.Pairwise (· ≤ ·) := List.pairwise_mergeSort' (· ≤ ·) found
    have hne : found.mergeSort.Nodup := (List.mergeSort_perm found _).nodup_iff.2 hfound.nodup
    exact (hle.and hne).imp fun h => Nat.lt_of_le_of_ne h.1 h.2
  have hclosure : f.stored.closure i = .ok found.mergeSort := by
    rw [closure, hrun]
    rfl
  refine ⟨found.mergeSort, hclosure, hsorted, fun q hq => ?_, ?_, fun q hq p hp => ?_⟩
  · exact hfound.seenInside q (List.mem_mergeSort.1 hq)
  · exact List.mem_mergeSort.2 (hmem i (by simp))
  · have hparent := hfound.parents q (List.mem_mergeSort.1 hq) p hp
    exact List.mem_mergeSort.2 (by simpa using hparent)

end ForestStore

section Columns

variable [Arith α] {f : Forest α} {x : Matrix α} {i : Nat}

/-- The evaluator of one feature asks for the feature and for a column for each root, and for
nothing else. -/
theorem evaluateAtBy_stored (hf : f.Sound) (fallback : Outcome ForestError Nat)
    (values : Outcome ForestError (List α)) (i : Nat) :
    f.stored.evaluateAtBy (f.stored.columnOr x fallback values) i x =
      if f.size ≤ i then Outcome.fail (.unknownIndex i)
      else if x.nCols < f.rootCount then Outcome.fail (.columnMismatch f.rootCount x.nCols)
      else .ok (f.columnAt x i) := by
  rw [ForestStore.evaluateAtBy]
  by_cases hi : f.size ≤ i
  · rw [if_pos hi, if_pos (show f.stored.size ≤ i from hi)]
  · rw [if_neg hi, if_neg (show ¬f.stored.size ≤ i from hi), ForestStore.checkColumns,
      Forest.rootCount_stored]
    by_cases hx : x.nCols < f.rootCount
    · rw [if_pos hx, if_pos hx]
      rfl
    · obtain ⟨l, hclosure, hsorted, hinside, hself, hclosed⟩ :=
        ForestStore.exists_closure hf (Nat.not_le.1 hi)
      have hrun : l.foldlM (f.stored.enterColumn (f.stored.columnOr x fallback values)) [] =
          .ok (l.reverse.map fun j => (j, f.columnAt x j)) := by
        rw [← Forest.foldlM_enterColumn hf (Nat.not_lt.1 hx) hsorted hinside hclosed]
        refine Outcome.foldlM_congr (fun q hq columns => ?_) _
        obtain ⟨feature, hget⟩ : ∃ feature, f.get? q = some feature :=
          ⟨_, Array.getElem?_eq_getElem (hinside q hq)⟩
        have hget' : f.stored.get? q = some feature := hget
        rw [ForestStore.enterColumn, Forest.enterColumn, hget, hget',
          Outcome.ofOption_eq_ok.2 rfl, Outcome.ok_bind, Outcome.ok_bind, columnOr_stored hf hget]
      rw [if_neg hx, if_neg hx, Outcome.ok_bind, hclosure, Outcome.ok_bind, hrun, Outcome.ok_bind,
        Forest.lookup_map_mem _ (List.mem_reverse.2 hself)]

end Columns

/-! ## Expressions and roots -/

namespace Forest

variable {f : Forest α} {i : Nat} {expr : String}

theorem mem_exprs : expr ∈ f.features.toList.map (·.expr) ↔
    ∃ i feature, f.get? i = some feature ∧ feature.expr = expr := by
  rw [List.mem_map]
  constructor
  · rintro ⟨feature, hfeature, rfl⟩
    obtain ⟨i, hi, rfl⟩ := Array.mem_iff_getElem.1 (Array.mem_toList_iff.1 hfeature)
    exact ⟨i, _, Array.getElem?_eq_getElem hi, rfl⟩
  · rintro ⟨i, feature, hget, rfl⟩
    exact ⟨feature, Array.mem_toList_iff.2 (Array.mem_of_getElem? hget), rfl⟩

theorem Sound.eq_of_expr_eq (hf : f.Sound) {j : Nat} {a b : Feature α} (ha : f.get? i = some a)
    (hb : f.get? j = some b) (hexpr : a.expr = b.expr) : i = j := by
  rcases Nat.lt_trichotomy i j with hlt | rfl | hlt
  · exact absurd hexpr (hf.expr_ne hlt ha hb)
  · rfl
  · exact absurd hexpr.symm (hf.expr_ne hlt hb ha)

/-- The index is the inverse of the position. -/
theorem Sound.indexOf?_eq_some (hf : f.Sound) :
    f.indexOf? expr = some i ↔ ∃ feature, f.get? i = some feature ∧ feature.expr = expr := by
  rw [indexOf?, Array.findIdx?_eq_some_iff_getElem]
  constructor
  · rintro ⟨hi, hexpr, _⟩
    exact ⟨f.features[i], Array.getElem?_eq_getElem hi, by simpa using hexpr⟩
  · rintro ⟨feature, hget, rfl⟩
    obtain ⟨hi, rfl⟩ := Array.getElem?_eq_some_iff.1 hget
    refine ⟨hi, by simp, fun j hj heq => ?_⟩
    have hj' : f.get? j = some f.features[j] := Array.getElem?_eq_getElem (Nat.lt_trans hj hi)
    exact Nat.ne_of_lt hj (hf.eq_of_expr_eq hj' hget (by simpa using heq))

/-- The roots read the columns one after the other. -/
theorem map_rootColumn?_roots (f : Forest α) :
    f.roots.map f.rootColumn? = (List.range f.rootCount).map some := by
  refine List.ext_getElem (by simp [length_roots]) fun k hk _ => ?_
  have hlt : k < f.roots.length := by simpa using hk
  rw [List.getElem_map, List.getElem_map, List.getElem_range]
  exact getElem?_roots.1 (List.getElem?_eq_getElem hlt)

theorem rootColumn?_eq_none (hi : i ∉ f.roots) : f.rootColumn? i = none := by
  refine Option.eq_none_iff_forall_not_mem.2 fun k hk => hi ?_
  obtain ⟨feature, hget, hroot, _⟩ := rootColumn?_eq_some.1 hk
  exact mem_roots.2 ⟨feature, hget, hroot⟩

end Forest

/-! ## Well-kept stores -/

namespace ForestStore

variable [Arith α]

/-- The call fails on the stored forest. -/
def Fails (s : ForestStore α) (call : ForestCall α) : Prop :=
  ∃ fault, ((ForestEdit.perform call).on s).1 = .error fault

/-- The call appends a feature and answers its position. -/
def Appends (s : ForestStore α) (call : ForestCall α) (feature : Feature α) : Prop :=
  ((ForestEdit.perform call).on s).1 = .ok (some s.size) ∧
    ((ForestEdit.perform call).on s).2.features = s.features.push feature

/-- What holds of a stored forest, whatever calls have led to it. -/
structure WellKept (s : ForestStore α) : Prop where
  distinct : ∀ i j a b, s.get? i = some a → s.get? j = some b → a.expr = b.expr → i = j
  indexOf? : ∀ expr i, s.indexOf? expr = some i ↔
    ∃ feature, s.get? i = some feature ∧ feature.expr = expr
  operator : ∀ i feature, s.get? i = some feature → feature.isRoot = false →
    feature.op ≠ .identity ∧ feature.parents.length = feature.op.arity ∧
      ∀ p ∈ feature.parents, p < i
  sources : ∀ p i, p ∈ s.sources i ↔ p ∈ s.forest.parents i
  roots : ∀ i, i ∈ s.roots ↔ ∃ feature, s.get? i = some feature ∧ feature.isRoot = true
  ascending : s.roots.Pairwise (· < ·)
  rootColumn? : s.roots.map s.rootColumn? = (List.range s.rootCount).map some
  noColumn : ∀ i, i ∉ s.roots → s.rootColumn? i = none
  addRoot : ∀ expr a b,
    (s.Fails (.addRoot expr a b) ↔ ∃ i feature, s.get? i = some feature ∧ feature.expr = expr) ∧
      (¬s.Fails (.addRoot expr a b) →
        s.Appends (.addRoot expr a b) ⟨expr, .identity, [], true, a, b, 0, 0⟩)
  addNode : ∀ expr op ps,
    (s.Fails (.addNode expr op ps) ↔
      (∃ i feature, s.get? i = some feature ∧ feature.expr = expr) ∨ op = .identity ∨
        ps.length ≠ op.arity ∨ ∃ p ∈ ps, s.size ≤ p) ∧
      (¬s.Fails (.addNode expr op ps) →
        s.Appends (.addNode expr op ps) ⟨expr, op, ps, false, 1, 1, 0, 0⟩)
  setScores : ∀ i quality coverage,
    (s.Fails (.setScores i quality coverage) ↔ s.size ≤ i) ∧
      (¬s.Fails (.setScores i quality coverage) →
        ((ForestEdit.perform (.setScores i quality coverage)).on s).2.features =
          s.features.modify i fun feature => { feature with quality, coverage })
  /-- A call that fails does so for a stated reason, and it changes nothing. -/
  atomic : ∀ call, s.Fails call →
    (∃ reason, ((ForestEdit.perform call).on s).1 = Outcome.fail reason) ∧
      ((ForestEdit.perform call).on s).2 = s
  /-- The evaluator of all features asks for enough columns only, and it does not matter what there
  is to fall back on: not even a failure. -/
  evaluate : ∀ x, (s.evaluate x =
      if x.nCols < s.rootCount then Outcome.fail (.columnMismatch s.rootCount x.nCols)
      else .ok (s.forest.columnsOf x)) ∧
    ∀ fallback values, s.evaluateBy (s.columnOr x fallback values) x = s.evaluate x
  /-- The same holds of the evaluator of one feature, which asks for the feature too. -/
  evaluateAt : ∀ i x, (s.evaluateAt i x =
      if s.size ≤ i then Outcome.fail (.unknownIndex i)
      else if x.nCols < s.rootCount then Outcome.fail (.columnMismatch s.rootCount x.nCols)
      else .ok (s.forest.columnAt x i)) ∧
    ∀ fallback values, s.evaluateAtBy (s.columnOr x fallback values) i x = s.evaluateAt i x

variable {f : Forest α}

theorem fails_stored {call : ForestCall α} :
    f.stored.Fails call ↔ ∃ fault, f.perform call = .error fault := by
  rw [Fails, ForestEdit.on_perform]
  cases f.perform call <;> simp [Forest.committed]

/-- A call fails unless its operation succeeds. -/
theorem fails_map {β : Type} {call : ForestCall α} {outcome : Outcome ForestError β}
    {k : β → Option Nat × Forest α} (hcall : f.perform call = outcome.map k) :
    f.stored.Fails call ↔ ¬∃ b, outcome = .ok b := by
  rw [fails_stored, hcall]
  cases outcome <;> simp [Except.map]

theorem fails_addRoot {expr : String} {a b : α} : f.stored.Fails (.addRoot expr a b) ↔
    ∃ i feature, f.get? i = some feature ∧ feature.expr = expr := by
  rw [fails_map rfl, ← Forest.mem_exprs]
  simp only [Forest.addRoot_eq_ok, exists_and_left, exists_eq, and_true, not_not]

theorem fails_addNode {expr : String} {op : Operator} {ps : List Nat} :
    f.stored.Fails (.addNode expr op ps) ↔
      (∃ i feature, f.get? i = some feature ∧ feature.expr = expr) ∨ op = .identity ∨
        ps.length ≠ op.arity ∨ ∃ p ∈ ps, f.size ≤ p := by
  rw [fails_map rfl, ← Forest.mem_exprs]
  simp only [Forest.addNode_eq_ok, exists_and_left, exists_eq, and_true, not_and_or, not_not,
    not_forall, Nat.not_lt, exists_prop, or_assoc]

theorem fails_setScores {i : Nat} {quality coverage : α} :
    f.stored.Fails (.setScores i quality coverage) ↔ f.size ≤ i := by
  rw [fails_map rfl]
  simp only [Forest.setScores_eq_ok, exists_and_left, exists_eq, and_true, Nat.not_lt]

/-- A call that does not fail has done what its operation does. -/
theorem on_perform_of_not_fails {call : ForestCall α} (h : ¬f.stored.Fails call) :
    ∃ answer f', f.perform call = .ok (answer, f') ∧
      (ForestEdit.perform call).on f.stored = (.ok answer, f'.stored) := by
  rw [fails_stored] at h
  rw [ForestEdit.on_perform]
  cases hrun : f.perform call with
  | error fault => exact absurd ⟨fault, hrun⟩ h
  | ok p => exact ⟨p.1, p.2, rfl, rfl⟩

theorem appends_addRoot {expr : String} {a b : α} (h : ¬f.stored.Fails (.addRoot expr a b)) :
    f.stored.Appends (.addRoot expr a b) ⟨expr, .identity, [], true, a, b, 0, 0⟩ := by
  obtain ⟨answer, f', hrun, hon⟩ := on_perform_of_not_fails h
  obtain ⟨p, hadd, heq⟩ := Outcome.map_eq_ok.1 hrun
  obtain ⟨_, rfl⟩ := Forest.addRoot_eq_ok.1 hadd
  obtain ⟨rfl, rfl⟩ := Prod.mk.inj heq
  rw [Appends, hon]
  exact ⟨rfl, rfl⟩

theorem appends_addNode {expr : String} {op : Operator} {ps : List Nat}
    (h : ¬f.stored.Fails (.addNode expr op ps)) :
    f.stored.Appends (.addNode expr op ps) ⟨expr, op, ps, false, 1, 1, 0, 0⟩ := by
  obtain ⟨answer, f', hrun, hon⟩ := on_perform_of_not_fails h
  obtain ⟨p, hadd, heq⟩ := Outcome.map_eq_ok.1 hrun
  obtain ⟨_, _, _, rfl⟩ := Forest.addNode_eq_ok.1 hadd
  obtain ⟨rfl, rfl⟩ := Prod.mk.inj heq
  rw [Appends, hon]
  exact ⟨rfl, rfl⟩

theorem features_setScores {i : Nat} {quality coverage : α}
    (h : ¬f.stored.Fails (.setScores i quality coverage)) :
    ((ForestEdit.perform (.setScores i quality coverage)).on f.stored).2.features =
      f.features.modify i fun feature => { feature with quality, coverage } := by
  obtain ⟨answer, f', hrun, hon⟩ := on_perform_of_not_fails h
  obtain ⟨f'', hset, heq⟩ := Outcome.map_eq_ok.1 hrun
  obtain ⟨_, rfl⟩ := Forest.setScores_eq_ok.1 hset
  obtain ⟨_, rfl⟩ := Prod.mk.inj heq
  rw [hon]
  rfl

/-- A call that fails changes nothing, and states why. -/
theorem atomic_stored {call : ForestCall α} (h : f.stored.Fails call) :
    (∃ reason, ((ForestEdit.perform call).on f.stored).1 = Outcome.fail reason) ∧
      ((ForestEdit.perform call).on f.stored).2 = f.stored := by
  obtain ⟨fault, hfault⟩ := fails_stored.1 h
  rw [ForestEdit.on_perform, hfault]
  cases fault with
  | failure reason => exact ⟨⟨reason, rfl⟩, rfl⟩
  | outOfRange => exact absurd hfault (f.safe_perform call)

theorem wellKept_stored (hf : f.Sound) : f.stored.WellKept where
  distinct _ _ _ _ ha hb hexpr := hf.eq_of_expr_eq ha hb hexpr
  indexOf? expr i := by
    rw [Forest.indexOf?_stored]
    exact hf.indexOf?_eq_some
  operator i feature hi hroot :=
    have ⟨hop, harity⟩ := hf.operator i feature hi hroot
    ⟨hop, harity, hf.earlier i feature hi⟩
  sources _ _ := Forest.mem_sources
  roots _ := Forest.mem_roots
  ascending := f.pairwise_roots
  rootColumn? := by
    rw [Forest.rootCount_stored, funext f.rootColumn?_stored]
    exact f.map_rootColumn?_roots
  noColumn i hi := (f.rootColumn?_stored i).trans (Forest.rootColumn?_eq_none hi)
  addRoot _ _ _ := ⟨fails_addRoot, appends_addRoot⟩
  addNode _ _ _ := ⟨fails_addNode, appends_addNode⟩
  setScores _ _ _ := ⟨fails_setScores, features_setScores⟩
  atomic _ := atomic_stored
  evaluate x := by
    rw [Forest.rootCount_stored]
    have hevaluate := fun fallback values => evaluateBy_stored (x := x) hf fallback values
    refine ⟨hevaluate _ _, fun fallback values => ?_⟩
    exact (hevaluate fallback values).trans (hevaluate _ _).symm
  evaluateAt i x := by
    rw [Forest.rootCount_stored]
    have hevaluate := fun fallback values => evaluateAtBy_stored (x := x) hf fallback values i
    refine ⟨hevaluate _ _, fun fallback values => ?_⟩
    exact (hevaluate fallback values).trans (hevaluate _ _).symm

/-- Whatever calls are made on a new forest, successful or not, it is well kept afterwards. -/
theorem afterCalls_wellKept (calls : List (ForestCall α)) :
    (empty.afterCalls calls : ForestStore α).WellKept := by
  obtain ⟨f, hf, hcalls⟩ := Forest.Built.empty.exists_afterCalls calls
  have hempty : (empty : ForestStore α) = Forest.empty.stored := rfl
  rw [hempty, hcalls]
  exact wellKept_stored hf.sound

/-- An expression that is there and a parent that is not: two of four calls change nothing. -/
example : (empty.afterCalls [.addRoot "a" 1 1, .addRoot "a" 2 1, .addNode "1/a" .reciprocal [0],
    .addNode "a+b" .add [0, 7]] : ForestStore Float).positions = [("a", 0), ("1/a", 1)] := by
  decide

end ForestStore

end FeatureGraph
