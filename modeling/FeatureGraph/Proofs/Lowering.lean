import FeatureGraph.Proofs.Laws

/-!
# The run of lowering

Lowering keeps the graph intact, counts an input for each root, and binds each feature to
the last node of its chain.  `Lowered` is what holds when the first features of a forest
have been lowered.

* `extend` says what one more chain makes of it.
* `exists_lowerAt` is one feature and `Forest.Sound.exists_lower` the whole forest: lowering
  a forest that was built cannot fail.
* `Lowered.valueAt_related` carries a relation from the operators to the features, and
  `Lowered.valueAt_eq` compares a node with its feature, in an arithmetic that satisfies the
  laws of lowering.
-/

namespace FeatureGraph

namespace Lowering

variable {α : Type} [Arith α] {f : Forest α}

/-- What the chain of a feature makes of a row, given the values of its parents' nodes. -/
def chainValue (f : Forest α) (i : Nat) (feature : Feature α) (raw : List α)
    (parentValue : Nat → α) : α :=
  if feature.isRoot then 0 + feature.scale * raw.getD (f.rootsBefore i) 0
  else feature.op.lowered (feature.parents.map parentValue)

/-- The first `k` features have been lowered, each to a chain that ends in its node. -/
structure Lowered (f : Forest α) (k : Nat) (g : Graph α) (m : NodeMapping) (node : Nat → NodeId) :
    Prop where
  intact : g.Intact
  nextColumn : g.nextColumn = f.rootsBefore k
  bound : ∀ i < k, m.getIndex? i = some (node i)
  bindings : ∀ b ∈ m.bindings, b.index < k ∧
    ∃ feature, f.get? b.index = some feature ∧ feature.expr = b.expr
  inside : ∀ i < k, node i < g.size
  value : ∀ i < k, ∀ feature, f.get? i = some feature → ∀ s : Sample α,
    g.table.valueAt s (node i) =
      chainValue f i feature s.raw fun p => g.table.valueAt s (node p)

variable {k : Nat} {g : Graph α} {m : NodeMapping} {node : Nat → NodeId}

theorem lowered_empty (f : Forest α) (node : Nat → NodeId) :
    Lowered f 0 (.empty : Graph α) {} node where
  intact := Graph.intact_empty
  nextColumn := by simp [Forest.rootsBefore, Graph.empty]
  bound := by simp
  bindings := by simp
  inside := by simp
  value := by simp

/-! ## One feature -/

/-- Every operand has been lowered. -/
theorem operands_eq (h : Lowered f k g m node) {feature : Feature α}
    (hps : ∀ p ∈ feature.parents, p < k) :
    operands f m feature = .ok (feature.parents.map node) := by
  refine Outcome.mapM_ok fun p hp => ?_
  simp only [h.bound p (hps p hp)]

/-- The chain of a feature that may stand in a forest can be added. -/
theorem exists_chain (hf : f.Sound) (h : Lowered f k g m node) {feature : Feature α}
    (hk : f.get? k = some feature) :
    ∃ new g', lower g feature (feature.parents.map node) = .ok (new, g') ∧
      Graph.Grows (if feature.isRoot then 1 else 0) g g' ∧ new < g'.size ∧
      ∀ s : Sample α, g'.table.valueAt s new =
        chainValue f k feature s.raw fun p => g.table.valueAt s (node p) := by
  cases hroot : feature.isRoot with
  | true =>
    obtain ⟨new, g', hrun, hgrows, _, hnew, hvalue⟩ :=
      adds_root h.intact feature.expr feature.scale
    refine ⟨new, g', ?_, hgrows, hnew, fun s => ?_⟩
    · rw [lower, if_pos hroot, hrun, Outcome.mapFailure_ok]
    · rw [hvalue, chainValue, if_pos hroot, h.nextColumn]
  | false =>
    obtain ⟨hop, harity⟩ := hf.operator k feature hk hroot
    have hinside : ∀ p ∈ feature.parents.map node, p < g.size := by
      intro p hp
      obtain ⟨i, hi, rfl⟩ := List.mem_map.1 hp
      exact h.inside i (hf.earlier k feature hk i hi)
    obtain ⟨new, g', hrun, hgrows, _, hnew, hvalue⟩ :=
      adds_chain h.intact feature.expr hop (by simpa using harity) hinside
    have hnot : ¬feature.isRoot = true := by simp [hroot]
    refine ⟨new, g', ?_, hgrows, hnew, fun s => ?_⟩
    · rw [lower, if_neg hnot, if_neg hop, hrun, Outcome.mapFailure_ok]
    · simp only [hvalue, chainValue, if_neg hnot, List.map_map, Function.comp_def]

/-- A feature that has not been lowered can be bound. -/
theorem bind_eq_ok (hf : f.Sound) (h : Lowered f k g m node) {feature : Feature α}
    (hk : f.get? k = some feature) (new : NodeId) :
    (m.bind ⟨k, feature.expr, new⟩ : Outcome (ModelError α) NodeMapping) =
      .ok ⟨m.bindings ++ [⟨k, feature.expr, new⟩]⟩ := by
  refine if_neg fun hany => ?_
  obtain ⟨b, hb, hclash⟩ := List.any_eq_true.1 hany
  obtain ⟨hlt, old, hold, hexpr⟩ := h.bindings b hb
  rcases Bool.or_eq_true_iff.1 hclash with hclash | hclash
  · have hne := hf.expr_ne hlt hold hk
    exact hne (hexpr.trans (by simpa using hclash))
  · exact Nat.ne_of_lt hlt (by simpa using hclash)

theorem chainValue_congr {i : Nat} {feature : Feature α} {raw : List α} {v w : Nat → α}
    (h : ∀ p ∈ feature.parents, v p = w p) :
    chainValue f i feature raw v = chainValue f i feature raw w := by
  rw [chainValue, chainValue, List.map_congr_left h]

/-- A binding for the next feature is found in its place, and it hides none before it. -/
theorem getIndex?_append (h : Lowered f k g m node) (expr : String) (new : NodeId) {i : Nat}
    (hi : i < k + 1) :
    (⟨m.bindings ++ [⟨k, expr, new⟩]⟩ : NodeMapping).getIndex? i =
      some (if i = k then new else node i) := by
  rcases Nat.lt_succ_iff_lt_or_eq.1 hi with hlt | rfl
  · obtain ⟨b, hb, hnode⟩ := Option.map_eq_some_iff.1 (h.bound i hlt)
    simp [NodeMapping.getIndex?, hb, hnode, Nat.ne_of_lt hlt]
  · have hnone : m.bindings.find? (·.index == i) = none := by
      refine List.find?_eq_none.2 fun b hb => ?_
      have hlt := (h.bindings b hb).1
      simp [Nat.ne_of_lt hlt]
    simp [NodeMapping.getIndex?, hnone]

/-- The graph has been grown by the chain of the next feature. -/
theorem extend (hf : f.Sound) (h : Lowered f k g m node) {feature : Feature α}
    (hk : f.get? k = some feature) {g' : Graph α} {new : NodeId}
    (hgrows : Graph.Grows (if feature.isRoot then 1 else 0) g g') (hnew : new < g'.size)
    (hvalue : ∀ s : Sample α, g'.table.valueAt s new =
      chainValue f k feature s.raw fun p => g.table.valueAt s (node p)) :
    Lowered f (k + 1) g' ⟨m.bindings ++ [⟨k, feature.expr, new⟩]⟩
      fun i => if i = k then new else node i where
  intact := hgrows.intact
  nextColumn := by rw [hgrows.nextColumn, h.nextColumn, Forest.rootsBefore_succ hk]
  bound i hi := getIndex?_append h feature.expr new hi
  bindings b hb := by
    rcases List.mem_append.1 hb with hb | hb
    · obtain ⟨hlt, hexpr⟩ := h.bindings b hb
      exact ⟨Nat.lt_succ_of_lt hlt, hexpr⟩
    · rw [List.mem_singleton.1 hb]
      exact ⟨Nat.lt_succ_self k, feature, hk, rfl⟩
  inside i hi := by
    rcases Nat.lt_succ_iff_lt_or_eq.1 hi with hlt | rfl
    · simpa [Nat.ne_of_lt hlt] using Nat.lt_of_lt_of_le (h.inside i hlt) hgrows.size
    · simpa using hnew
  value i hi old hold s := by
    -- the nodes of the features before keep their values
    have hkept : ∀ j < k, g'.table.valueAt s (node j) = g.table.valueAt s (node j) :=
      fun j hj => hgrows.valueAt s (h.inside j hj)
    have hparents : chainValue f i old s.raw
          (fun p => g'.table.valueAt s (if p = k then new else node p)) =
        chainValue f i old s.raw fun p => g.table.valueAt s (node p) := by
      refine chainValue_congr fun p hp => ?_
      have hpi : p < i := hf.earlier i old hold p hp
      rw [if_neg (show p ≠ k by omega), hkept p (by omega)]
    rw [hparents]
    rcases Nat.lt_succ_iff_lt_or_eq.1 hi with hlt | rfl
    · rw [if_neg (by omega), hkept i hlt, h.value i hlt old hold]
    · rw [if_pos rfl, hvalue, Option.some.inj (hold.symm.trans hk)]

/-- Lowering the next feature of a forest. -/
theorem exists_lowerAt (hf : f.Sound) (h : Lowered f k g m node) {feature : Feature α}
    (hk : f.get? k = some feature) :
    ∃ g' m' node', lowerAt f (g, m) k feature = .ok (g', m') ∧ Lowered f (k + 1) g' m' node' := by
  obtain ⟨new, g', hrun, hgrows, hnew, hvalue⟩ := exists_chain hf h hk
  refine ⟨g', _, _, ?_, extend hf h hk hgrows hnew hvalue⟩
  rw [lowerAt]
  simp only [operands_eq h (hf.earlier k feature hk), hrun, bind_eq_ok hf h hk, Outcome.ok_bind,
    Outcome.pure_eq_ok]

/-! ## All features -/

/-- Lowering the remaining features. -/
theorem exists_lowerFrom (hf : f.Sound) (hk : k ≤ f.size) (h : Lowered f k g m node) :
    ∃ g' m' node', (lowerFrom f (f.entries.drop k) (g, m)).outcome = .ok (g', m') ∧
      Lowered f f.size g' m' node' := by
  induction hrest : f.entries.drop k generalizing k g m node with
  | nil =>
    have hsize : f.size ≤ k := by simpa using hrest
    exact ⟨g, m, node, rfl, Nat.le_antisymm hk hsize ▸ h⟩
  | cons entry rest ih =>
    obtain ⟨hlt, hposition, hget, hnext⟩ := Forest.of_drop_entries_eq_cons hrest
    obtain ⟨g', m', node', hrun, h'⟩ := exists_lowerAt hf h hget
    obtain ⟨g'', m'', node'', hrun', h''⟩ := ih (Nat.succ_le_of_lt hlt) h' hnext
    refine ⟨g'', m'', node'', ?_, h''⟩
    rw [← hrun', lowerFrom, hposition, hrun]
    rfl

end Lowering

open Lowering

variable {α : Type} [Arith α] {f : Forest α}

/-- Lowering a forest that was built cannot fail. -/
theorem Forest.Sound.exists_lower (hf : f.Sound) :
    ∃ g m node, f.lower.outcome = .ok (g, m) ∧ Lowered f f.size g m node :=
  exists_lowerFrom hf (Nat.zero_le _) (lowered_empty f fun _ => 0)

/-! ## Values -/

/-- In this row the feature takes the square root of a negative argument. -/
def Forest.SqrtOfNegative (f : Forest α) (raw : List α) (i : Nat) : Prop :=
  ∃ feature, f.get? i = some feature ∧
    feature.op.IsSqrtOfNegative (feature.parents.map (f.valueAt raw))

namespace Lowering.Lowered

variable {g : Graph α} {m : NodeMapping} {node : Nat → NodeId}

/-- The node of an operator computes its chain. -/
theorem valueAt_chain (h : Lowered f f.size g m node) (s : Sample α) {i : Nat}
    {feature : Feature α} (hi : i < f.size) (hget : f.get? i = some feature)
    (hroot : feature.isRoot = false) :
    g.table.valueAt s (node i) =
      feature.op.lowered (feature.parents.map fun p => g.table.valueAt s (node p)) := by
  rw [h.value i hi feature hget s, chainValue, if_neg (by simp [hroot])]

/-- The node of an operator, once the nodes before it have their features' values. -/
theorem valueAt_operator (h : Lowered f f.size g m node) (hf : f.Sound) (s : Sample α) {i : Nat}
    {feature : Feature α} (hi : i < f.size) (hget : f.get? i = some feature)
    (hroot : feature.isRoot = false)
    (hbefore : ∀ p < i, g.table.valueAt s (node p) = f.valueAt s.raw p) :
    g.table.valueAt s (node i) = feature.op.lowered (feature.parents.map (f.valueAt s.raw)) := by
  rw [h.valueAt_chain s hi hget hroot,
    List.map_congr_left fun p hp => hbefore p (hf.earlier i feature hget p hp)]

/-- A relation between the operators and their chains is one between the features and their
nodes. -/
theorem valueAt_related (h : Lowered f f.size g m node) (hf : f.Sound) (s : Sample α)
    {R : α → α → Prop} {i : Nat} (hi : i < f.size) (hroot : ∀ a, R (0 + a) a)
    (hoperator : ∀ j ≤ i, ∀ feature, f.get? j = some feature → feature.isRoot = false →
      (∀ p ∈ feature.parents, R (g.table.valueAt s (node p)) (f.valueAt s.raw p)) →
        R (feature.op.lowered (feature.parents.map fun p => g.table.valueAt s (node p)))
          (feature.op.value (feature.parents.map (f.valueAt s.raw)))) :
    R (g.table.valueAt s (node i)) (f.valueAt s.raw i) := by
  induction i using Nat.strong_induction_on with
  | _ i ih =>
    have hget : f.get? i = some f.features[i] := Array.getElem?_eq_getElem hi
    cases hisRoot : f.features[i].isRoot with
    | true =>
      rw [h.value i hi _ hget s, chainValue, if_pos hisRoot, Forest.valueAt_root hget hisRoot]
      exact hroot _
    | false =>
      rw [h.valueAt_chain s hi hget hisRoot, hf.valueAt_operator hget hisRoot]
      refine hoperator i (Nat.le_refl i) _ hget hisRoot fun p hp => ?_
      have hpi : p < i := hf.earlier i _ hget p hp
      exact ih p hpi (by omega) fun j hj => hoperator j (by omega)

variable [LoweringLaws α]

/-- The node of a feature has the feature's value, as long as no feature up to it takes the
square root of a negative argument. -/
theorem valueAt_eq (h : Lowered f f.size g m node) (hf : f.Sound) (s : Sample α) {i : Nat}
    (hi : i < f.size) (hnone : ∀ j ≤ i, ¬f.SqrtOfNegative s.raw j) :
    g.table.valueAt s (node i) = f.valueAt s.raw i := by
  refine h.valueAt_related (R := Eq) hf s hi LoweringLaws.zero_add ?_
  intro j hj feature hget _ hbefore
  rw [List.map_congr_left hbefore]
  exact Operator.lowered_eq_value fun hneg => hnone j hj ⟨feature, hget, hneg⟩

/-- At the first square root of a negative argument the feature is not a number, and its
node is one. -/
theorem isNaN_of_sqrtOfNegative (h : Lowered f f.size g m node) (hf : f.Sound) (s : Sample α)
    {i : Nat} (hi : i < f.size) (hfirst : ∀ j < i, ¬f.SqrtOfNegative s.raw j)
    (hneg : f.SqrtOfNegative s.raw i) :
    Arith.isNaN (f.valueAt s.raw i) = true ∧
      Arith.isNaN (g.table.valueAt s (node i)) = false := by
  obtain ⟨feature, hget, hneg⟩ := hneg
  have hroot : feature.isRoot = false := by
    by_contra hroot
    obtain ⟨hidentity, _⟩ := hf.root i feature hget (by simpa using hroot)
    rw [hidentity] at hneg
    cases hneg.1
  obtain ⟨_, harity⟩ := hf.operator i feature hget hroot
  have hbefore : ∀ p < i, g.table.valueAt s (node p) = f.valueAt s.raw p :=
    fun p hp => h.valueAt_eq hf s (by omega) fun j hj => hfirst j (by omega)
  rw [h.valueAt_operator hf s hi hget hroot hbefore, hf.valueAt_operator hget hroot]
  exact Operator.isNaN_of_isSqrtOfNegative (by simpa using harity) hneg

end Lowering.Lowered

end FeatureGraph
