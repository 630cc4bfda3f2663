import FeatureGraph.Proofs.Outcome
import FeatureGraph.Forest.Record
import FeatureGraph.Forest.Store

/-!
# Built forests

A forest is `Built` if adding features and setting scores leads to it from the empty
forest, and every built forest is `Sound`: no expression stands twice, and a feature that
is not a root applies a proper operator to as many earlier features as it takes.

* `getElem?_roots` relates the list of the roots to the columns that they read.
* The `…_eq_ok` lemmas say when an addition succeeds, and what it answers.
* `Built.sound` is the run, with one case for each way to build.
* `Built.ofRecords` covers the forests that are read from records.
-/

namespace FeatureGraph.Forest

variable {α : Type} {f : Forest α}

/-- What adding features keeps of a forest. -/
structure Sound (f : Forest α) : Prop where
  distinct : (f.features.toList.map (·.expr)).Nodup
  root : ∀ i feature, f.get? i = some feature → feature.isRoot = true →
    feature.op = .identity ∧ feature.parents = []
  operator : ∀ i feature, f.get? i = some feature → feature.isRoot = false →
    feature.op ≠ .identity ∧ feature.parents.length = feature.op.arity
  earlier : ∀ i feature, f.get? i = some feature → ∀ p ∈ feature.parents, p < i

theorem sound_empty : (Forest.empty : Forest α).Sound where
  distinct := List.nodup_nil
  root := by simp [get?, empty]
  operator := by simp [get?, empty]
  earlier := by simp [get?, empty]

theorem lt_size_of_get? {f : Forest α} {i : Nat} {feature : Feature α}
    (h : f.get? i = some feature) : i < f.size :=
  (Array.getElem?_eq_some_iff.1 h).1

@[simp] theorem length_entries (f : Forest α) : f.entries.length = f.size := by
  simp [entries, size]

theorem map_snd_entries (f : Forest α) : f.entries.map (·.2) = f.features.toList := by
  rw [entries, List.map_map]
  exact List.zipIdx_map_fst 0 f.features.toList

/-- The entries are the features with their positions. -/
theorem get?_of_getElem_entries {k : Nat} (hk : k < f.entries.length) :
    (f.entries[k]).1 = k ∧ f.get? k = some (f.entries[k]).2 := by
  have hsize : k < f.features.size := by simpa [size] using hk
  simp [entries, get?, hsize]

/-- The first of the remaining entries is the next feature. -/
theorem of_drop_entries_eq_cons {k : Nat} {entry : Nat × Feature α} {rest : List (Nat × Feature α)}
    (h : f.entries.drop k = entry :: rest) :
    k < f.size ∧ entry.1 = k ∧ f.get? k = some entry.2 ∧ f.entries.drop (k + 1) = rest := by
  have hlt : k < f.entries.length := by
    by_contra hge
    rw [List.drop_eq_nil_of_le (Nat.le_of_not_lt hge)] at h
    cases h
  obtain ⟨hposition, hget⟩ := get?_of_getElem_entries hlt
  rw [List.drop_eq_getElem_cons hlt, List.cons.injEq] at h
  obtain ⟨rfl, hrest⟩ := h
  exact ⟨by simpa using hlt, hposition, hget, hrest⟩

/-- The entries are the features at their positions. -/
theorem mem_entries {i : Nat} {feature : Feature α} :
    (i, feature) ∈ f.entries ↔ f.get? i = some feature := by
  constructor
  · intro h
    obtain ⟨j, hj, heq⟩ := List.mem_iff_getElem.1 h
    obtain ⟨hposition, hget⟩ := get?_of_getElem_entries hj
    rw [heq] at hposition hget
    subst hposition
    exact hget
  · intro h
    have hlt : i < f.entries.length := by simpa using lt_size_of_get? h
    obtain ⟨hposition, hget⟩ := get?_of_getElem_entries hlt
    exact List.mem_iff_getElem.2 ⟨i, hlt, Prod.ext hposition (Option.some.inj (hget.symm.trans h))⟩

theorem rootsBefore_succ {k : Nat} {feature : Feature α} (hk : f.get? k = some feature) :
    f.rootsBefore (k + 1) = f.rootsBefore k + if feature.isRoot then 1 else 0 := by
  obtain ⟨hlt, hget⟩ := Array.getElem?_eq_some_iff.1 hk
  have hlength : k < f.features.toList.length := by simpa using hlt
  rw [rootsBefore, List.take_succ_eq_append_getElem hlength, List.countP_append, rootsBefore,
    Array.getElem_toList, hget, List.countP_singleton]

/-! ## Roots -/

theorem isRootAt_eq_true {i : Nat} :
    f.isRootAt i = true ↔ ∃ feature, f.get? i = some feature ∧ feature.isRoot = true := by
  unfold isRootAt
  cases f.get? i <;> simp

theorem rootsBefore_eq_countP {n : Nat} (hn : n ≤ f.size) :
    f.rootsBefore n = (List.range n).countP f.isRootAt := by
  induction n with
  | zero => simp [rootsBefore]
  | succ n ih =>
    have hget : f.get? n = some f.features[n] := Array.getElem?_eq_getElem hn
    rw [rootsBefore_succ hget, ih (Nat.le_of_succ_le hn), List.range_succ, List.countP_append,
      List.countP_singleton, isRootAt, hget]
    rfl

/-- The first numbers that satisfy a predicate: each stands behind as many as there are before
it. -/
theorem getElem?_filter_range {keep : Nat → Bool} {n k i : Nat} :
    ((List.range n).filter keep)[k]? = some i ↔
      i < n ∧ keep i = true ∧ (List.range i).countP keep = k := by
  induction n generalizing k with
  | zero => simp
  | succ n ih =>
    rw [List.range_succ, List.filter_append, List.getElem?_append, List.filter_singleton,
      ← List.countP_eq_length_filter]
    by_cases hi : i = n
    · subst hi
      have hnone : ¬((List.range i).filter keep)[k]? = some i := fun h =>
        Nat.lt_irrefl i (ih.1 h).1
      by_cases hk : k < (List.range i).countP keep
      · rw [if_pos hk]
        exact iff_of_false hnone fun h => absurd h.2.2 (Nat.ne_of_gt hk)
      · rw [if_neg hk]
        by_cases hkeep : keep i = true
        · simp [hkeep, List.getElem?_singleton]
          omega
        · simp [hkeep]
    · have hlast : ∀ j : Nat, ¬(bif keep n then [n] else [])[j]? = some i := by
        intro j
        cases keep n
        · simp
        · rw [cond_true, List.getElem?_singleton]
          split <;> simp [Ne.symm hi]
      have hlt : i < n + 1 ↔ i < n := by omega
      rw [hlt, ← ih]
      by_cases hk : k < (List.range n).countP keep
      · rw [if_pos hk]
      · rw [if_neg hk]
        refine iff_of_false (hlast _) fun h => hk ?_
        rw [List.countP_eq_length_filter]
        exact (List.getElem?_eq_some_iff.1 h).1

theorem rootColumn?_eq_some {k i : Nat} : f.rootColumn? i = some k ↔
    ∃ feature, f.get? i = some feature ∧ feature.isRoot = true ∧ f.rootsBefore i = k := by
  rw [rootColumn?]
  cases f.get? i with
  | none => simp
  | some feature => by_cases hroot : feature.isRoot = true <;> simp [hroot]

/-- A root reads the column of its number among the roots, and nothing else reads a column. -/
theorem getElem?_roots {k i : Nat} : f.roots[k]? = some i ↔ f.rootColumn? i = some k := by
  rw [roots, getElem?_filter_range, isRootAt_eq_true, rootColumn?_eq_some]
  constructor
  · rintro ⟨hi, ⟨feature, hget, hroot⟩, hcount⟩
    exact ⟨feature, hget, hroot, (rootsBefore_eq_countP (Nat.le_of_lt hi)).trans hcount⟩
  · rintro ⟨feature, hget, hroot, hbefore⟩
    have hi := lt_size_of_get? hget
    exact ⟨hi, ⟨feature, hget, hroot⟩, (rootsBefore_eq_countP (Nat.le_of_lt hi)).symm.trans hbefore⟩

/-! ## Sound forests -/

/-- No two features have one expression. -/
theorem Sound.expr_ne (hf : f.Sound) {i j : Nat} (hij : i < j) {a b : Feature α}
    (ha : f.get? i = some a) (hb : f.get? j = some b) : a.expr ≠ b.expr := by
  obtain ⟨hi, rfl⟩ := Array.getElem?_eq_some_iff.1 ha
  obtain ⟨hj, rfl⟩ := Array.getElem?_eq_some_iff.1 hb
  have hne :=
    List.pairwise_iff_getElem.1 hf.distinct i j (by simpa using hi) (by simpa using hj) hij
  simpa using hne

/-! ## Checks -/

theorem checkFresh_eq_ok {expr : String} :
    f.checkFresh expr = .ok () ↔ expr ∉ f.features.toList.map (·.expr) := by
  unfold checkFresh
  cases hindex : f.indexOf? expr with
  | none =>
    simp only [true_iff]
    intro hmem
    obtain ⟨feature, hfeature, rfl⟩ := List.mem_map.1 hmem
    have hall := Array.findIdx?_eq_none_iff.1 hindex feature (Array.mem_toList_iff.1 hfeature)
    simp at hall
  | some i =>
    simp only [Outcome.fail, reduceCtorEq, false_iff, not_not]
    obtain ⟨hi, hexpr, _⟩ := Array.findIdx?_eq_some_iff_getElem.1 hindex
    have hexpr : f.features[i].expr = expr := by simpa using hexpr
    exact List.mem_map.2 ⟨_, Array.getElem_mem_toList hi, hexpr⟩

theorem checkParents_eq_ok {expr : String} {ps : List Nat} :
    f.checkParents expr ps = .ok () ↔ ∀ p ∈ ps, p < f.size := by
  induction ps with
  | nil => simp [checkParents]
  | cons p ps ih =>
    rw [checkParents, List.forall_mem_cons]
    by_cases hp : p < f.size
    · simp [hp, ih]
    · simp [hp, Outcome.fail]

theorem checkArity_eq_ok {expr : String} {op : Operator} {n : Nat} :
    checkArity expr op n = .ok () ↔ op ≠ .identity ∧ n = op.arity := by
  unfold checkArity
  by_cases hop : op = .identity
  · simp [hop, Outcome.fail]
  · by_cases hn : n = op.arity
    · simp [hop, hn]
    · simp [hop, hn, Outcome.fail]

/-! ## Additions -/

/-- The forest with one more feature. -/
def push (f : Forest α) (feature : Feature α) : Forest α := ⟨f.features.push feature⟩

theorem get?_push (f : Forest α) (feature : Feature α) (i : Nat) :
    (f.push feature).get? i = if i = f.size then some feature else f.get? i := by
  simp only [push, get?, Array.getElem?_push]
  rfl

section Adding

variable [Arith α] {expr : String} {p : Nat × Forest α}

theorem addRoot_eq_ok {a b : α} :
    f.addRoot expr a b = .ok p ↔
      expr ∉ f.features.toList.map (·.expr) ∧
        p = (f.size, f.push ⟨expr, .identity, [], true, a, b, 0, 0⟩) := by
  rw [addRoot, Outcome.check_bind_eq_ok, checkFresh_eq_ok, Outcome.pure_eq_ok, Outcome.ok_eq_iff,
    push]

theorem addNode_eq_ok {op : Operator} {ps : List Nat} :
    f.addNode expr op ps = .ok p ↔
      expr ∉ f.features.toList.map (·.expr) ∧ (op ≠ .identity ∧ ps.length = op.arity) ∧
        (∀ q ∈ ps, q < f.size) ∧ p = (f.size, f.push ⟨expr, op, ps, false, 1, 1, 0, 0⟩) := by
  rw [addNode, Outcome.check_bind_eq_ok, checkFresh_eq_ok, Outcome.check_bind_eq_ok,
    checkArity_eq_ok, Outcome.check_bind_eq_ok, checkParents_eq_ok, Outcome.pure_eq_ok,
    Outcome.ok_eq_iff, push]

end Adding

/-- The forest with other scores of one feature. -/
def withScores (f : Forest α) (i : Nat) (quality coverage : α) : Forest α :=
  ⟨f.features.modify i fun feature => { feature with quality, coverage }⟩

theorem setScores_eq_ok {i : Nat} {quality coverage : α} {f' : Forest α} :
    f.setScores i quality coverage = .ok f' ↔
      i < f.size ∧ f' = f.withScores i quality coverage := by
  unfold setScores
  split
  · rename_i hi
    have hmodify : f.features.set i { f.features[i] with quality, coverage } hi =
        f.features.modify i fun feature => { feature with quality, coverage } := by
      refine Array.ext (by simp) fun j hj _ => ?_
      rw [Array.getElem_set, Array.getElem_modify]
      by_cases hij : i = j
      · subst hij
        simp
      · simp [hij]
    rw [Outcome.ok_eq_iff, hmodify]
    simp [size, hi, withScores]
  · rename_i hi
    simp [size, hi, Outcome.fail]

/-! ## Built forests -/

variable [Arith α]

/-- A forest to which additions and scores lead from the empty forest. -/
inductive Built : Forest α → Prop where
  | empty : Built Forest.empty
  | addRoot {f : Forest α} {expr : String} {a b : α} {p : Nat × Forest α} (hf : Built f)
      (h : f.addRoot expr a b = .ok p) : Built p.2
  | addNode {f : Forest α} {expr : String} {op : Operator} {ps : List Nat} {p : Nat × Forest α}
      (hf : Built f) (h : f.addNode expr op ps = .ok p) : Built p.2
  | setScores {f : Forest α} {i : Nat} {quality coverage : α} {f' : Forest α} (hf : Built f)
      (h : f.setScores i quality coverage = .ok f') : Built f'

theorem Built.pushRoot (hf : f.Built) {expr : String} {a b : α}
    (hexpr : expr ∉ f.features.toList.map (·.expr)) :
    (f.push ⟨expr, .identity, [], true, a, b, 0, 0⟩).Built :=
  hf.addRoot (addRoot_eq_ok.2 ⟨hexpr, rfl⟩)

theorem Built.pushOperator (hf : f.Built) {expr : String} {op : Operator} {ps : List Nat}
    (hexpr : expr ∉ f.features.toList.map (·.expr))
    (hop : op ≠ .identity ∧ ps.length = op.arity) (hps : ∀ q ∈ ps, q < f.size) :
    (f.push ⟨expr, op, ps, false, 1, 1, 0, 0⟩).Built :=
  hf.addNode (addNode_eq_ok.2 ⟨hexpr, hop, hps, rfl⟩)

theorem Built.withScores (hf : f.Built) {i : Nat} (hi : i < f.size) (quality coverage : α) :
    (f.withScores i quality coverage).Built :=
  hf.setScores (setScores_eq_ok.2 ⟨hi, rfl⟩)

omit [Arith α] in
/-- A feature whose expression is new, over earlier features, may be appended. -/
theorem Sound.push (hf : f.Sound) {feature : Feature α}
    (hexpr : feature.expr ∉ f.features.toList.map (·.expr))
    (hroot : feature.isRoot = true → feature.op = .identity ∧ feature.parents = [])
    (hop : feature.isRoot = false →
      feature.op ≠ .identity ∧ feature.parents.length = feature.op.arity)
    (hps : ∀ p ∈ feature.parents, p < f.size) : (f.push feature).Sound where
  distinct := by
    rw [Forest.push, Array.toList_push, List.map_append, List.nodup_append]
    refine ⟨hf.distinct, by simp, fun a ha b hb => ?_⟩
    rw [List.map_singleton, List.mem_singleton] at hb
    exact fun heq => hexpr (hb ▸ heq ▸ ha)
  root i feature' hi hisRoot := by
    rw [get?_push] at hi
    split at hi
    · exact Option.some.inj hi ▸ hroot (Option.some.inj hi ▸ hisRoot)
    · exact hf.root i feature' hi hisRoot
  operator i feature' hi hroot := by
    rw [get?_push] at hi
    split at hi
    · exact Option.some.inj hi ▸ hop (Option.some.inj hi ▸ hroot)
    · exact hf.operator i feature' hi hroot
  earlier i feature' hi p hp := by
    rw [get?_push] at hi
    split at hi
    · rename_i hlast
      exact hlast ▸ hps p (Option.some.inj hi ▸ hp)
    · exact hf.earlier i feature' hi p hp

omit [Arith α] in
/-- Scores do not touch expressions, operators and parents. -/
theorem Sound.withScores (hf : f.Sound) (i : Nat) (quality coverage : α) :
    (f.withScores i quality coverage).Sound := by
  have hget : ∀ j feature, (f.withScores i quality coverage).get? j = some feature →
      ∃ old, f.get? j = some old ∧ feature.op = old.op ∧ feature.parents = old.parents ∧
        feature.isRoot = old.isRoot := by
    intro j feature hj
    simp only [Forest.withScores, get?, Array.getElem?_modify] at hj
    split at hj
    · obtain ⟨old, hold, rfl⟩ := Option.map_eq_some_iff.1 hj
      exact ⟨old, hold, rfl, rfl, rfl⟩
    · exact ⟨feature, hj, rfl, rfl, rfl⟩
  have hexprs : (f.withScores i quality coverage).features.toList.map (·.expr) =
      f.features.toList.map (·.expr) := by
    refine List.ext_getElem (by simp [Forest.withScores]) fun j hj _ => ?_
    simp only [Forest.withScores, List.getElem_map, Array.getElem_toList, Array.getElem_modify]
    split <;> rfl
  refine ⟨hexprs ▸ hf.distinct, fun j feature hj hroot => ?_, fun j feature hj hroot => ?_,
    fun j feature hj p hp => ?_⟩
  · obtain ⟨old, hold, hop, hps, hr⟩ := hget j feature hj
    rw [hop, hps]
    exact hf.root j old hold (hr ▸ hroot)
  · obtain ⟨old, hold, hop, hps, hr⟩ := hget j feature hj
    rw [hop, hps]
    exact hf.operator j old hold (hr ▸ hroot)
  · obtain ⟨old, hold, _, hps, _⟩ := hget j feature hj
    exact hf.earlier j old hold p (hps ▸ hp)

/-- Every built forest is sound. -/
theorem Built.sound (h : f.Built) : f.Sound := by
  induction h with
  | empty => exact sound_empty
  | addRoot _ h ih =>
    obtain ⟨hexpr, rfl⟩ := addRoot_eq_ok.1 h
    exact ih.push hexpr (fun _ => ⟨rfl, rfl⟩) (by simp) (by simp)
  | addNode _ h ih =>
    obtain ⟨hexpr, hop, hps, rfl⟩ := addNode_eq_ok.1 h
    exact ih.push hexpr (by simp) (fun _ => hop) hps
  | setScores _ h ih =>
    obtain ⟨_, rfl⟩ := setScores_eq_ok.1 h
    exact ih.withScores _ _ _

/-- A forest that is read from records is built. -/
theorem Built.ofRecords {rs : List (FeatureRecord α)} (h : Forest.ofRecords rs = .ok f) :
    f.Built := by
  refine Outcome.foldlM_keeps h Built.empty fun f f' r _ hf hadd => ?_
  unfold addRecord at hadd
  split at hadd
  · simp [Outcome.fail] at hadd
  · obtain ⟨p, hp, hscores⟩ := Outcome.bind_eq_ok.1 hadd
    have hbuilt : p.2.Built := by
      unfold addUnscored at hp
      split at hp
      · split at hp
        · simp [Outcome.fail] at hp
        · exact hf.addRoot hp
      · obtain ⟨ps, _, hp⟩ := Outcome.bind_eq_ok.1 hp
        exact hf.addNode hp
    exact hbuilt.setScores hscores

end FeatureGraph.Forest
