import FeatureGraph.Forest.Loading
import FeatureGraph.Proofs.WellKept

/-!
# Feature records

`WellFormed` says which lists of records describe a forest, and `FitsAfter` when one more record
keeps a list well-formed.

* `addRecord_eq_ok` is one record: it is added if and only if it fits after the expressions that are
  there, and `featureOf` is the feature that it becomes.
* `exists_ofRecords_iff` and `toRecords_of_ofRecords` are the inductions on the records, the last
  one first.
* `featureOf_recordOf` says that a record of a plain forest becomes the feature that it was written
  from, and `ofRecords_toRecords` that its records become the forest.
* `result_addRecord`, `ofRecords_stored` and `toRecords_stored` carry this over to forests in place.
-/

namespace FeatureGraph

variable {α : Type}

theorem Operator.ofSymbol?_eq_some {s : String} {op : Operator} :
    ofSymbol? s = some op ↔ s = op.symbol := by
  constructor
  · intro h
    have hfound := List.find?_some h
    exact (beq_iff_eq.1 hfound).symm
  · rintro rfl
    cases op <;> decide

/-! ## Well-formed records -/

namespace FeatureRecord

/-- A record that may stand behind records with the given expressions. -/
structure FitsAfter (exprs : List String) (r : FeatureRecord α) : Prop where
  fresh : r.expr ∉ exprs
  root : r.isRoot = true → r.op = Operator.identity.symbol
  operator : r.isRoot = false → ∃ op : Operator, op ≠ .identity ∧ r.op = op.symbol ∧
    r.parents.length = op.arity ∧ ∀ p ∈ r.parents, p ∈ exprs

/-- The records of a forest: each operator is known and each expression stands once, a root carries
the identity, and any other feature a proper operator with as many parents as it takes, each of them
the expression of an earlier record. -/
structure WellFormed (rs : List (FeatureRecord α)) : Prop where
  known : ∀ r ∈ rs, ∃ op : Operator, r.op = op.symbol
  distinct : (rs.map (·.expr)).Nodup
  root : ∀ r ∈ rs, r.isRoot = true → r.op = Operator.identity.symbol
  operator : ∀ (i : Nat) (r : FeatureRecord α), rs[i]? = some r → r.isRoot = false →
    ∃ op : Operator, op ≠ .identity ∧ r.op = op.symbol ∧ r.parents.length = op.arity ∧
      ∀ p ∈ r.parents, ∃ j q, j < i ∧ rs[j]? = some q ∧ q.expr = p

/-- What is kept of a record: the parents of a root are dropped, and so are the factors of any other
feature. -/
def normalized [Arith α] (r : FeatureRecord α) : FeatureRecord α :=
  if r.isRoot then { r with parents := [] } else { r with prefactor := 1, unitPrefactor := 1 }

theorem FitsAfter.known {exprs : List String} {r : FeatureRecord α} (h : r.FitsAfter exprs) :
    ∃ op : Operator, r.op = op.symbol := by
  cases hroot : r.isRoot with
  | true => exact ⟨_, h.root hroot⟩
  | false =>
    obtain ⟨op, _, hop, _⟩ := h.operator hroot
    exact ⟨op, hop⟩

/-- The expressions of the earlier records are those of the records before. -/
theorem mem_exprs_iff {rs : List (FeatureRecord α)} {p : String} :
    p ∈ rs.map (·.expr) ↔ ∃ j q, j < rs.length ∧ rs[j]? = some q ∧ q.expr = p := by
  rw [List.mem_map]
  constructor
  · rintro ⟨q, hq, rfl⟩
    obtain ⟨j, hj, rfl⟩ := List.getElem_of_mem hq
    exact ⟨j, _, hj, List.getElem?_eq_getElem hj, rfl⟩
  · rintro ⟨j, q, _, hq, rfl⟩
    exact ⟨q, List.mem_of_getElem? hq, rfl⟩

theorem wellFormed_nil : WellFormed ([] : List (FeatureRecord α)) :=
  ⟨by simp, by simp, by simp, by simp⟩

/-- A list is well-formed if the last record fits after a well-formed list. -/
theorem wellFormed_concat {rs : List (FeatureRecord α)} {r : FeatureRecord α} :
    WellFormed (rs ++ [r]) ↔ WellFormed rs ∧ r.FitsAfter (rs.map (·.expr)) := by
  have hearlier : ∀ {i j : Nat} {q : FeatureRecord α}, i ≤ rs.length → j < i →
      ((rs ++ [r])[j]? = some q ↔ rs[j]? = some q) := fun hi hj => by
    rw [List.getElem?_append_left (Nat.lt_of_lt_of_le hj hi)]
  have hlast : (rs ++ [r])[rs.length]? = some r := by simp
  have hnodup : ((rs ++ [r]).map (·.expr)).Nodup ↔
      (rs.map (·.expr)).Nodup ∧ r.expr ∉ rs.map (·.expr) := by
    rw [List.map_append, List.map_singleton, List.nodup_append_comm, List.singleton_append,
      List.nodup_cons, and_comm]
  constructor
  · intro h
    refine ⟨⟨fun q hq => h.known q (List.mem_append_left _ hq), (hnodup.1 h.distinct).1,
      fun q hq => h.root q (List.mem_append_left _ hq), fun i q hq hroot => ?_⟩,
      (hnodup.1 h.distinct).2, h.root r (by simp), fun hroot => ?_⟩
    · have hi : i < rs.length := (List.getElem?_eq_some_iff.1 hq).1
      obtain ⟨op, hop, hsymbol, harity, hparents⟩ :=
        h.operator i q ((hearlier (Nat.le_refl _) hi).2 hq) hroot
      refine ⟨op, hop, hsymbol, harity, fun p hp => ?_⟩
      obtain ⟨j, s, hj, hs, hexpr⟩ := hparents p hp
      exact ⟨j, s, hj, (hearlier (Nat.le_of_lt hi) hj).1 hs, hexpr⟩
    · obtain ⟨op, hop, hsymbol, harity, hparents⟩ := h.operator _ r hlast hroot
      refine ⟨op, hop, hsymbol, harity, fun p hp => mem_exprs_iff.2 ?_⟩
      obtain ⟨j, s, hj, hs, hexpr⟩ := hparents p hp
      exact ⟨j, s, hj, (hearlier (Nat.le_refl _) hj).1 hs, hexpr⟩
  · rintro ⟨h, hr⟩
    refine ⟨fun q hq => ?_, hnodup.2 ⟨h.distinct, hr.fresh⟩, fun q hq => ?_, fun i q hq hroot => ?_⟩
    · rcases List.mem_append.1 hq with hq | hq
      · exact h.known q hq
      · exact List.mem_singleton.1 hq ▸ hr.known
    · rcases List.mem_append.1 hq with hq | hq
      · exact h.root q hq
      · exact List.mem_singleton.1 hq ▸ hr.root
    · have hi : i < rs.length + 1 := by simpa using (List.getElem?_eq_some_iff.1 hq).1
      rcases Nat.lt_succ_iff_lt_or_eq.1 hi with hi | rfl
      · obtain ⟨op, hop, hsymbol, harity, hparents⟩ :=
          h.operator i q ((hearlier (Nat.le_refl _) hi).1 hq) hroot
        refine ⟨op, hop, hsymbol, harity, fun p hp => ?_⟩
        obtain ⟨j, s, hj, hs, hexpr⟩ := hparents p hp
        exact ⟨j, s, hj, (hearlier (Nat.le_of_lt hi) hj).2 hs, hexpr⟩
      · obtain rfl : r = q := Option.some.inj (hlast.symm.trans hq)
        obtain ⟨op, hop, hsymbol, harity, hparents⟩ := hr.operator hroot
        refine ⟨op, hop, hsymbol, harity, fun p hp => ?_⟩
        obtain ⟨j, s, hj, hs, hexpr⟩ := mem_exprs_iff.1 (hparents p hp)
        exact ⟨j, s, hj, (hearlier (Nat.le_refl _) hj).2 hs, hexpr⟩

end FeatureRecord

/-! ## One record -/

namespace Forest

open FeatureRecord (FitsAfter WellFormed)

variable {f f' : Forest α} {r : FeatureRecord α}

theorem Sound.indexOf?_isSome (hf : f.Sound) {p : String} :
    (∃ i, f.indexOf? p = some i) ↔ p ∈ f.features.toList.map (·.expr) := by
  simp only [hf.indexOf?_eq_some, mem_exprs]

theorem resolveParents_eq_ok {expr : String} {ps : List String} {is : List Nat} :
    f.resolveParents expr ps = .ok is ↔
      (∀ p ∈ ps, ∃ i, f.indexOf? p = some i) ∧ is = ps.filterMap f.indexOf? := by
  induction ps generalizing is with
  | nil =>
    rw [resolveParents, Outcome.ok_eq_iff]
    simp
  | cons p ps ih =>
    rw [resolveParents, List.forall_mem_cons]
    cases hp : f.indexOf? p with
    | none => simp [Outcome.fail]
    | some i =>
      simp only [Outcome.bind_eq_ok, ih, Outcome.pure_eq_ok, Outcome.ok_eq_iff,
        List.filterMap_cons_some hp]
      simp

/-- The scores of the feature that was added last. -/
theorem withScores_push (f : Forest α) (feature : Feature α) (quality coverage : α) :
    (f.push feature).withScores f.size quality coverage =
      f.push { feature with quality, coverage } := by
  refine congrArg Forest.mk (Array.ext (by simp [push]) fun i hi _ => ?_)
  have hi' : i < f.features.size + 1 := by simpa [push] using hi
  simp only [push, size, Array.getElem_modify, Array.getElem_push]
  by_cases hlast : f.features.size = i
  · simp [hlast]
  · have hlt : i < f.features.size := by omega
    simp [hlast, hlt]

variable [Arith α]

/-- The feature that a record becomes if it fits after the features of a forest. -/
def featureOf (f : Forest α) (r : FeatureRecord α) : Feature α where
  expr := r.expr
  op := (Operator.ofSymbol? r.op).getD .identity
  parents := if r.isRoot then [] else r.parents.filterMap f.indexOf?
  isRoot := r.isRoot
  prefactor := if r.isRoot then r.prefactor else 1
  unitPrefactor := if r.isRoot then r.unitPrefactor else 1
  quality := r.quality
  coverage := r.coverage

theorem addUnscored_root (hroot : r.isRoot = true) {op : Operator} {p : Nat × Forest α} :
    f.addUnscored r op = .ok p ↔ op = .identity ∧ r.expr ∉ f.features.toList.map (·.expr) ∧
      p = (f.size, f.push ⟨r.expr, .identity, [], true, r.prefactor, r.unitPrefactor, 0, 0⟩) := by
  rw [addUnscored, if_pos hroot]
  by_cases hop : op = .identity
  · rw [if_neg (not_not.2 hop), addRoot_eq_ok]
    simp [hop]
  · rw [if_pos hop]
    simp [hop, Outcome.fail]

theorem addUnscored_operator (hf : f.Sound) (hroot : r.isRoot = false) {op : Operator}
    {p : Nat × Forest α} : f.addUnscored r op = .ok p ↔
      r.expr ∉ f.features.toList.map (·.expr) ∧ (op ≠ .identity ∧ r.parents.length = op.arity) ∧
        (∀ q ∈ r.parents, q ∈ f.features.toList.map (·.expr)) ∧
        p = (f.size, f.push ⟨r.expr, op, r.parents.filterMap f.indexOf?, false, 1, 1, 0, 0⟩) := by
  have hlength : (∀ q ∈ r.parents, q ∈ f.features.toList.map (·.expr)) →
      (r.parents.filterMap f.indexOf?).length = r.parents.length := fun hparents =>
    List.filterMap_length_eq_length.2 fun q hq =>
      Option.isSome_iff_exists.2 (hf.indexOf?_isSome.2 (hparents q hq))
  have hinside : ∀ i ∈ r.parents.filterMap f.indexOf?, i < f.size := fun i hi => by
    obtain ⟨q, _, hq⟩ := List.mem_filterMap.1 hi
    obtain ⟨feature, hget, _⟩ := hf.indexOf?_eq_some.1 hq
    exact lt_size_of_get? hget
  rw [addUnscored, if_neg (by simp [hroot])]
  simp only [Outcome.bind_eq_ok, resolveParents_eq_ok, addNode_eq_ok, hf.indexOf?_isSome]
  constructor
  · rintro ⟨is, ⟨hparents, rfl⟩, hfresh, hop, _, rfl⟩
    exact ⟨hfresh, ⟨hop.1, (hlength hparents).symm.trans hop.2⟩, hparents, rfl⟩
  · rintro ⟨hfresh, hop, hparents, rfl⟩
    exact ⟨_, ⟨hparents, rfl⟩, hfresh, ⟨hop.1, (hlength hparents).trans hop.2⟩, hinside, rfl⟩

/-- A record is added if and only if it fits after the expressions that are there. -/
theorem addRecord_eq_ok (hf : f.Sound) : f.addRecord r = .ok f' ↔
    r.FitsAfter (f.features.toList.map (·.expr)) ∧ f' = f.push (f.featureOf r) := by
  rw [addRecord]
  cases hsymbol : Operator.ofSymbol? r.op with
  | none =>
    have hunknown : ¬∃ op : Operator, r.op = op.symbol := by
      rintro ⟨op, hop⟩
      exact absurd (Operator.ofSymbol?_eq_some.2 hop) (by simp [hsymbol])
    refine iff_of_false (by simp [Outcome.fail]) fun h => hunknown h.1.known
  | some op =>
    have hop : r.op = op.symbol := Operator.ofSymbol?_eq_some.1 hsymbol
    have honly : ∀ op' : Operator, r.op = op'.symbol ↔ op' = op := fun op' => by
      rw [← Operator.ofSymbol?_eq_some, hsymbol, Option.some.injEq, eq_comm]
    simp only [Outcome.bind_eq_ok, setScores_eq_ok]
    cases hroot : r.isRoot with
    | true =>
      have hpush : (f.push ⟨r.expr, op, [], true, r.prefactor, r.unitPrefactor, 0, 0⟩).withScores
          f.size r.quality r.coverage = f.push (f.featureOf r) := by
        rw [withScores_push, featureOf]
        simp [hroot, hsymbol]
      simp only [addUnscored_root hroot]
      constructor
      · rintro ⟨p, ⟨rfl, hfresh, rfl⟩, _, rfl⟩
        exact ⟨⟨hfresh, fun _ => hop, by simp [hroot]⟩, hpush⟩
      · rintro ⟨h, rfl⟩
        obtain rfl : Operator.identity = op := (honly _).1 (h.root hroot)
        exact ⟨_, ⟨rfl, h.fresh, rfl⟩, by simp [push, size], hpush.symm⟩
    | false =>
      have hpush : (f.push ⟨r.expr, op, r.parents.filterMap f.indexOf?, false, 1, 1, 0,
          0⟩).withScores f.size r.quality r.coverage = f.push (f.featureOf r) := by
        rw [withScores_push, featureOf]
        simp [hroot, hsymbol]
      simp only [addUnscored_operator hf hroot]
      constructor
      · rintro ⟨p, ⟨hfresh, hop', hparents, rfl⟩, _, rfl⟩
        exact ⟨⟨hfresh, by simp [hroot], fun _ => ⟨op, hop'.1, hop, hop'.2, hparents⟩⟩, hpush⟩
      · rintro ⟨h, rfl⟩
        obtain ⟨op', hne, hop', harity, hparents⟩ := h.operator hroot
        obtain rfl : op' = op := (honly _).1 hop'
        exact ⟨_, ⟨h.fresh, ⟨hne, harity⟩, hparents, rfl⟩, by simp [push, size], hpush.symm⟩

/-! ## Lists of records -/

theorem ofRecords_concat (rs : List (FeatureRecord α)) (r : FeatureRecord α) :
    ofRecords (rs ++ [r]) = ofRecords rs >>= fun f => f.addRecord r := by
  rw [ofRecords, List.foldlM_append]
  simp only [List.foldlM_cons, List.foldlM_nil, bind_pure]
  rfl

omit [Arith α] in
theorem Sound.parents_lt_size (hf : f.Sound) {feature : Feature α}
    (hfeature : feature ∈ f.features.toList) : ∀ p ∈ feature.parents, p < f.size := by
  obtain ⟨i, hi, rfl⟩ := Array.mem_iff_getElem.1 (Array.mem_toList_iff.1 hfeature)
  exact fun p hp => Nat.lt_trans (hf.earlier i _ (Array.getElem?_eq_getElem hi) p hp) hi

omit [Arith α] in
theorem recordOf_push {feature last : Feature α} (hparents : ∀ p ∈ feature.parents, p < f.size) :
    (f.push last).recordOf feature = f.recordOf feature := by
  have hnames : (feature.parents.filterMap fun p => ((f.push last).get? p).map Feature.expr) =
      feature.parents.filterMap fun p => (f.get? p).map Feature.expr :=
    List.filterMap_congr fun p hp => by
      rw [get?_push, if_neg (Nat.ne_of_lt (hparents p hp))]
  rw [recordOf, hnames, recordOf]

omit [Arith α] in
/-- The record of a feature more stands behind the others. -/
theorem toRecords_push (hf : f.Sound) {feature : Feature α}
    (hparents : ∀ p ∈ feature.parents, p < f.size) :
    (f.push feature).toRecords = f.toRecords ++ [f.recordOf feature] := by
  have hold : ∀ old ∈ f.features.toList, (f.push feature).recordOf old = f.recordOf old :=
    fun old hold => recordOf_push (hf.parents_lt_size hold)
  rw [toRecords, show (f.push feature).features.toList = f.features.toList ++ [feature] from
    Array.toList_push, List.map_append, List.map_congr_left hold, List.map_singleton,
    recordOf_push hparents, toRecords]

theorem parents_featureOf_lt (hf : f.Sound) : ∀ p ∈ (f.featureOf r).parents, p < f.size := by
  intro p hp
  rw [featureOf] at hp
  dsimp only at hp
  split at hp
  · cases hp
  · obtain ⟨expr, _, hexpr⟩ := List.mem_filterMap.1 hp
    obtain ⟨feature, hget, _⟩ := hf.indexOf?_eq_some.1 hexpr
    exact lt_size_of_get? hget

omit [Arith α] in
/-- The expressions of features that have been looked up by their expressions. -/
theorem filterMap_expr_indexOf? (hf : f.Sound) {ps : List String}
    (hps : ∀ p ∈ ps, p ∈ f.features.toList.map (·.expr)) :
    ((ps.filterMap f.indexOf?).filterMap fun i => (f.get? i).map Feature.expr) = ps := by
  rw [List.filterMap_filterMap]
  refine (List.filterMap_congr fun p hp => ?_).trans List.filterMap_some
  obtain ⟨i, hi⟩ := hf.indexOf?_isSome.2 (hps p hp)
  obtain ⟨feature, hget, hexpr⟩ := hf.indexOf?_eq_some.1 hi
  rw [hi, Option.bind_some, hget, Option.map_some, hexpr]

/-- What is kept of a record that is added. -/
theorem recordOf_featureOf (hf : f.Sound) (hr : r.FitsAfter (f.features.toList.map (·.expr))) :
    f.recordOf (f.featureOf r) = r.normalized := by
  obtain ⟨op, hop⟩ := hr.known
  have hsymbol : Operator.ofSymbol? r.op = some op := Operator.ofSymbol?_eq_some.2 hop
  rw [recordOf, featureOf, FeatureRecord.normalized]
  cases hroot : r.isRoot with
  | true => simp [hsymbol, ← hop]
  | false =>
    obtain ⟨_, _, _, _, hparents⟩ := hr.operator hroot
    have hnames := filterMap_expr_indexOf? hf hparents
    simp [hsymbol, ← hop, hnames]

/-- The records of a forest that has been read from records. -/
theorem toRecords_of_ofRecords {rs : List (FeatureRecord α)} (h : ofRecords rs = .ok f) :
    f.toRecords = rs.map FeatureRecord.normalized := by
  induction rs using List.reverseRecOn generalizing f with
  | nil =>
    obtain rfl : Forest.empty = f := Except.ok.inj h
    rfl
  | append_singleton rs r ih =>
    rw [ofRecords_concat] at h
    obtain ⟨g, hg, hadd⟩ := Outcome.bind_eq_ok.1 h
    have hsound : g.Sound := (Built.ofRecords hg).sound
    obtain ⟨hr, rfl⟩ := (addRecord_eq_ok hsound).1 hadd
    rw [toRecords_push hsound (parents_featureOf_lt hsound), ih hg, recordOf_featureOf hsound hr,
      List.map_append, List.map_singleton]

omit [Arith α] in
theorem map_expr_toRecords (f : Forest α) :
    f.toRecords.map (·.expr) = f.features.toList.map (·.expr) := by
  rw [toRecords, List.map_map]
  rfl

theorem exprs_of_ofRecords {rs : List (FeatureRecord α)} (h : ofRecords rs = .ok f) :
    f.features.toList.map (·.expr) = rs.map (·.expr) := by
  rw [← map_expr_toRecords, toRecords_of_ofRecords h, List.map_map]
  refine List.map_congr_left fun r _ => ?_
  rw [Function.comp_apply, FeatureRecord.normalized]
  split <;> rfl

/-- Records make a forest if and only if they are well-formed. -/
theorem exists_ofRecords_iff (rs : List (FeatureRecord α)) :
    (∃ f, ofRecords rs = .ok f) ↔ WellFormed rs := by
  induction rs using List.reverseRecOn with
  | nil => exact iff_of_true ⟨_, rfl⟩ FeatureRecord.wellFormed_nil
  | append_singleton rs r ih =>
    rw [FeatureRecord.wellFormed_concat, ← ih, ofRecords_concat]
    simp only [Outcome.bind_eq_ok]
    constructor
    · rintro ⟨f, g, hg, hadd⟩
      have hr := ((addRecord_eq_ok (Built.ofRecords hg).sound).1 hadd).1
      exact ⟨⟨g, hg⟩, exprs_of_ofRecords hg ▸ hr⟩
    · rintro ⟨⟨g, hg⟩, hr⟩
      refine ⟨_, g, hg, (addRecord_eq_ok (Built.ofRecords hg).sound).2 ⟨?_, rfl⟩⟩
      rwa [exprs_of_ofRecords hg]

/-! ## Records of a forest -/

/-- No factors but those of roots. -/
def Plain (f : Forest α) : Prop :=
  ∀ i feature, f.get? i = some feature → feature.isRoot = false →
    feature.prefactor = 1 ∧ feature.unitPrefactor = 1

theorem Built.plain (hf : f.Built) : f.Plain := by
  have hpush : ∀ {f : Forest α} {last : Feature α}, f.Plain →
      (last.isRoot = false → last.prefactor = 1 ∧ last.unitPrefactor = 1) →
        (f.push last).Plain := by
    intro f last hf hlast i feature hget hroot
    rw [get?_push] at hget
    split at hget
    · cases hget
      exact hlast hroot
    · exact hf i feature hget hroot
  induction hf with
  | empty => simp [Plain, get?, Forest.empty]
  | addRoot _ h ih =>
    obtain ⟨_, rfl⟩ := addRoot_eq_ok.1 h
    exact hpush ih (by simp)
  | addNode _ h ih =>
    obtain ⟨_, _, _, rfl⟩ := addNode_eq_ok.1 h
    exact hpush ih fun _ => ⟨rfl, rfl⟩
  | @setScores f j _ _ _ _ h ih =>
    obtain ⟨_, rfl⟩ := setScores_eq_ok.1 h
    intro i feature hget hroot
    rw [get?_withScores] at hget
    obtain ⟨old, hold, rfl⟩ := Option.map_eq_some_iff.1 hget
    by_cases hij : j = i
    · rw [if_pos hij] at hroot ⊢
      exact ih i old hold hroot
    · rw [if_neg hij] at hroot ⊢
      exact ih i old hold hroot

omit [Arith α] in
theorem getElem?_toRecords (f : Forest α) (i : Nat) :
    f.toRecords[i]? = (f.get? i).map f.recordOf := by
  rw [toRecords, List.getElem?_map, Array.getElem?_toList, get?]

omit [Arith α] in
/-- The expressions of the parents are there. -/
theorem Sound.mem_parents_recordOf (hf : f.Sound) {i : Nat} {feature : Feature α}
    (hget : f.get? i = some feature) :
    (f.recordOf feature).parents.length = feature.parents.length ∧
      ∀ p ∈ (f.recordOf feature).parents, ∃ j q, j < i ∧ f.get? j = some q ∧ q.expr = p := by
  have hthere : ∀ p ∈ feature.parents, p < i ∧ ∃ q, f.get? p = some q := fun p hp => by
    have hlt := hf.earlier i feature hget p hp
    exact ⟨hlt, _, Array.getElem?_eq_getElem (Nat.lt_trans hlt (lt_size_of_get? hget))⟩
  constructor
  · refine List.filterMap_length_eq_length.2 fun p hp => ?_
    obtain ⟨_, q, hq⟩ := hthere p hp
    simp [hq]
  · intro expr hexpr
    obtain ⟨p, hp, hname⟩ := List.mem_filterMap.1 hexpr
    obtain ⟨q, hq, hname⟩ := Option.map_eq_some_iff.1 hname
    exact ⟨p, q, (hthere p hp).1, hq, hname⟩

omit [Arith α] in
/-- The records of a sound forest are well-formed. -/
theorem Sound.wellFormed_toRecords (hf : f.Sound) : WellFormed f.toRecords where
  known r hr := by
    obtain ⟨feature, _, rfl⟩ := List.mem_map.1 hr
    exact ⟨feature.op, rfl⟩
  distinct := map_expr_toRecords f ▸ hf.distinct
  root r hr hroot := by
    obtain ⟨i, hi⟩ := List.mem_iff_getElem?.1 hr
    rw [getElem?_toRecords] at hi
    obtain ⟨feature, hget, rfl⟩ := Option.map_eq_some_iff.1 hi
    exact congrArg Operator.symbol (hf.root i feature hget hroot).1
  operator i r hi hroot := by
    rw [getElem?_toRecords] at hi
    obtain ⟨feature, hget, rfl⟩ := Option.map_eq_some_iff.1 hi
    obtain ⟨hop, harity⟩ := hf.operator i feature hget hroot
    obtain ⟨hlength, hparents⟩ := hf.mem_parents_recordOf hget
    refine ⟨feature.op, hop, rfl, hlength.trans harity, fun p hp => ?_⟩
    obtain ⟨j, q, hj, hq, hexpr⟩ := hparents p hp
    exact ⟨j, f.recordOf q, hj, by rw [getElem?_toRecords, hq, Option.map_some], hexpr⟩

/-- A record of a plain forest has nothing that would be dropped. -/
theorem normalized_recordOf (hf : f.Sound) (hplain : f.Plain) {i : Nat} {feature : Feature α}
    (hget : f.get? i = some feature) :
    (f.recordOf feature).normalized = f.recordOf feature := by
  cases hroot : feature.isRoot with
  | true =>
    have hparents := (hf.root i feature hget hroot).2
    simp [FeatureRecord.normalized, recordOf, hroot, hparents]
  | false =>
    obtain ⟨hprefactor, hunit⟩ := hplain i feature hget hroot
    simp [FeatureRecord.normalized, recordOf, hroot, hprefactor, hunit]

/-- A record of a plain forest becomes the feature that it was written from. -/
theorem featureOf_recordOf (hf : f.Sound) (hplain : f.Plain) {i : Nat} {feature : Feature α}
    (hget : f.get? i = some feature) : f.featureOf (f.recordOf feature) = feature := by
  have hop : (Operator.ofSymbol? feature.op.symbol).getD .identity = feature.op := by
    rw [Operator.ofSymbol?_eq_some.2 rfl, Option.getD_some]
  have hparents : ((feature.parents.filterMap fun p => (f.get? p).map Feature.expr).filterMap
      f.indexOf?) = feature.parents := by
    rw [List.filterMap_filterMap]
    refine (List.filterMap_congr fun p hp => ?_).trans List.filterMap_some
    have hlt : p < f.size := Nat.lt_trans (hf.earlier i feature hget p hp) (lt_size_of_get? hget)
    have hp' : f.get? p = some f.features[p] := Array.getElem?_eq_getElem hlt
    rw [hp', Option.map_some, Option.bind_some]
    exact hf.indexOf?_eq_some.2 ⟨_, hp', rfl⟩
  have hroot : (if feature.isRoot then [] else feature.parents) = feature.parents := by
    split
    · exact (hf.root i feature hget ‹_›).2.symm
    · rfl
  have hfactors : (if feature.isRoot then feature.prefactor else 1) = feature.prefactor ∧
      (if feature.isRoot then feature.unitPrefactor else 1) = feature.unitPrefactor := by
    cases hisRoot : feature.isRoot with
    | true => exact ⟨rfl, rfl⟩
    | false =>
      obtain ⟨hprefactor, hunit⟩ := hplain i feature hget hisRoot
      exact ⟨hprefactor.symm, hunit.symm⟩
  rw [featureOf, recordOf]
  dsimp only
  rw [hop, hparents, hroot, hfactors.1, hfactors.2]

/-- The features of a plain forest, from its records. -/
theorem features_eq_map_featureOf (hf : f.Sound) (hplain : f.Plain) :
    f.features.toList = f.toRecords.map f.featureOf := by
  refine List.ext_getElem? fun i => ?_
  rw [List.getElem?_map, getElem?_toRecords, Array.getElem?_toList, Option.map_map]
  change f.get? i = _
  cases hget : f.get? i with
  | none => rfl
  | some feature =>
    rw [Option.map_some, Function.comp_apply, featureOf_recordOf hf hplain hget]

/-- What a record becomes depends on the expressions alone. -/
theorem featureOf_congr {g : Forest α}
    (hexprs : f.features.toList.map (·.expr) = g.features.toList.map (·.expr)) :
    f.featureOf = g.featureOf := by
  have hindex : ∀ (f : Forest α) (expr : String),
      f.indexOf? expr = (f.features.toList.map (·.expr)).findIdx? (· == expr) := by
    intro f expr
    rw [List.findIdx?_map]
    exact List.findIdx?_toArray _ f.features.toList
  have hsame : f.indexOf? = g.indexOf? := funext fun expr => by
    rw [hindex f, hindex g, hexprs]
  funext r
  rw [featureOf, featureOf, hsame]

/-- The records of a forest that was built make the forest again. -/
theorem Built.ofRecords_toRecords (hf : f.Built) : Forest.ofRecords f.toRecords = .ok f := by
  obtain ⟨g, hg⟩ := (exists_ofRecords_iff _).2 hf.sound.wellFormed_toRecords
  have hbuilt : g.Built := Built.ofRecords hg
  have hnormalized : f.toRecords.map FeatureRecord.normalized = f.toRecords := by
    refine (List.map_congr_left fun r hr => ?_).trans (List.map_id _)
    obtain ⟨i, hi⟩ := List.mem_iff_getElem?.1 hr
    rw [getElem?_toRecords] at hi
    obtain ⟨feature, hget, rfl⟩ := Option.map_eq_some_iff.1 hi
    exact normalized_recordOf hf.sound hf.plain hget
  have hrecords : g.toRecords = f.toRecords := (toRecords_of_ofRecords hg).trans hnormalized
  have hexprs : g.features.toList.map (·.expr) = f.features.toList.map (·.expr) := by
    rw [← map_expr_toRecords, hrecords, map_expr_toRecords]
  have hfeatures : g.features.toList = f.features.toList := by
    rw [features_eq_map_featureOf hbuilt.sound hbuilt.plain, hrecords, featureOf_congr hexprs,
      ← features_eq_map_featureOf hf.sound hf.plain]
  have hsame : g = f := congrArg Forest.mk (Array.toList_inj.1 hfeatures)
  rw [hg, hsame]

end Forest

/-! ## Records in place -/

section InPlace

open FeatureRecord (WellFormed)

variable {f : Forest α} {r : FeatureRecord α}

namespace ForestEdit

theorem on_resolveParents (f : Forest α) (expr : String) (ps : List String) :
    (resolveParents expr ps).on f.stored = (f.resolveParents expr ps, f.stored) := by
  induction ps with
  | nil => rfl
  | cons p ps ih =>
    rw [resolveParents, on_bind, on_read, Forest.indexOf?_stored, Forest.resolveParents]
    cases f.indexOf? p with
    | none => rfl
    | some i =>
      dsimp only
      rw [on_bind, ih]
      cases f.resolveParents expr ps <;> rfl

variable [Arith α]

theorem on_addUnscored (f : Forest α) (r : FeatureRecord α) (op : Operator) :
    (addUnscored r op).on f.stored = f.committed (f.addUnscored r op) := by
  rw [addUnscored, Forest.addUnscored]
  by_cases hroot : r.isRoot = true
  · rw [if_pos hroot, if_pos hroot]
    by_cases hop : op ≠ .identity
    · rw [if_pos hop, if_pos hop, on_read]
      rfl
    · rw [if_neg hop, if_neg hop]
      exact on_addRoot f _ _ _
  · rw [if_neg hroot, if_neg hroot, on_bind, on_resolveParents]
    cases f.resolveParents r.expr r.parents with
    | error fault => rfl
    | ok ps => exact on_addNode f _ op ps

/-- A record that is added to a fitting store leaves one that fits. -/
theorem result_addRecord (f : Forest α) (r : FeatureRecord α) :
    (addRecord r).result f.stored = (f.addRecord r).map Forest.stored := by
  rw [result, addRecord, Forest.addRecord]
  cases Operator.ofSymbol? r.op with
  | none => rfl
  | some op =>
    dsimp only
    rw [on_bind, on_addUnscored]
    cases f.addUnscored r op with
    | error fault => rfl
    | ok p =>
      rw [Forest.committed]
      dsimp only
      rw [on_setScores, Outcome.ok_bind]
      cases p.2.setScores p.1 r.quality r.coverage <;> rfl

end ForestEdit

namespace ForestStore

/-- Records are loaded into the store that fits their features. -/
theorem ofRecords_stored [Arith α] (rs : List (FeatureRecord α)) :
    ofRecords rs = (Forest.ofRecords rs).map Forest.stored := by
  have hrun : Outcome.Rel (fun s f => s = Forest.stored f)
      (ofRecords rs) (Forest.ofRecords rs) := by
    refine Outcome.Rel.foldlM rfl fun r _ s f hs => ?_
    subst hs
    rw [ForestEdit.result_addRecord]
    cases f.addRecord r with
    | error fault => exact .error fault
    | ok f' => exact .ok rfl
  generalize ofRecords rs = a at hrun ⊢
  generalize Forest.ofRecords rs = b at hrun ⊢
  cases hrun with
  | ok h => exact congrArg Except.ok h
  | error fault => rfl

/-- The expressions of features that are there. -/
theorem mapM_expr_stored {ps : List Nat} (hps : ∀ p ∈ ps, p < f.size) :
    (ps.mapM fun p => do
      return (← Outcome.ofOption (f.stored.get? p)).expr : Outcome ForestError (List String)) =
        .ok (ps.filterMap fun p => (f.get? p).map Feature.expr) := by
  induction ps with
  | nil => rfl
  | cons p ps ih =>
    obtain ⟨hp, hps⟩ := List.forall_mem_cons.1 hps
    have hget : f.get? p = some f.features[p] := Array.getElem?_eq_getElem hp
    have hget' : f.stored.get? p = some f.features[p] := hget
    rw [List.mapM_cons, hget', ih hps, List.filterMap_cons, hget]
    rfl

/-- A fitting store writes the records of its features. -/
theorem toRecords_stored (hf : f.Sound) : f.stored.toRecords = .ok f.toRecords := by
  have hrecord : ∀ feature ∈ f.features.toList,
      f.stored.recordOf feature = .ok (f.recordOf feature) := by
    intro feature hfeature
    rw [recordOf, mapM_expr_stored (hf.parents_lt_size hfeature)]
    rfl
  exact Outcome.mapM_ok hrecord

variable [Arith α]

/-- Records are accepted if and only if they are well-formed, and then the forest writes them again
without what is not kept of them.  So whatever calls have led to a forest, its records make the same
forest again, with its edges, its roots and the positions of its expressions. -/
theorem records_accepted_iff_wellFormed :
    (∀ rs : List (FeatureRecord α), ((∃ s, ofRecords rs = .ok s) ↔ WellFormed rs) ∧
      ∀ s, ofRecords rs = .ok s → s.toRecords = .ok (rs.map FeatureRecord.normalized)) ∧
    ∀ calls : List (ForestCall α), ∃ rs, (empty.afterCalls calls).toRecords = .ok rs ∧
      ofRecords rs = .ok (empty.afterCalls calls) := by
  refine ⟨fun rs => ⟨?_, fun s hs => ?_⟩, fun calls => ?_⟩
  · rw [← Forest.exists_ofRecords_iff, ofRecords_stored]
    cases Forest.ofRecords rs <;> simp [Except.map]
  · rw [ofRecords_stored] at hs
    obtain ⟨f, hf, rfl⟩ := Outcome.map_eq_ok.1 hs
    rw [toRecords_stored (Forest.Built.ofRecords hf).sound, Forest.toRecords_of_ofRecords hf]
  · obtain ⟨f, hf, hcalls⟩ := Forest.Built.empty.exists_afterCalls calls
    have hempty : (empty : ForestStore α) = Forest.empty.stored := rfl
    rw [hempty, hcalls]
    refine ⟨f.toRecords, toRecords_stored hf.sound, ?_⟩
    rw [ofRecords_stored, hf.ofRecords_toRecords]
    rfl

end ForestStore

end InPlace

end FeatureGraph
