import FeatureGraph.Proofs.Symbolic

/-!
# Forests in place

What the edits of a stored forest do to it.  A store never differs from the one that fits its
features: `Forest.stored` tells what edges, positions and roots then are.

* `get?_…`, `indexOf?_stored`, `rootColumn?_stored` and `mem_sources` read off a fitting store.
* `stored_push` is a feature more, and `on_addRoot`, `on_addNode` and `on_setScores` say that an
  edit does what the operation of the same name does to the features, and nothing if it fails.
* `ForestCall` lists the edits.  `exists_perform` is one call, and `exists_afterCalls` any sequence.
  `exists_calls` is the way back: every fitting store is one that calls lead to.
-/

namespace FeatureGraph

variable {α : Type}

namespace Forest

variable {f : Forest α} {i p : Nat} {expr : String}

/-! ## The fitting store -/

theorem mem_roots : i ∈ f.roots ↔ ∃ feature, f.get? i = some feature ∧ feature.isRoot = true := by
  rw [roots, List.mem_filter, List.mem_range, isRootAt_eq_true]
  refine and_iff_right_of_imp fun hroot => ?_
  obtain ⟨feature, hget, _⟩ := hroot
  exact lt_size_of_get? hget

theorem pairwise_roots (f : Forest α) : f.roots.Pairwise (· < ·) :=
  List.pairwise_lt_range.filter _

theorem length_roots (f : Forest α) : f.roots.length = f.rootCount := by
  rw [rootCount, rootsBefore_eq_countP (Nat.le_refl _), roots, List.countP_eq_length_filter]

theorem rootCount_stored (f : Forest α) : f.stored.rootCount = f.rootCount := length_roots f

/-- The place of a root among the roots is the number of roots before it. -/
theorem rootColumn?_stored (f : Forest α) (i : Nat) : f.stored.rootColumn? i = f.rootColumn? i := by
  have hnodup : f.roots.Nodup := (pairwise_roots f).imp Nat.ne_of_lt
  refine Option.ext fun k => ?_
  rw [← getElem?_roots, ForestStore.rootColumn?, List.findIdx?_eq_some_iff_getElem]
  constructor
  · rintro ⟨hk, heq, _⟩
    exact List.getElem?_eq_some_iff.2 ⟨hk, beq_iff_eq.1 heq⟩
  · intro hget
    obtain ⟨hk, rfl⟩ := List.getElem?_eq_some_iff.1 hget
    refine ⟨hk, beq_self_eq_true _, fun j hj heq => ?_⟩
    have hlt : j < f.roots.length := Nat.lt_trans hj hk
    have hsame : f.roots[j] = f.roots[k] := by simpa [stored] using heq
    exact Nat.ne_of_lt hj ((hnodup.getElem_inj_iff).1 hsame)

theorem lookup_zipIdx {β : Type} {key : β → String} {l : List β} {n : Nat} :
    ((l.zipIdx n).map fun e => (key e.1, e.2)).lookup expr =
      (l.findIdx? (key · == expr)).map (· + n) := by
  induction l generalizing n with
  | nil => rfl
  | cons b l ih =>
    rw [List.zipIdx_cons, List.map_cons, List.lookup_cons, List.findIdx?_cons, ih, Bool.beq_comm]
    cases hkey : key b == expr with
    | true => simp
    | false => simp [Function.comp_def, Nat.add_comm 1, Nat.add_assoc]

/-- The first position of an expression. -/
theorem indexOf?_stored (f : Forest α) (expr : String) :
    f.stored.indexOf? expr = f.indexOf? expr := by
  have hpositions : f.stored.positions = f.features.toList.zipIdx.map fun e => (e.1.expr, e.2) := by
    simp [stored, entries, Function.comp_def]
  have hlist : f.features.toList.findIdx? (·.expr == expr) = f.indexOf? expr :=
    (List.findIdx?_toArray _ f.features.toList).symm
  rw [ForestStore.indexOf?, hpositions, lookup_zipIdx, hlist]
  simp

theorem mem_edges : (p, i) ∈ f.stored.edges ↔ p ∈ f.parents i := by
  simp only [stored, List.mem_flatMap, List.mem_map, Prod.mk.injEq]
  constructor
  · rintro ⟨⟨_, feature⟩, he, q, hq, rfl, rfl⟩
    rw [parents, mem_entries.1 he]
    exact hq
  · intro hp
    rw [parents] at hp
    split at hp
    · rename_i feature hget
      exact ⟨(i, feature), mem_entries.2 hget, p, hp, rfl, rfl⟩
    · cases hp

/-- Edges lead to a feature from its parents. -/
theorem mem_sources : p ∈ f.stored.sources i ↔ p ∈ f.parents i := by
  rw [← mem_edges, ForestStore.sources]
  simp

/-! ## Changes of the fitting store -/

theorem entries_push (f : Forest α) (feature : Feature α) :
    (f.push feature).entries = f.entries ++ [(f.size, feature)] := by
  simp [entries, push, List.zipIdx_append, size]

theorem roots_push (f : Forest α) (feature : Feature α) :
    (f.push feature).roots = f.roots ++ if feature.isRoot then [f.size] else [] := by
  have hsize : (f.push feature).size = f.size + 1 := by simp [push, size]
  have hbefore : ∀ i ∈ List.range f.size, (f.push feature).isRootAt i = f.isRootAt i := by
    intro i hi
    rw [isRootAt, get?_push, if_neg (Nat.ne_of_lt (List.mem_range.1 hi)), isRootAt]
  have hlast : (f.push feature).isRootAt f.size = feature.isRoot := by
    rw [isRootAt, get?_push, if_pos rfl]
    rfl
  rw [roots, hsize, List.range_succ, List.filter_append, List.filter_congr hbefore, roots,
    List.filter_singleton, hlast]
  cases feature.isRoot <;> rfl

/-- The store that fits a feature more. -/
theorem stored_push (f : Forest α) (feature : Feature α) : (f.push feature).stored =
    { features := f.features.push feature
      edges := f.stored.edges ++ feature.parents.map fun p => (p, f.size)
      positions := f.stored.positions ++ [(feature.expr, f.size)]
      roots := f.stored.roots ++ if feature.isRoot then [f.size] else [] } := by
  simp only [stored, entries_push, roots_push, List.flatMap_append, List.map_append,
    List.flatMap_singleton, List.map_singleton]
  rfl

theorem get?_withScores {j : Nat} {quality coverage : α} :
    (f.withScores i quality coverage).get? j =
      (f.get? j).map fun feature =>
        if i = j then { feature with quality, coverage } else feature := by
  rw [get?, withScores, Array.getElem?_modify, get?]
  split <;> simp

/-- Nothing but scores is changed by scores. -/
theorem map_entries_withScores {β : Type} {g : Nat × Feature α → β}
    (hg : ∀ i feature quality coverage, g (i, { feature with quality, coverage }) = g (i, feature))
    {quality coverage : α} :
    (f.withScores i quality coverage).entries.map g = f.entries.map g := by
  refine List.ext_getElem (by simp [withScores, size]) fun k hk hk' => ?_
  have hlt : k < (f.withScores i quality coverage).entries.length := by simpa using hk
  have hlt' : k < f.entries.length := by simpa using hk'
  obtain ⟨hposition, hget⟩ := get?_of_getElem_entries hlt
  obtain ⟨hposition', hget'⟩ := get?_of_getElem_entries hlt'
  rw [get?_withScores, hget', Option.map_some, Option.some.injEq] at hget
  have hentry : (f.withScores i quality coverage).entries[k] =
      (k, if i = k then { (f.entries[k]).2 with quality, coverage } else (f.entries[k]).2) :=
    Prod.ext hposition hget.symm
  have hentry' : f.entries[k] = (k, (f.entries[k]).2) := Prod.ext hposition' rfl
  rw [List.getElem_map, List.getElem_map, hentry, hentry']
  split
  · exact hg k _ quality coverage
  · rfl

theorem stored_withScores {quality coverage : α} : (f.withScores i quality coverage).stored =
    { f.stored with features := (f.withScores i quality coverage).features } := by
  have hedges : (f.withScores i quality coverage).stored.edges = f.stored.edges := by
    simp only [stored, List.flatMap_def]
    rw [map_entries_withScores fun _ _ _ _ => rfl]
  have hpositions : (f.withScores i quality coverage).stored.positions = f.stored.positions :=
    map_entries_withScores fun _ _ _ _ => rfl
  have hroots : (f.withScores i quality coverage).roots = f.roots := by
    have hsize : (f.withScores i quality coverage).size = f.size := by simp [withScores, size]
    have hroot : ∀ j ∈ List.range f.size, (f.withScores i quality coverage).isRootAt j =
        f.isRootAt j := by
      intro j _
      rw [isRootAt, get?_withScores, isRootAt]
      cases f.get? j with
      | none => rfl
      | some feature =>
        rw [Option.map_some]
        split <;> rfl
    rw [roots, hsize, List.filter_congr hroot, roots]
  exact ForestStore.ext rfl hedges hpositions hroots

/-- What an operation on the features makes of the fitting store: the one that fits the new
features, or the old one if it fails. -/
def committed {β : Type} (f : Forest α) :
    Outcome ForestError (β × Forest α) → Outcome ForestError β × ForestStore α
  | .ok (b, f') => (.ok b, f'.stored)
  | .error fault => (.error fault, f.stored)

end Forest

/-! ## Edits -/

namespace ForestEdit

variable {β γ : Type} {f : Forest α} {s : ForestStore α} {i : Nat} {expr : String}

@[simp] theorem on_pure (b : β) (s : ForestStore α) : on (pure b) s = (.ok b, s) := rfl

/-- One edit after another: the second one starts from what the first one leaves behind. -/
theorem on_bind (e : ForestEdit α β) (k : β → ForestEdit α γ) (s : ForestStore α) :
    on (e >>= k) s =
      match e.on s with
      | (.ok b, s') => (k b).on s'
      | (.error fault, s') => (.error fault, s') := by
  rw [on, Outcome.run_bind, on]
  rcases e.run.run s with ⟨_ | _, _⟩ <;> rfl

/-- Reading changes nothing. -/
@[simp] theorem on_read (k : ForestStore α → Outcome ForestError β) (s : ForestStore α) :
    on (read k) s = (k s, s) := by
  have hget : on (get : ForestEdit α (ForestStore α)) s = (.ok s, s) := rfl
  rw [read, on_bind, hget]
  dsimp only
  cases k s <;> rfl

@[simp] theorem on_write (k : ForestStore α → ForestStore α) (s : ForestStore α) :
    on (write k) s = (.ok (), k s) :=
  rfl

@[simp] theorem on_push (feature : Feature α) (s : ForestStore α) :
    (push feature).on s = (.ok s.size, { s with features := s.features.push feature }) :=
  rfl

theorem on_checkUnique (f : Forest α) (expr : String) :
    (checkUnique expr).on f.stored = (f.checkFresh expr, f.stored) := by
  rw [checkUnique, on_read, Forest.checkFresh]
  cases hindex : f.indexOf? expr <;> simp [Forest.indexOf?_stored, hindex]

/-- Edges to a feature are added in the order of its parents. -/
theorem on_forM_connect {features : Array (Feature α)} {ps : List Nat} (hi : i < features.size)
    (hps : ∀ p ∈ ps, p < features.size) (edges : List (Nat × Nat)) (positions : List (String × Nat))
    (roots : List Nat) :
    on (ps.forM fun p => connect p i) ⟨features, edges, positions, roots⟩ =
      (.ok (), ⟨features, edges ++ ps.map fun p => (p, i), positions, roots⟩) := by
  induction ps generalizing edges with
  | nil => simp
  | cons p ps ih =>
    have hinside : p < features.size ∧ i < features.size := ⟨hps p (by simp), hi⟩
    have hconnect : (connect p i).on ⟨features, edges, positions, roots⟩ =
        (.ok (), ⟨features, edges ++ [(p, i)], positions, roots⟩) := by
      rw [connect, on_bind, on_read]
      simp [ForestStore.size, hinside]
    change on (connect p i >>= fun _ => ps.forM fun p => connect p i) _ = _
    rw [on_bind, hconnect]
    dsimp only
    rw [ih (fun q hq => hps q (List.mem_cons_of_mem _ hq)), List.append_assoc]
    rfl

/-- The expression of a fresh feature is entered behind the others, whatever else has been written
before. -/
theorem on_enter (hfresh : f.checkFresh expr = .ok ()) (features : Array (Feature α))
    (edges : List (Nat × Nat)) (roots : List Nat) :
    (enter expr i).on ⟨features, edges, f.stored.positions, roots⟩ =
      (.ok (), ⟨features, edges, f.stored.positions ++ [(expr, i)], roots⟩) := by
  have hnone : f.indexOf? expr = none := by
    unfold Forest.checkFresh at hfresh
    cases hindex : f.indexOf? expr with
    | none => rfl
    | some i =>
      rw [hindex] at hfresh
      cases hfresh
  have hlookup : f.stored.positions.lookup expr = none :=
    (Forest.indexOf?_stored f expr).trans hnone
  simp [enter, ForestStore.indexOf?, hlookup]

variable [Arith α]

theorem on_addRoot (f : Forest α) (expr : String) (a b : α) :
    (addRoot expr a b).on f.stored = f.committed (f.addRoot expr a b) := by
  rw [addRoot, on_bind, on_checkUnique, Forest.addRoot]
  cases hfresh : f.checkFresh expr with
  | error fault => rfl
  | ok _ =>
    dsimp only
    rw [on_bind, on_push]
    dsimp only
    rw [on_bind, on_enter hfresh]
    refine congrArg (Prod.mk _) (Eq.trans ?_ (Forest.stored_push f _).symm)
    exact ForestStore.ext rfl (List.append_nil _).symm rfl rfl

theorem on_addNode (f : Forest α) (expr : String) (op : Operator) (ps : List Nat) :
    (addNode expr op ps).on f.stored = f.committed (f.addNode expr op ps) := by
  rw [addNode, on_bind, on_checkUnique, Forest.addNode]
  cases hfresh : f.checkFresh expr with
  | error fault => rfl
  | ok _ =>
    dsimp only
    rw [on_bind, on_read, Outcome.ok_bind]
    cases Forest.checkArity expr op ps.length with
    | error fault => rfl
    | ok _ =>
      dsimp only
      rw [on_bind, on_read, Outcome.ok_bind]
      have hforest : f.stored.forest = f := rfl
      rw [hforest]
      cases hparents : f.checkParents expr ps with
      | error fault => rfl
      | ok _ =>
        have hps := Forest.checkParents_eq_ok.1 hparents
        have hlast : f.stored.size <
            (f.stored.features.push ⟨expr, op, ps, false, 1, 1, 0, 0⟩).size := by
          simp [ForestStore.size]
        have hinside : ∀ p ∈ ps, p <
            (f.stored.features.push ⟨expr, op, ps, false, 1, 1, 0, 0⟩).size :=
          fun p hp => Nat.lt_trans (hps p hp) hlast
        dsimp only
        rw [on_bind, on_push]
        dsimp only
        rw [on_bind, on_forM_connect hlast hinside]
        dsimp only
        rw [on_bind, on_enter hfresh]
        refine congrArg (Prod.mk _) (Eq.trans ?_ (Forest.stored_push f _).symm)
        exact ForestStore.ext rfl rfl rfl (List.append_nil _).symm

omit [Arith α] in
theorem on_setScores (f : Forest α) (i : Nat) (quality coverage : α) :
    (setScores i quality coverage).on f.stored =
      f.committed ((f.setScores i quality coverage).map fun f' => ((), f')) := by
  rw [setScores, on_bind, on_read]
  by_cases hi : i < f.size
  · have hmodify : (f.features.modify i fun feature => { feature with quality }).modify i
        (fun feature => { feature with coverage }) =
          (f.withScores i quality coverage).features := by
      refine Array.ext (by simp [Forest.withScores]) fun j _ _ => ?_
      simp only [Forest.withScores, Array.getElem_modify]
      split <;> rfl
    rw [Forest.setScores_eq_ok.2 ⟨hi, rfl⟩, if_pos (show i < f.stored.size from hi)]
    refine congrArg (Prod.mk _) (Eq.trans ?_ Forest.stored_withScores.symm)
    exact ForestStore.ext hmodify rfl rfl rfl
  · rw [Forest.setScores, dif_neg (show ¬i < f.features.size from hi),
      if_neg (show ¬i < f.stored.size from hi)]
    rfl

end ForestEdit

/-! ## Calls -/

/-- A call that changes a forest. -/
inductive ForestCall (α : Type) where
  | addRoot (expr : String) (prefactor unitPrefactor : α)
  | addNode (expr : String) (op : Operator) (parents : List Nat)
  | setScores (i : Nat) (quality coverage : α)

section Calls

variable [Arith α] {f : Forest α}

/-- A call as an edit; answers the position of a new feature. -/
def ForestEdit.perform : ForestCall α → ForestEdit α (Option Nat)
  | .addRoot expr prefactor unitPrefactor => some <$> addRoot expr prefactor unitPrefactor
  | .addNode expr op parents => some <$> addNode expr op parents
  | .setScores i quality coverage => (fun _ => none) <$> setScores i quality coverage

/-- A call as an operation on the features. -/
def Forest.perform (f : Forest α) : ForestCall α → Outcome ForestError (Option Nat × Forest α)
  | .addRoot expr a b => (f.addRoot expr a b).map fun p => (some p.1, p.2)
  | .addNode expr op ps => (f.addNode expr op ps).map fun p => (some p.1, p.2)
  | .setScores i quality coverage => (f.setScores i quality coverage).map fun f' => (none, f')

omit [Arith α] in
/-- What becomes of an edit that answers something else. -/
theorem ForestEdit.on_map {β γ : Type} {e : ForestEdit α β}
    {outcome : Outcome ForestError (β × Forest α)} (k : β → γ)
    (he : e.on f.stored = f.committed outcome) :
    on (k <$> e) f.stored = f.committed (outcome.map fun p => (k p.1, p.2)) := by
  rw [map_eq_pure_bind, on_bind, he]
  cases outcome <;> rfl

/-- A call does the same to a fitting store as to its features, and nothing if it fails. -/
theorem ForestEdit.on_perform (f : Forest α) (call : ForestCall α) :
    (perform call).on f.stored = f.committed (f.perform call) := by
  cases call with
  | addRoot expr a b => exact on_map some (on_addRoot f expr a b)
  | addNode expr op ps => exact on_map some (on_addNode f expr op ps)
  | setScores i quality coverage =>
    rw [perform, on_map _ (on_setScores f i quality coverage), Forest.perform]
    cases f.setScores i quality coverage <;> rfl

/-- A call leads from a forest that was built to another one. -/
theorem Forest.Built.perform (hf : f.Built) {call : ForestCall α} {p : Option Nat × Forest α}
    (hrun : f.perform call = .ok p) : p.2.Built := by
  cases call with
  | addRoot expr a b =>
    obtain ⟨q, hq, rfl⟩ := Outcome.map_eq_ok.1 hrun
    exact hf.addRoot hq
  | addNode expr op ps =>
    obtain ⟨q, hq, rfl⟩ := Outcome.map_eq_ok.1 hrun
    exact hf.addNode hq
  | setScores i quality coverage =>
    obtain ⟨f', hf', rfl⟩ := Outcome.map_eq_ok.1 hrun
    exact hf.setScores hf'

omit [Arith α] in
theorem Forest.safe_checkParents {expr : String} (ps : List Nat) :
    Outcome.Safe (f.checkParents expr ps) := by
  induction ps with
  | nil => exact Outcome.safe_ok ()
  | cons p ps ih =>
    rw [checkParents]
    split
    · exact ih
    · exact Outcome.safe_fail _

/-- A call fails for a stated reason only. -/
theorem Forest.safe_perform (f : Forest α) (call : ForestCall α) :
    Outcome.Safe (f.perform call) := by
  have hfresh : ∀ expr, Outcome.Safe (f.checkFresh expr) := by
    intro expr
    unfold Forest.checkFresh
    split
    · exact Outcome.safe_fail _
    · exact Outcome.safe_ok ()
  cases call with
  | addRoot expr a b => exact Outcome.Safe.map ((hfresh expr).bind fun _ _ => Outcome.safe_ok _) _
  | addNode expr op ps =>
    have harity : Outcome.Safe (checkArity expr op ps.length) := by
      unfold checkArity
      split
      · exact Outcome.safe_fail _
      · split
        · exact Outcome.safe_fail _
        · exact Outcome.safe_ok ()
    exact Outcome.Safe.map ((hfresh expr).bind fun _ _ => harity.bind fun _ _ =>
      (safe_checkParents ps).bind fun _ _ => Outcome.safe_ok _) _
  | setScores i quality coverage =>
    have hset : Outcome.Safe (f.setScores i quality coverage) := by
      unfold setScores
      split
      · exact Outcome.safe_ok _
      · exact Outcome.safe_fail _
    exact hset.map _

/-- The stored forest after some calls, successful or not. -/
def ForestStore.afterCalls (s : ForestStore α) (calls : List (ForestCall α)) : ForestStore α :=
  calls.foldl (fun s call => ((ForestEdit.perform call).on s).2) s

theorem ForestStore.afterCalls_concat (s : ForestStore α) (calls : List (ForestCall α))
    (call : ForestCall α) : s.afterCalls (calls ++ [call]) =
      ((ForestEdit.perform call).on (s.afterCalls calls)).2 := by
  simp [afterCalls]

/-- One call leaves a store behind that fits a forest that was built. -/
theorem Forest.Built.exists_perform (hf : f.Built) (call : ForestCall α) :
    ∃ f' : Forest α, f'.Built ∧ ((ForestEdit.perform call).on f.stored).2 = f'.stored := by
  rw [ForestEdit.on_perform]
  cases hrun : f.perform call with
  | error fault => exact ⟨f, hf, rfl⟩
  | ok p => exact ⟨p.2, hf.perform hrun, rfl⟩

/-- So do any calls. -/
theorem Forest.Built.exists_afterCalls (hf : f.Built) (calls : List (ForestCall α)) :
    ∃ f' : Forest α, f'.Built ∧ f.stored.afterCalls calls = f'.stored := by
  induction calls generalizing f with
  | nil => exact ⟨f, hf, rfl⟩
  | cons call calls ih =>
    obtain ⟨f', hf', hcall⟩ := hf.exists_perform call
    obtain ⟨f'', hf'', hcalls⟩ := ih hf'
    refine ⟨f'', hf'', ?_⟩
    rw [ForestStore.afterCalls, List.foldl_cons, hcall]
    exact hcalls

/-- Conversely, the store that fits a forest is one that calls lead to. -/
theorem Forest.Built.exists_calls (hf : f.Built) :
    ∃ calls : List (ForestCall α), ForestStore.empty.afterCalls calls = f.stored := by
  have hstep : ∀ {f f' : Forest α} {answer : Option Nat} (call : ForestCall α),
      (∃ calls : List (ForestCall α), ForestStore.empty.afterCalls calls = f.stored) →
      f.perform call = .ok (answer, f') →
        ∃ calls : List (ForestCall α), ForestStore.empty.afterCalls calls = f'.stored := by
    rintro f f' answer call ⟨calls, hcalls⟩ hrun
    refine ⟨calls ++ [call], ?_⟩
    rw [ForestStore.afterCalls_concat, hcalls, ForestEdit.on_perform, hrun]
    rfl
  induction hf with
  | empty => exact ⟨[], rfl⟩
  | @addRoot f expr a b p _ h ih =>
    exact hstep (.addRoot expr a b) ih (by rw [Forest.perform, h]; rfl)
  | @addNode f expr op ps p _ h ih =>
    exact hstep (.addNode expr op ps) ih (by rw [Forest.perform, h]; rfl)
  | @setScores f i quality coverage f' _ h ih =>
    exact hstep (.setScores i quality coverage) ih (by rw [Forest.perform, h]; rfl)

end Calls

end FeatureGraph
