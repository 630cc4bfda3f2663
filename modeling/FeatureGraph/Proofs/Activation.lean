import FeatureGraph.Proofs.Confinement
import FeatureGraph.Proofs.Selection

/-!
# Branches, one by one or all at once

Branches that are activated one after the other, in any order and however often, leave the graph
that is left by activating the ancestry of their nodes at once.

* `activateAlso` is what activating a branch does to a graph, as one change.  Two such changes are
  one (`activateAlso_activateAlso`), and from an inactive graph they are `activateOnly`.
* `IsBranch` is the closure of a node, and `exists_activateBranch` is the step.
* `exists_activateBranches` is the run over a list of nodes.
* `closed_activateAlso` says that a branch leaves no active node over an inactive one, and
  `bypassInactive_of_closed` counts the steps of a closed graph.
* `Reachable.branches_agree` puts them together, for graphs that actions lead to.
-/

namespace FeatureGraph

variable {ε α : Type}

/-- Entries that are there are set one after the other. -/
theorem Outcome.foldlM_store_true {column : Array Bool} {l : List Nat}
    (h : ∀ i ∈ l, i < column.size) :
    l.foldlM (fun column i => Outcome.store column i true) column =
      (.ok (column.mapIdx fun i b => b || l.contains i) : Outcome ε (Array Bool)) := by
  induction l generalizing column with
  | nil => exact congrArg Except.ok (Array.ext (by simp) fun i _ _ => by simp)
  | cons k l ih =>
    have hk := h k (by simp)
    rw [List.foldlM_cons, store_of_lt hk, ok_bind,
      ih fun i hi => by simpa using h i (List.mem_cons_of_mem _ hi)]
    refine congrArg Except.ok (Array.ext (by simp) fun i hi _ => ?_)
    by_cases hik : i = k
    · simp [hik]
    · simp [Array.getElem_set, hik, Ne.symm hik]

namespace NodeTable

variable {t : NodeTable α} {id : NodeId} {branch : List NodeId}

/-- A node and all nodes that it depends on, each once. -/
structure IsBranch (t : NodeTable α) (id : NodeId) (branch : List NodeId) : Prop where
  nodup : branch.Nodup
  inside : ∀ i ∈ branch, i < t.size
  mem : ∀ i, i ∈ branch ↔ t.Needs id i

theorem WellFormed.exists_branch (ht : t.WellFormed) (hid : id < t.size) :
    ∃ branch, (t.ancestry [id] : Outcome ε (List NodeId)) = .ok branch ∧
      t.IsBranch id branch := by
  have hstart : ∀ p ∈ [id], p < t.size := by simpa using hid
  obtain ⟨branch, hrun, hwalked⟩ := exists_ancestry (ε := ε) ht hstart
  refine ⟨branch, hrun, nodup_collectAncestry .nil hrun, hwalked.inside, fun i => ?_⟩
  rw [hwalked.mem_iff]
  simp

/-- A branch holds the parents of its nodes. -/
theorem IsBranch.parent_mem (h : t.IsBranch id branch) {i p : NodeId} (hi : i ∈ branch)
    (hp : p ∈ t.parentList i) : p ∈ branch :=
  (h.mem p).2 (((h.mem i).1 hi).tail hp)

theorem mem_flatten_branches {ids : List NodeId} {branches : List (List NodeId)}
    (h : List.Forall₂ t.IsBranch ids branches) {i : NodeId} :
    i ∈ branches.flatten ↔ ∃ id ∈ ids, t.Needs id i := by
  induction h with
  | nil => simp
  | cons hbranch _ ih => simp [hbranch.mem, ih]

end NodeTable

namespace Graph

variable {g : Graph α} {id : NodeId} {nodes : List NodeId}

/-! ## More active nodes -/

/-- The graph with some more nodes active. -/
def activateAlso (g : Graph α) (nodes : List NodeId) : Graph α :=
  g.withActive (g.table.active.mapIdx fun i b => b || nodes.contains i)

theorem activateAlso_activateAlso (g : Graph α) (nodes more : List NodeId) :
    (g.activateAlso nodes).activateAlso more = g.activateAlso (nodes ++ more) := by
  simp [activateAlso, withActive, Function.comp_def, Bool.or_assoc]

/-- Activating no more nodes only forgets the tape. -/
theorem activateAlso_nil (htape : g.tape = none) : g.activateAlso [] = g := by
  have hflags : g.table.active.mapIdx (fun i b => b || ([] : List NodeId).contains i) =
      g.table.active := Array.ext (by simp) fun i _ _ => by simp
  rw [activateAlso, hflags, withActive, ← htape]

/-- From a graph without active nodes on, the nodes that are activated are the active ones. -/
theorem activateAlso_setAllActive (g : Graph α) (nodes : List NodeId) :
    (g.setAllActive false).activateAlso nodes = g.activateOnly nodes := by
  have hflags : (g.table.active.map fun _ => false).mapIdx (fun i b => b || nodes.contains i) =
      g.table.active.mapIdx fun i _ => nodes.contains i :=
    Array.ext (by simp) fun i _ _ => by simp
  exact congrArg g.withActive hflags

theorem activateOnly_congr {kept : List NodeId} (h : ∀ i, i ∈ nodes ↔ i ∈ kept) :
    g.activateOnly nodes = g.activateOnly kept := by
  have hcontains : ∀ i, nodes.contains i = kept.contains i := fun i => by
    rw [Bool.eq_iff_iff, List.contains_iff_mem, List.contains_iff_mem, h]
  simp only [activateOnly, hcontains]

theorem isActive_activateAlso (g : Graph α) (nodes : List NodeId) (i : NodeId) :
    (g.activateAlso nodes).isActive i =
      (g.isActive i || (decide (i < g.table.active.size) && nodes.contains i)) := by
  by_cases hi : i < g.table.active.size <;> simp [isActive, activateAlso, withActive, hi]

theorem mem_activeIds_activateAlso (hg : g.table.WellFormed) {i : NodeId} :
    i ∈ (g.activateAlso nodes).table.activeIds ↔
      i ∈ g.table.activeIds ∨ i < g.size ∧ i ∈ nodes := by
  have hflag := g.isActive_activateAlso nodes i
  have hsize : g.table.active.size = g.size := hg.active
  unfold isActive at hflag
  rw [NodeTable.mem_activeIds_iff, NodeTable.mem_activeIds_iff, hflag, hsize]
  change i < g.size ∧ _ ↔ (i < g.size ∧ _) ∨ _
  by_cases hi : i < g.size <;> simp [hi]

/-- A branch leaves no active node over an inactive one. -/
theorem closed_activateAlso (hg : g.table.WellFormed) (hclosed : g.table.Closed)
    (hbranch : g.table.IsBranch id nodes) : (g.activateAlso nodes).table.Closed := by
  intro i hi p hp
  rw [mem_activeIds_activateAlso hg] at hi ⊢
  rcases hi with hi | ⟨_, hi⟩
  · exact .inl (hclosed i hi p hp)
  · have hmem : p ∈ nodes := hbranch.parent_mem hi hp
    exact .inr ⟨hbranch.inside p hmem, hmem⟩

/-! ## Branches -/

/-- Activating a branch answers its size. -/
theorem exists_activateBranch (hg : g.table.WellFormed) (hid : id < g.size) :
    ∃ branch, g.table.IsBranch id branch ∧
      (Edit.activateBranch id).on g = (.ok branch.length, g.activateAlso branch) := by
  obtain ⟨branch, hrun, hbranch⟩ := hg.exists_branch (ε := GraphError) hid
  refine ⟨branch, hbranch, ?_⟩
  have hinside : ∀ i ∈ branch, i < g.table.active.size := fun i hi =>
    hg.active.symm ▸ hbranch.inside i hi
  rw [Edit.on_activateBranch hg, activateBranch, checkNode_of_lt hid, Outcome.ok_bind, hrun,
    Outcome.ok_bind, Outcome.foldlM_store_true hinside]
  rfl

/-- Activating branches one after the other answers their sizes. -/
theorem exists_activateBranches (hg : g.table.WellFormed) (htape : g.tape = none)
    {ids : List NodeId} (hids : ∀ id ∈ ids, id < g.size) :
    ∃ branches, List.Forall₂ g.table.IsBranch ids branches ∧
      (ids.mapM Edit.activateBranch).on g =
        (.ok (branches.map List.length), g.activateAlso branches.flatten) := by
  induction ids generalizing g with
  | nil => exact ⟨[], .nil, congrArg _ (activateAlso_nil htape).symm⟩
  | cons id ids ih =>
    obtain ⟨branch, hbranch, hfirst⟩ := exists_activateBranch hg (hids id (by simp))
    have hnext : (g.activateAlso branch).table.WellFormed := hg.withActive (by simp)
    obtain ⟨branches, hbranches, hrest⟩ :=
      ih hnext rfl fun i hi => hids i (List.mem_cons_of_mem _ hi)
    -- activation flags have no part in what a branch is
    have hsame : List.Forall₂ g.table.IsBranch ids branches :=
      hbranches.imp fun _ _ h => ⟨h.nodup, h.inside, h.mem⟩
    refine ⟨branch :: branches, .cons hbranch hsame, ?_⟩
    rw [List.mapM_cons, Edit.on_bind, hfirst]
    dsimp only
    rw [Edit.on_bind, hrest, activateAlso_activateAlso]
    rfl

/-- A sound graph whose active set holds the parents of its nodes can be compiled, to a tape as
long as there are active nodes. -/
theorem bypassInactive_of_closed (hg : g.Sound) (hclosed : g.table.Closed) :
    (Edit.bypassInactive.on g).1 = .ok g.table.activeIds.length := by
  have hcompile : g.table.compile = .ok g.table.straightTape :=
    (NodeTable.compile_eq_ok_iff hg.table).2 ⟨hclosed, rfl⟩
  rw [Edit.on_bypassInactive, bypassInactive, hcompile, ← NodeTable.size_straightTape]
  rfl

/-! ## Both ways -/

/-- Some nodes and all that these need, if nothing else is active, can be compiled; the answer is
their number. -/
theorem exists_bypassInactive_activateOnly (hg : g.Sound) {roots kept : List NodeId}
    (hwalked : g.table.Walked [] roots kept) :
    ∃ m, (Edit.bypassInactive.on (g.activateOnly kept)).1 = .ok m ∧
      (m : ℕ∞) = {i | ∃ id ∈ roots, g.table.Needs id i}.encard := by
  have hsound := hg.activateOnly kept
  have hactive : ∀ i, i ∈ (g.activateOnly kept).table.activeIds ↔ i ∈ kept := fun i => by
    rw [Model.mem_activeIds_activateOnly hg]
    exact and_iff_right_of_imp (hwalked.inside i)
  have hclosed := Model.closed_activateOnly hg hwalked.closed
  refine ⟨_, bypassInactive_of_closed hsound hclosed, ?_⟩
  refine NodeTable.length_eq_encard (NodeTable.nodup_activeIds _) fun i => ?_
  rw [hactive, hwalked.mem_iff]

/-- Activating branches one by one agrees with activating all of their nodes at once.  Activating
the branch of a node answers how many nodes it needs, deactivates none and keeps the active set
closed.  Activating the branches of some nodes from an inactive graph on, in any order and however
often, leaves the graph that is left by activating their ancestry; and that can be compiled, to a
tape as long as the branches together. -/
theorem Reachable.branches_agree [Arith α] (hg : g.Reachable) :
    (∀ id < g.size, ∃ (n : Nat) (g' : Graph α),
      (Edit.activateBranch id).on g = (.ok n, g') ∧
        (n : ℕ∞) = {i | g.table.Needs id i}.encard ∧
        (∀ i, g.isActive i = true → g'.isActive i = true) ∧
        (g.table.Closed → g'.table.Closed)) ∧
    ∀ nodes : List NodeId, (∀ id ∈ nodes, id < g.size) →
      ∃ kept, (g.table.ancestry nodes : Outcome GraphError (List NodeId)) = .ok kept ∧
        ∀ ids : List NodeId, (∀ id, id ∈ ids ↔ id ∈ nodes) →
          ∃ (counts : List Nat) (g' : Graph α),
            (do Edit.setAllActive false; ids.mapM Edit.activateBranch : Edit α (List Nat)).on g =
              (.ok counts, g') ∧
            List.Forall₂ (fun id (n : Nat) => (n : ℕ∞) = {i | g.table.Needs id i}.encard)
              ids counts ∧
            g' = ((Edit.activateOnly kept).on g).2 ∧
            ∃ m, (Edit.bypassInactive.on g').1 = .ok m ∧
              (m : ℕ∞) = {i | ∃ id ∈ nodes, g.table.Needs id i}.encard := by
  have hsound := hg.sound
  have ht := hsound.table.wellFormed
  constructor
  · intro id hid
    obtain ⟨branch, hbranch, hrun⟩ := exists_activateBranch ht hid
    refine ⟨_, _, hrun, NodeTable.length_eq_encard hbranch.nodup hbranch.mem, fun i hi => ?_,
      fun hclosed => ?_⟩
    · rw [isActive_activateAlso, hi, Bool.true_or]
    · exact closed_activateAlso ht hclosed hbranch
  · intro nodes hnodes
    obtain ⟨kept, hkept, hwalked⟩ := NodeTable.exists_ancestry (ε := GraphError) ht hnodes
    refine ⟨kept, hkept, fun ids hids => ?_⟩
    have hoff : (g.setAllActive false).table.WellFormed := ht.withActive (by simp)
    obtain ⟨branches, hbranches, hrun⟩ :=
      exists_activateBranches hoff rfl fun id hid => hnodes id ((hids id).1 hid)
    have hunion : ∀ i, i ∈ branches.flatten ↔ i ∈ kept := fun i => by
      rw [NodeTable.mem_flatten_branches hbranches, hwalked.mem_iff]
      simp only [hids]
      rfl
    refine ⟨branches.map List.length, g.activateOnly kept, ?_, ?_, rfl, ?_⟩
    · change (ids.mapM Edit.activateBranch).on (g.setAllActive false) = _
      rw [hrun, activateAlso_setAllActive, activateOnly_congr hunion]
    · rw [List.forall₂_map_right_iff]
      exact hbranches.imp fun id branch h => NodeTable.length_eq_encard h.nodup h.mem
    · exact exists_bypassInactive_activateOnly hsound hwalked

/-- A power and an exponential of one input. -/
def twoBranches : List (Action Float) :=
  [.addInput "x", .addNode .pow [0] "power", .addNode .exp [0] "exp"]

/-- The branches of both, one of them twice. -/
theorem branches_agree_twoBranches : (run twoBranches).Reachable ∧
    ∃ (counts : List Nat) (kept : List NodeId) (m : Nat),
      (do Edit.setAllActive false; [2, 1, 2].mapM Edit.activateBranch :
          Edit Float (List Nat)).on (run twoBranches) =
        (.ok counts, ((Edit.activateOnly kept).on (run twoBranches)).2) ∧
      (Edit.bypassInactive.on ((Edit.activateOnly kept).on (run twoBranches)).2).1 = .ok m := by
  have hg := reachable_run twoBranches
  obtain ⟨kept, _, hagree⟩ := hg.branches_agree.2 [1, 2] (by decide)
  obtain ⟨counts, _, hrun, _, rfl, m, hm, _⟩ := hagree [2, 1, 2] fun id => by
    simp only [List.mem_cons, List.not_mem_nil, or_false]
    tauto
  exact ⟨hg, counts, kept, m, hrun, hm⟩

end Graph

end FeatureGraph
