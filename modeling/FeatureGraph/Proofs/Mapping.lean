import FeatureGraph.Proofs.Tip
import FeatureGraph.Proofs.Passes

/-!
# The mapping of lowered features

Lowering a forest that was built cannot fail, and the mapping it answers is complete and one to one.
Nothing is asked of the expressions, which may be names that other nodes are given.

* `ends_lower` is the chain of one feature, root or not.
* `Mapped` is what holds when the first features have been lowered: the mapping lists them in their
  order, their nodes increase, and they need all nodes there are.  `Mapped.lowerAt` is one feature.
* `Forest.Maps` is what this says of the whole forest, and `Forest.lower_maps` the run.
-/

namespace FeatureGraph

variable {α : Type}

/-- The node of the feature has constant parameters. -/
def Feature.Fixed (feature : Feature α) : Prop := feature.isRoot = true ∨ feature.op = .reciprocal

namespace Forest

variable {f : Forest α} {k : Nat}

theorem take_entries_succ {feature : Feature α} (hk : f.get? k = some feature) :
    f.entries.take (k + 1) = f.entries.take k ++ [(k, feature)] := by
  have hlt : k < f.entries.length := by simpa using lt_size_of_get? hk
  obtain ⟨hposition, hget⟩ := get?_of_getElem_entries hlt
  rw [List.take_succ_eq_append_getElem hlt]
  congr 2
  exact Prod.ext hposition (Option.some.inj (hget.symm.trans hk))

theorem lt_of_mem_take_entries {e : Nat × Feature α} (he : e ∈ f.entries.take k) : e.1 < k := by
  obtain ⟨i, hi, rfl⟩ := List.mem_iff_getElem.1 he
  have hi' : i < k ∧ i < f.entries.length := by simpa using hi
  rw [List.getElem_take, (get?_of_getElem_entries hi'.2).1]
  exact hi'.1

theorem map_fst_entries (f : Forest α) : f.entries.map (·.1) = List.range f.size := by
  refine List.ext_getElem (by simp) fun i hi _ => ?_
  have hlt : i < f.entries.length := by simpa using hi
  rw [List.getElem_map, (get?_of_getElem_entries hlt).1, List.getElem_range]

end Forest

/-! ## Lookups -/

/-- A list without repeated keys has one entry for each of them. -/
theorem find?_key_eq_some {β κ : Type} [BEq κ] [LawfulBEq κ] {key : β → κ} {l : List β}
    (hl : (l.map key).Nodup) {x : κ} {b : β} :
    l.find? (key · == x) = some b ↔ b ∈ l ∧ key b = x := by
  constructor
  · intro h
    exact ⟨List.mem_of_find?_eq_some h, by simpa using List.find?_some h⟩
  · rintro ⟨hb, rfl⟩
    obtain ⟨c, hc⟩ : ∃ c, l.find? (key · == key b) = some c :=
      Option.isSome_iff_exists.1 (List.find?_isSome.2 ⟨b, hb, by simp⟩)
    have heq : key c = key b := by simpa using List.find?_some hc
    rw [hc, List.inj_on_of_nodup_map hl (List.mem_of_find?_eq_some hc) hb heq]

namespace Lowering

open FeatureGraph.Graph

variable [Arith α] {f : Forest α} {k : Nat} {g g' : Graph α} {m : NodeMapping} {node : Nat → NodeId}

/-! ## One feature -/

/-- The chain of a feature ends in a node that is constant if the feature is fixed, and the one of
a root scales the next column. -/
theorem ends_lower (hg : g.Sound) {feature : Feature α} {operands : List NodeId} {id : NodeId}
    (hrun : lower g feature operands = .ok (id, g')) :
    Ends g g' id feature.Fixed ∧
      (feature.isRoot = true → ReadsColumn g'.table id g.nextColumn) := by
  unfold lower at hrun
  split at hrun
  · rename_i hroot
    have hfixed : feature.Fixed := .inl hroot
    obtain ⟨hends, hcolumn⟩ := ends_root hg (Outcome.mapFailure_eq_ok.1 hrun) hfixed
    exact ⟨hends, fun _ => hcolumn⟩
  · rename_i hroot
    split at hrun
    · cases hrun
    · have hends := ends_chain hg (Outcome.mapFailure_eq_ok.1 hrun)
      have hfixed : feature.Fixed ↔ feature.op = .reciprocal := or_iff_right hroot
      exact ⟨propext hfixed ▸ hends, fun hyes => absurd hyes hroot⟩

/-- The first `k` features have been lowered to the given nodes. -/
structure Mapped (f : Forest α) (k : Nat) (g : Graph α) (m : NodeMapping) (node : Nat → NodeId) :
    Prop where
  sound : g.Sound
  bindings : m.bindings = (f.entries.take k).map fun e => ⟨e.1, e.2.expr, node e.1⟩
  increasing : ∀ i j, i < j → j < k → node i < node j
  inside : ∀ i < k, node i < g.size
  column : ∀ i < k, ∀ feature, f.get? i = some feature → feature.isRoot = true →
    ReadsColumn g.table (node i) (f.rootsBefore i)
  covered : ∀ id < g.size, ∃ i < k, g.table.Needs (node i) id
  constant : ∀ id < g.size, g.table.constant[id]? = some true ↔
    ∃ i < k, node i = id ∧ ∃ feature, f.get? i = some feature ∧ feature.Fixed

omit [Arith α] in
theorem mapped_empty (f : Forest α) (node : Nat → NodeId) :
    Mapped f 0 (.empty : Graph α) {} node where
  sound := sound_empty
  bindings := by simp
  increasing _ j _ hj := absurd hj (Nat.not_lt_zero j)
  inside i hi := absurd hi (Nat.not_lt_zero i)
  column i hi := absurd hi (Nat.not_lt_zero i)
  covered id hid := absurd hid (Nat.not_lt_zero id)
  constant id hid := absurd hid (Nat.not_lt_zero id)

omit [Arith α] in
/-- One of the first features keeps its node, or it is the next one, whose node is new. -/
theorem update_cases {i : Nat} (hi : i < k + 1) (node : Nat → NodeId) (new : NodeId) :
    (i < k ∧ Function.update node k new i = node i) ∨
      (i = k ∧ Function.update node k new i = new) := by
  rcases Nat.lt_succ_iff_lt_or_eq.1 hi with hi | rfl
  · exact .inl ⟨hi, Function.update_of_ne (Nat.ne_of_lt hi) new node⟩
  · exact .inr ⟨rfl, Function.update_self i new node⟩

omit [Arith α] in
theorem exists_update_iff (P : Nat → NodeId → Prop) {new : NodeId} :
    (∃ i < k + 1, P i (Function.update node k new i)) ↔ (∃ i < k, P i (node i)) ∨ P k new := by
  rw [Nat.exists_lt_succ_right, Function.update_self]
  refine or_congr_left (exists_congr fun i => and_congr_right fun hi => ?_)
  rw [Function.update_of_ne (Nat.ne_of_lt hi)]

omit [Arith α] in
/-- The chain of the next feature has been added. -/
theorem Mapped.extend (h : Mapped f k g m node) (hcolumn : g.nextColumn = f.rootsBefore k)
    {feature : Feature α} (hk : f.get? k = some feature) {new : NodeId}
    (hends : Ends g g' new feature.Fixed)
    (hreads : feature.isRoot = true → ReadsColumn g'.table new g.nextColumn) :
    Mapped f (k + 1) g' ⟨m.bindings ++ [⟨k, feature.expr, new⟩]⟩ (Function.update node k new) where
  sound := hends.extension.sound
  bindings := by
    have hkept : ((f.entries.take k).map fun e =>
          (⟨e.1, e.2.expr, Function.update node k new e.1⟩ : Binding)) = m.bindings := by
      rw [h.bindings]
      refine List.map_congr_left fun e he => ?_
      rw [Function.update_of_ne (Nat.ne_of_lt (Forest.lt_of_mem_take_entries he))]
    rw [Forest.take_entries_succ hk, List.map_append, List.map_singleton, Function.update_self,
      hkept]
  increasing i j hij hj := by
    rcases update_cases hj node new with ⟨hj, hnode⟩ | ⟨rfl, hnode⟩
    · rw [hnode, Function.update_of_ne (Nat.ne_of_lt (Nat.lt_trans hij hj))]
      exact h.increasing i j hij hj
    · rw [hnode, Function.update_of_ne (Nat.ne_of_lt hij)]
      exact Nat.lt_of_lt_of_le (h.inside i hij) hends.new
  inside i hi := by
    rcases update_cases hi node new with ⟨hi, hnode⟩ | ⟨rfl, hnode⟩
    · rw [hnode]
      exact Nat.lt_of_lt_of_le (h.inside i hi) hends.extension.size
    · rw [hnode]
      exact Nat.lt_of_lt_of_eq (Nat.lt_succ_self new) hends.last.symm
  column i hi other hother hroot := by
    rcases update_cases hi node new with ⟨hi, hnode⟩ | ⟨rfl, hnode⟩
    · rw [hnode]
      exact (h.column i hi other hother hroot).extends h.sound hends.extension (h.inside i hi)
    · rw [hnode, ← hcolumn]
      exact hreads (Option.some.inj (hk.symm.trans hother) ▸ hroot)
  covered id hid := by
    -- a node that was there is needed by a node of an earlier feature, a new one by the tip
    refine (exists_update_iff fun _ tip => g'.table.Needs tip id).2 ?_
    rcases Nat.lt_or_ge id g.size with hlt | hge
    · obtain ⟨i, hi, hneeds⟩ := h.covered id hlt
      exact .inl ⟨i, hi, hends.extension.needs h.sound (h.inside i hi) hneeds⟩
    · exact .inr (hends.needs id hge hid)
  constant id hid := by
    refine Iff.trans ?_ (exists_update_iff fun i tip =>
      tip = id ∧ ∃ feature, f.get? i = some feature ∧ feature.Fixed).symm
    rcases Nat.lt_or_ge id g.size with hlt | hge
    · have hnew : new ≠ id := fun heq => Nat.not_le_of_lt hlt (heq ▸ hends.new)
      rw [hends.extension.constant id hlt, h.constant id hlt]
      exact (or_iff_left fun hlast => hnew hlast.1).symm
    · have hold : ∀ i < k, node i ≠ id := fun i hi =>
        Nat.ne_of_lt (Nat.lt_of_lt_of_le (h.inside i hi) hge)
      rw [hends.constant id hge hid, or_iff_right fun ⟨i, hi, hnode, _⟩ => hold i hi hnode]
      simp [hk, eq_comm]

/-- One feature more. -/
theorem Mapped.lowerAt (h : Mapped f k g m node) (hcolumn : g.nextColumn = f.rootsBefore k)
    {feature : Feature α} (hk : f.get? k = some feature) {s : Graph α × NodeMapping}
    (hrun : lowerAt f (g, m) k feature = .ok s) : ∃ node', Mapped f (k + 1) s.1 s.2 node' := by
  obtain ⟨operands, _, hrun⟩ := Outcome.bind_eq_ok.1 hrun
  obtain ⟨⟨new, g'⟩, hlower, hrun⟩ := Outcome.bind_eq_ok.1 hrun
  obtain ⟨m', hbind, hrun⟩ := Outcome.bind_eq_ok.1 hrun
  obtain rfl := Outcome.ok_eq_iff.1 hrun
  obtain ⟨rfl, _⟩ := of_bind_eq_ok hbind
  obtain ⟨hends, hreads⟩ := ends_lower h.sound hlower
  exact ⟨_, h.extend hcolumn hk hends hreads⟩

/-! ## All features -/

/-- Lowering a forest that was built maps all of its features. -/
theorem exists_mapped (hf : f.Sound) :
    ∃ g m node, f.lower.outcome = .ok (g, m) ∧ Mapped f f.size g m node := by
  obtain ⟨g, m, _, hrun, _⟩ := hf.exists_lower
  -- the column counter of the graph is known from the invariant of lowering
  let P : Nat → Graph α × NodeMapping → Prop := fun k s =>
    (∃ node, Lowered f k s.1 s.2 node) ∧ ∃ node, Mapped f k s.1 s.2 node
  have hstep : ∀ k feature s s', f.get? k = some feature → P k s →
      Lowering.lowerAt f s k feature = .ok s' → P (k + 1) s' := by
    rintro k feature ⟨g, m⟩ s' hk ⟨⟨_, hlowered⟩, _, hmapped⟩ hlower
    obtain ⟨g', m', node', hlower', hlowered'⟩ := exists_lowerAt hf hlowered hk
    obtain rfl := Except.ok.inj (hlower'.symm.trans hlower)
    exact ⟨⟨node', hlowered'⟩, hmapped.lowerAt hlowered.nextColumn hk hlower⟩
  have hempty : P 0 (.empty, {}) :=
    ⟨⟨_, lowered_empty f fun _ => 0⟩, _, mapped_empty f fun _ => 0⟩
  obtain ⟨_, node, hmapped⟩ := lowerFrom_keeps hstep hempty (Nat.zero_le _) hrun
  exact ⟨g, m, node, hrun, hmapped⟩

end Lowering

/-! ## What the mapping says -/

open Lowering

variable {f : Forest α} {g : Graph α} {m : NodeMapping} {node : Nat → NodeId}

/-- The graph and the mapping of a forest: the mapping binds every feature, in its order, to a node
of its own, and there are no nodes but these and what they need. -/
structure Forest.Maps (f : Forest α) (g : Graph α) (m : NodeMapping) (node : Nat → NodeId) :
    Prop where
  bindings : m.bindings = f.entries.map fun e => ⟨e.1, e.2.expr, node e.1⟩
  getIndex? : ∀ i id, m.getIndex? i = some id ↔ i < f.size ∧ node i = id
  get? : ∀ expr id, m.get? expr = some id ↔
    ∃ i feature, f.get? i = some feature ∧ feature.expr = expr ∧ node i = id
  inside : ∀ i < f.size, node i < g.size
  injective : ∀ i < f.size, ∀ j < f.size, node i = node j → i = j
  parents : ∀ i feature, f.get? i = some feature → ∀ p ∈ feature.parents, node p < node i
  /-- The root that stands at a place among the roots scales the column of that number. -/
  root : ∀ column i, f.roots[column]? = some i → f.rootColumn? i = some column ∧
    ∃ input, g.op (node i) = .ok .linear ∧ g.parents (node i) = .ok [input] ∧
      g.op input = .ok (.input column)
  covered : ∀ id < g.size, ∃ i < f.size, g.table.Needs (node i) id
  constant : ∀ id, g.isConstant id = true ↔
    ∃ i feature, f.get? i = some feature ∧ feature.Fixed ∧ node i = id
  power : ∀ i feature, f.get? i = some feature → feature.op = .reciprocal →
    g.op (node i) = .ok .pow

namespace Lowering.Mapped

theorem bindings_eq (h : Mapped f f.size g m node) :
    m.bindings = f.entries.map fun e => ⟨e.1, e.2.expr, node e.1⟩ := by
  rw [h.bindings, List.take_of_length_le (Nat.le_of_eq (Forest.length_entries f))]

theorem mem_bindings (h : Mapped f f.size g m node) {b : Binding} :
    b ∈ m.bindings ↔
      ∃ i feature, f.get? i = some feature ∧ b = ⟨i, feature.expr, node i⟩ := by
  rw [h.bindings_eq, List.mem_map]
  constructor
  · rintro ⟨⟨i, feature⟩, he, rfl⟩
    exact ⟨i, feature, Forest.mem_entries.1 he, rfl⟩
  · rintro ⟨i, feature, hi, rfl⟩
    exact ⟨(i, feature), Forest.mem_entries.2 hi, rfl⟩

theorem nodup_index (h : Mapped f f.size g m node) : (m.bindings.map (·.index)).Nodup := by
  have hindex : m.bindings.map (·.index) = List.range f.size := by
    rw [h.bindings_eq, List.map_map, ← Forest.map_fst_entries]
    rfl
  rw [hindex]
  exact List.nodup_range

theorem nodup_expr (h : Mapped f f.size g m node) (hf : f.Sound) :
    (m.bindings.map (·.expr)).Nodup := by
  have hexpr : m.bindings.map (·.expr) = f.features.toList.map (·.expr) := by
    rw [h.bindings_eq, List.map_map, ← Forest.map_snd_entries, List.map_map]
    rfl
  rw [hexpr]
  exact hf.distinct

/-- Both lookups answer the node of a feature. -/
theorem getIndex?_eq_some (h : Mapped f f.size g m node) {i : Nat} {id : NodeId} :
    m.getIndex? i = some id ↔ i < f.size ∧ node i = id := by
  rw [NodeMapping.getIndex?, Option.map_eq_some_iff]
  constructor
  · rintro ⟨b, hb, rfl⟩
    obtain ⟨hmem, rfl⟩ := (find?_key_eq_some h.nodup_index).1 hb
    obtain ⟨i, feature, hi, rfl⟩ := h.mem_bindings.1 hmem
    exact ⟨Forest.lt_size_of_get? hi, rfl⟩
  · rintro ⟨hi, rfl⟩
    have hget : f.get? i = some f.features[i] := Array.getElem?_eq_getElem hi
    exact ⟨⟨i, f.features[i].expr, node i⟩,
      (find?_key_eq_some h.nodup_index).2 ⟨h.mem_bindings.2 ⟨i, _, hget, rfl⟩, rfl⟩, rfl⟩

theorem get?_eq_some (h : Mapped f f.size g m node) (hf : f.Sound) {expr : String} {id : NodeId} :
    m.get? expr = some id ↔
      ∃ i feature, f.get? i = some feature ∧ feature.expr = expr ∧ node i = id := by
  rw [NodeMapping.get?, Option.map_eq_some_iff]
  constructor
  · rintro ⟨b, hb, rfl⟩
    obtain ⟨hmem, rfl⟩ := (find?_key_eq_some (h.nodup_expr hf)).1 hb
    obtain ⟨i, feature, hi, rfl⟩ := h.mem_bindings.1 hmem
    exact ⟨i, feature, hi, rfl, rfl⟩
  · rintro ⟨i, feature, hi, rfl, rfl⟩
    exact ⟨⟨i, feature.expr, node i⟩,
      (find?_key_eq_some (h.nodup_expr hf)).2 ⟨h.mem_bindings.2 ⟨i, feature, hi, rfl⟩, rfl⟩, rfl⟩

theorem injective (h : Mapped f f.size g m node) {i j : Nat} (hi : i < f.size) (hj : j < f.size)
    (heq : node i = node j) : i = j := by
  rcases Nat.lt_trichotomy i j with hlt | rfl | hlt
  · exact absurd heq (Nat.ne_of_lt (h.increasing i j hlt hj))
  · rfl
  · exact absurd heq.symm (Nat.ne_of_lt (h.increasing j i hlt hi))

/-- A root that stands at a place among the roots scales the column of that number. -/
theorem root (h : Mapped f f.size g m node) {column i : Nat} (hi : f.roots[column]? = some i) :
    f.rootColumn? i = some column ∧ ∃ input, g.op (node i) = .ok .linear ∧
      g.parents (node i) = .ok [input] ∧ g.op input = .ok (.input column) := by
  have hcolumn := Forest.getElem?_roots.1 hi
  obtain ⟨feature, hget, hroot, hbefore⟩ := Forest.rootColumn?_eq_some.1 hcolumn
  have hlt := Forest.lt_size_of_get? hget
  obtain ⟨input, hop, hparents, hinput⟩ := h.column i hlt feature hget hroot
  rw [hbefore] at hinput
  exact ⟨hcolumn, input, Graph.op_eq_ok.2 hop,
    (Graph.parents_eq_ok h.sound).2 ⟨h.inside i hlt, hparents.symm⟩, Graph.op_eq_ok.2 hinput⟩

theorem isConstant_eq_true (h : Mapped f f.size g m node) {id : NodeId} :
    g.isConstant id = true ↔
      ∃ i feature, f.get? i = some feature ∧ feature.Fixed ∧ node i = id := by
  have hflag : g.isConstant id = true ↔ g.table.constant[id]? = some true := by
    rw [Graph.isConstant]
    cases g.table.constant[id]? <;> simp
  rw [hflag]
  constructor
  · intro hconstant
    have hid : id < g.size :=
      Nat.lt_of_lt_of_eq (Array.getElem?_eq_some_iff.1 hconstant).1 h.sound.table.constant
    obtain ⟨i, _, hnode, feature, hget, hfixed⟩ := (h.constant id hid).1 hconstant
    exact ⟨i, feature, hget, hfixed, hnode⟩
  · rintro ⟨i, feature, hget, hfixed, rfl⟩
    have hlt := Forest.lt_size_of_get? hget
    exact (h.constant (node i) (h.inside i hlt)).2 ⟨i, hlt, rfl, feature, hget, hfixed⟩

end Lowering.Mapped

/-- Lowering a forest that was built cannot fail, and it maps the features one to one. -/
theorem Forest.lower_maps [Arith α] (hf : f.Built) :
    ∃ g m node, f.lower.outcome = .ok (g, m) ∧ f.Maps g m node := by
  obtain ⟨g, m, node, hrun, h⟩ := exists_mapped hf.sound
  refine ⟨g, m, node, hrun, ?_⟩
  have hpinned := pinned_lower hrun
  exact {
    bindings := h.bindings_eq
    getIndex? := fun i id => h.getIndex?_eq_some
    get? := fun expr id => h.get?_eq_some hf.sound
    inside := h.inside
    injective := fun i hi j hj => h.injective hi hj
    parents := fun i feature hi p hp =>
      h.increasing p i (hf.sound.earlier i feature hi p hp) (lt_size_of_get? hi)
    root := fun column i => h.root
    covered := h.covered
    constant := fun id => h.isConstant_eq_true
    power := fun i feature hi hop => by
      have hlt := lt_size_of_get? hi
      obtain ⟨id, hid, _, hpins⟩ := hpinned.features i hlt feature hi
      obtain ⟨_, rfl⟩ := h.getIndex?_eq_some.1 hid
      have hroot : feature.isRoot = false := by
        by_contra hroot
        have hidentity := (hf.sound.root i feature hi (by simpa using hroot)).1
        exact absurd (hidentity.symm.trans hop) nofun
      exact Graph.op_eq_ok.2 (hpins.reciprocal hroot hop).op }

section Example

variable [Arith α]

/-- Two columns and the reciprocal of the first; the second has the name of a node that is generated
for the first. -/
def columnsOfOneName : Forest α :=
  let f : Forest α := Forest.empty.push ⟨"a", .identity, [], true, 1, 1, 0, 0⟩
  let f := f.push ⟨"a.scale", .identity, [], true, 1, 1, 0, 0⟩
  f.push ⟨"1/a", .reciprocal, [0], false, 1, 1, 0, 0⟩

theorem built_columnsOfOneName : (columnsOfOneName : Forest α).Built := by
  have hfirst : (Forest.empty.push (⟨"a", .identity, [], true, 1, 1, 0, 0⟩ : Feature α)).Built :=
    Forest.Built.empty.pushRoot (by simp [Forest.empty])
  have hfresh : "a.scale" ∉ (Forest.empty.push
      (⟨"a", .identity, [], true, 1, 1, 0, 0⟩ : Feature α)).features.toList.map (·.expr) := by
    simp [Forest.push, Forest.empty]
  refine (hfirst.pushRoot hfresh).pushOperator ?_ ⟨by decide, rfl⟩ ?_
  · simp [Forest.push, Forest.empty]
  · simp [Forest.push, Forest.empty, Forest.size]

end Example

theorem lower_maps_columnsOfOneName : (columnsOfOneName : Forest Float).Built ∧
    ∃ g m node, (columnsOfOneName : Forest Float).lower.outcome = .ok (g, m) ∧
      columnsOfOneName.Maps g m node ∧ g.name (node 0) = .ok "a.scale" ∧
      m.get? "a.scale" = some (node 1) ∧ node 0 ≠ node 1 := by
  have hbuilt : (columnsOfOneName : Forest Float).Built := built_columnsOfOneName
  obtain ⟨g, m, node, hrun, hmaps⟩ := Forest.lower_maps hbuilt
  have hlabel : ((columnsOfOneName : Forest Float).lower.outcome.toOption.bind fun p =>
      (p.2.getIndex? 0).bind fun id => p.1.table.labels[id]?) = some "a.scale" := by decide +kernel
  have hfirst : m.getIndex? 0 = some (node 0) := (hmaps.getIndex? 0 (node 0)).2 ⟨by decide, rfl⟩
  rw [hrun] at hlabel
  simp only [Except.toOption, Option.bind_some, hfirst] at hlabel
  refine ⟨hbuilt, g, m, node, hrun, hmaps, ?_, ?_, ?_⟩
  · have hinside := Graph.checkNode_eq_ok.2 (hmaps.inside 0 (by decide))
    rw [Graph.name, hinside, Outcome.ok_bind, Outcome.fetch_eq_ok]
    exact hlabel
  · exact (hmaps.get? _ _).2 ⟨1, _, rfl, rfl, rfl⟩
  · exact fun heq => absurd (hmaps.injective 0 (by decide) 1 (by decide) heq) (by decide)

end FeatureGraph
