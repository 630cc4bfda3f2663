import FeatureGraph.Proofs.Selection

/-!
# Nodes with constant parameters

Lowering makes the scalings of roots and the exponents of reciprocals constant, and whatever
is added to the graph later leaves them as they are.

* `Extends` is the frame of an addition at the end of a graph, and `Appends` says of an operation
  that, if it succeeds, it is one, together with what it answers.  `Appends.bind` puts two of them
  together.
* `appends_chain` and `appends_root` are the chains of features, `Lowering.Pinned` is what holds
  when some features have been lowered, and `pinned_lower` the run.  `lowerFrom_keeps` is the
  induction, for anything that lowering one feature keeps.
* `pinned_of_select` carries it through the selection of features.

Nothing is asked of the forest: the lemmas speak of what a successful run has done.
-/

namespace FeatureGraph

variable {α : Type}

/-- A constant node with the given parameters. -/
structure NodeTable.Pinned (t : NodeTable α) (id : NodeId) (op : Primitive) (params : List α) :
    Prop where
  op : t.ops[id]? = some op
  params : t.params[id]? = some params
  constant : t.constant[id]? = some true

/-- Activation does not matter. -/
theorem NodeTable.Pinned.withActive {t : NodeTable α} {id : NodeId} {op : Primitive}
    {params : List α} (h : t.Pinned id op params) (active : Array Bool) :
    NodeTable.Pinned { t with active } id op params := ⟨h.op, h.params, h.constant⟩

namespace Graph

variable {g g' g'' : Graph α}

/-- The second graph is the first one with nodes added at the end. -/
structure Extends (g g' : Graph α) : Prop where
  sound : g'.Sound
  size : g.size ≤ g'.size
  agree : NodeTable.Agree g.size g.table g'.table
  constant : ∀ i < g.size, g'.table.constant[i]? = g.table.constant[i]?

theorem Extends.trans (h : Extends g g') (h' : Extends g' g'') : Extends g g'' where
  sound := h'.sound
  size := Nat.le_trans h.size h'.size
  agree := h.agree.trans h'.agree h.size
  constant i hi := (h'.constant i (Nat.lt_of_lt_of_le hi h.size)).trans (h.constant i hi)

/-- The nodes that were there stay pinned. -/
theorem Extends.pinned (h : Extends g g') {id : NodeId} (hid : id < g.size) {op : Primitive}
    {params : List α} (hpinned : g.table.Pinned id op params) : g'.table.Pinned id op params where
  op := (h.agree.ops id hid).trans hpinned.op
  params := (h.agree.params id hid).trans hpinned.params
  constant := (h.constant id hid).trans hpinned.constant

/-- Other parameters of a new node. -/
theorem Extends.replaceParams (h : Extends g g') {id : NodeId} (hid : g.size ≤ id)
    {params : List α} (hsound : (g'.replaceParams id params).Sound) :
    Extends g (g'.replaceParams id params) where
  sound := hsound
  size := h.size
  agree := {
    ops := h.agree.ops
    parents := h.agree.parents
    params := fun i hi =>
      (Array.getElem?_setIfInBounds_ne (by omega)).trans (h.agree.params i hi)
    dropped := h.agree.dropped }
  constant := h.constant

/-- Another constant flag of a new node. -/
theorem Extends.replaceConstant (h : Extends g g') {id : NodeId} (hid : g.size ≤ id)
    (value : Bool) : Extends g (g'.replaceConstant id value) where
  sound := h.sound.replaceConstant id value
  size := h.size
  agree := ⟨h.agree.ops, h.agree.parents, h.agree.params, h.agree.dropped⟩
  constant i hi := (Array.getElem?_setIfInBounds_ne (by omega)).trans (h.constant i hi)

/-- If the operation succeeds, it answers a node that it has added, and has changed no node
that was there. -/
def Appends (g : Graph α) (outcome : Outcome GraphError (NodeId × Graph α))
    (Q : NodeId → Graph α → Prop) : Prop :=
  ∀ id g', outcome = .ok (id, g') → Extends g g' ∧ g.size ≤ id ∧ id < g'.size ∧ Q id g'

variable {outcome : Outcome GraphError (NodeId × Graph α)} {P Q : NodeId → Graph α → Prop}

theorem Appends.mono (h : Appends g outcome P) (hPQ : ∀ id g', P id g' → Q id g') :
    Appends g outcome Q := by
  intro id g' hrun
  obtain ⟨hextends, hnew, hlt, hP⟩ := h id g' hrun
  exact ⟨hextends, hnew, hlt, hPQ id g' hP⟩

/-- One addition after another. -/
theorem Appends.bind {f : NodeId × Graph α → Outcome GraphError (NodeId × Graph α)}
    (h : Appends g outcome P) (hf : ∀ id g', g'.Sound → P id g' → Appends g' (f (id, g')) Q) :
    Appends g (outcome >>= f) Q := by
  intro id g'' hrun
  obtain ⟨⟨id', g'⟩, hfirst, hrun⟩ := Outcome.bind_eq_ok.1 hrun
  obtain ⟨hextends, _, _, hP⟩ := h id' g' hfirst
  obtain ⟨hextends', hnew, hlt, hQ⟩ := hf id' g' hextends.sound hP id g'' hrun
  exact ⟨hextends.trans hextends', Nat.le_trans hextends.size hnew, hlt, hQ⟩

section Adding

variable [Arith α]

/-- A node more. -/
theorem extends_of_table (hg : g.table.Sound) (hg' : g'.Sound) {op : Primitive}
    {ps : List NodeId} {name : String} (htable : g'.table = (g.table.addNode op ps name).2) :
    Extends g g' where
  sound := hg'
  size := by
    rw [size_of_table htable]
    exact Nat.le_succ _
  agree := htable ▸ hg.agree_addNode op ps name
  constant i hi := by
    have hne : i ≠ g.table.constant.size := Nat.ne_of_lt (hg.constant.symm ▸ hi)
    rw [htable, NodeTable.addNode, Array.getElem?_push, if_neg hne]

/-- The node is new, and what it was added as. -/
theorem appends_of_table (hg : g.table.Sound) (hg' : g'.Sound) {op : Primitive}
    {ps : List NodeId} {name : String} (htable : g'.table = (g.table.addNode op ps name).2) :
    Appends g (.ok (g.size, g')) fun id g' => g'.table.ops[id]? = some op := by
  intro id g'' hrun
  obtain ⟨rfl, rfl⟩ := Prod.mk.inj (Except.ok.inj hrun)
  have hlt : g.size < g'.size := by
    rw [size_of_table htable]
    exact Nat.lt_succ_self _
  have hop : g'.table.ops[g.size]? = some op := by
    rw [htable]
    exact (hg.holds_addNode op ps name).op
  exact ⟨extends_of_table hg hg' htable, Nat.le_refl _, hlt, hop⟩

theorem appends_addNode (hg : g.Sound) (op : Primitive) (ps : List NodeId) (name : String) :
    Appends g (g.addNode op ps name) fun id g' => g'.table.ops[id]? = some op := by
  intro id g' hrun
  obtain ⟨_, hps, hadmits, hpushed⟩ := addNode_eq_ok.1 hrun
  exact appends_of_table hg.table (hg.push name hps hadmits) rfl id g'
    (congrArg Except.ok hpushed.symm)

/-- A node with parameters of its own. -/
theorem appends_addWith (hg : g.Sound) (op : Primitive) (ps : List NodeId) (name : String)
    (params : List α) :
    Appends g (Lowering.addWith g op ps name params) fun id g' =>
      g'.table.ops[id]? = some op ∧ g'.table.params[id]? = some params := by
  intro id g'' hrun
  obtain ⟨⟨id', g'⟩, hadd, hrun⟩ := Outcome.bind_eq_ok.1 hrun
  obtain ⟨hextends, hnew, hlt, hop⟩ := appends_addNode hg op ps name id' g' hadd
  obtain ⟨g₂, hset, hrun⟩ := Outcome.bind_eq_ok.1 hrun
  obtain ⟨rfl, rfl⟩ := Prod.mk.inj (Except.ok.inj hrun)
  have hsound := hextends.sound.setParams hset
  obtain ⟨_, rfl⟩ := (setParams_eq_ok hextends.sound.table).1 hset
  refine ⟨hextends.replaceParams hnew hsound, hnew, hlt, hop, ?_⟩
  have hinside : id' < g'.table.params.size := hextends.sound.table.params.symm ▸ hlt
  simp [Graph.replaceParams, hinside]

omit [Arith α] in
/-- A new node is protected from training. -/
theorem Appends.setConstant {op : Primitive} {params : List α}
    (h : Appends g outcome fun id g' =>
      g'.table.ops[id]? = some op ∧ g'.table.params[id]? = some params) :
    Appends g (outcome >>= fun p => p.2.setConstant p.1 true >>= fun g => pure (p.1, g))
      fun id g' => g'.table.Pinned id op params := by
  intro id g'' hrun
  obtain ⟨⟨id', g'⟩, hfirst, hrun⟩ := Outcome.bind_eq_ok.1 hrun
  obtain ⟨hextends, hnew, hlt, hop, hparams⟩ := h id' g' hfirst
  obtain ⟨g₂, hset, hrun⟩ := Outcome.bind_eq_ok.1 hrun
  obtain ⟨rfl, rfl⟩ := Prod.mk.inj (Except.ok.inj hrun)
  obtain ⟨_, rfl⟩ := (setConstant_eq_ok hextends.sound.table).1 hset
  refine ⟨hextends.replaceConstant hnew true, hnew, hlt, hop, hparams, ?_⟩
  have hinside : id' < g'.table.constant.size := hextends.sound.table.constant.symm ▸ hlt
  simp [Graph.replaceConstant, hinside]

end Adding

end Graph

namespace Lowering

open FeatureGraph.Graph

variable [Arith α] {g : Graph α}

/-! ## Chains -/

theorem appends_affine (hg : g.Sound) (p : NodeId) (label : String) :
    Appends g (affine g p label) fun _ _ => True :=
  (appends_addWith hg .linear [p] s!"{label}.lin" [1, 0]).mono fun _ _ _ => trivial

theorem appends_unary (hg : g.Sound) (p : NodeId) (label : String) (op : Primitive) :
    Appends g (unary g p label op) fun _ _ => True :=
  (appends_affine hg p label).bind fun lin _ hg' _ =>
    (appends_addNode hg' op [lin] s!"{label}.{op.name}").mono fun _ _ _ => trivial

theorem appends_magnitudePower (hg : g.Sound) (p : NodeId) (label : String) (exponent : α) :
    Appends g (magnitudePower g p label exponent) fun _ _ => True :=
  (appends_unary hg p label .modulus).bind fun abs _ hg' _ =>
    (appends_addWith hg' .pow [abs] s!"{label}.pow" [exponent]).mono fun _ _ _ => trivial

/-- The exponent of a reciprocal is constant. -/
theorem appends_reciprocal (hg : g.Sound) (p : NodeId) (label : String) :
    Appends g (reciprocal g p label) fun id g' => g'.table.Pinned id .pow [-1] :=
  (appends_affine hg p label).bind fun lin _ hg' _ =>
    Appends.setConstant (appends_addWith hg' .pow [lin] s!"{label}.pow" [-1])

theorem appends_binary (hg : g.Sound) (p q : NodeId) (label : String) (op : Primitive) :
    Appends g (binary g p q label op) fun _ _ => True :=
  (appends_affine hg p s!"{label}.lhs").bind fun l _ hg' _ =>
    (appends_affine hg' q s!"{label}.rhs").bind fun r _ hg'' _ =>
      (appends_addNode hg'' op [l, r] s!"{label}.{op.name}").mono fun _ _ _ => trivial

/-- The scaling of a root is constant. -/
theorem appends_root (hg : g.Sound) (label : String) (scale : α) :
    Appends g (root g label scale) fun id g' => g'.table.Pinned id .linear [scale, 0] := by
  have htable : (g.appendInput label).2.table =
      (g.table.addNode (.input g.nextColumn) [] label).2 := rfl
  have hinput := appends_of_table hg.table (hg.appendInput label) htable
  change Appends g ((.ok (g.appendInput label) : Outcome GraphError (NodeId × Graph α)) >>= fun p =>
    addWith p.2 .linear [p.1] s!"{label}.scale" [scale, 0] >>= fun q =>
      q.2.setConstant q.1 true >>= fun g => pure (q.1, g)) _
  exact hinput.bind fun input _ hg' _ =>
    Appends.setConstant (appends_addWith hg' .linear [input] s!"{label}.scale" [scale, 0])

/-- No chain changes a node that was there, and the one of a reciprocal ends in a pinned
node. -/
theorem appends_chain (hg : g.Sound) (op : Operator) (operands : List NodeId) (label : String) :
    Appends g (chain g op operands label) fun id g' =>
      op = .reciprocal → g'.table.Pinned id .pow [-1] := by
  have hother : ∀ {outcome}, Appends g outcome (fun _ _ => True) → op ≠ .reciprocal →
      Appends g outcome fun id g' => op = .reciprocal → g'.table.Pinned id .pow [-1] :=
    fun h hop => h.mono fun _ _ _ heq => absurd heq hop
  have hnone : Appends g Outcome.outOfRange fun id g' =>
      op = .reciprocal → g'.table.Pinned id .pow [-1] := nofun
  unfold chain
  split
  · exact hother (appends_unary hg _ label .exp) nofun
  · exact hother (appends_unary hg _ label .log) nofun
  · exact hother (appends_unary hg _ label .modulus) nofun
  · exact hother (appends_magnitudePower hg _ label 0.5) nofun
  · exact hother (appends_magnitudePower hg _ label 2.0) nofun
  · exact (appends_reciprocal hg _ label).mono fun _ _ h _ => h
  · exact hother ((appends_addWith hg .linear operands _ _).mono fun _ _ _ => trivial) nofun
  · exact hother ((appends_addWith hg .linear operands _ _).mono fun _ _ _ => trivial) nofun
  · exact hother (appends_binary hg _ _ label .div) nofun
  · exact hother (appends_binary hg _ _ label .mult) nofun
  · exact hnone

/-! ## Features -/

/-- What a table pins for a feature that is lowered to a node: the scaling of a root and the
exponent of a reciprocal. -/
structure PinsFeature (t : NodeTable α) (feature : Feature α) (id : NodeId) : Prop where
  root : feature.isRoot = true →
    t.Pinned id .linear [feature.prefactor * feature.unitPrefactor, 0]
  reciprocal : feature.isRoot = false → feature.op = .reciprocal → t.Pinned id .pow [-1]

/-- Lowering a feature. -/
theorem of_lower_eq_ok (hg : g.Sound) {feature : Feature α} {operands : List NodeId} {id : NodeId}
    {g' : Graph α} (h : lower g feature operands = .ok (id, g')) :
    Extends g g' ∧ id < g'.size ∧ PinsFeature g'.table feature id := by
  unfold lower at h
  split at h
  · rename_i hroot
    obtain ⟨hextends, _, hlt, hpinned⟩ :=
      appends_root hg _ _ id g' (Outcome.mapFailure_eq_ok.1 h)
    refine ⟨hextends, hlt, fun _ => hpinned, fun hnot => ?_⟩
    rw [hroot] at hnot
    cases hnot
  · rename_i hroot
    split at h
    · cases h
    · obtain ⟨hextends, _, hlt, hpinned⟩ :=
        appends_chain hg _ _ _ id g' (Outcome.mapFailure_eq_ok.1 h)
      exact ⟨hextends, hlt, fun hyes => absurd hyes hroot, fun _ => hpinned⟩

omit [Arith α] in
theorem of_bind_eq_ok {m m' : NodeMapping} {b : Binding}
    (h : (m.bind b : Outcome (ModelError α) NodeMapping) = .ok m') :
    m' = ⟨m.bindings ++ [b]⟩ ∧ ∀ c ∈ m.bindings, c.index ≠ b.index := by
  unfold NodeMapping.bind at h
  split at h
  · cases h
  · rename_i hfresh
    refine ⟨Outcome.ok_eq_iff.1 h, fun c hc heq => hfresh (List.any_eq_true.2 ⟨c, hc, ?_⟩)⟩
    simp [heq]

omit [Arith α] in
/-- A binding is found in its place, and it hides none before it. -/
theorem getIndex?_of_bind_eq_ok {m m' : NodeMapping} {b : Binding}
    (h : (m.bind b : Outcome (ModelError α) NodeMapping) = .ok m') :
    m'.getIndex? b.index = some b.node ∧
      ∀ i id, m.getIndex? i = some id → m'.getIndex? i = some id := by
  obtain ⟨rfl, hfresh⟩ := of_bind_eq_ok h
  have hnone : m.bindings.find? (·.index == b.index) = none :=
    List.find?_eq_none.2 fun c hc heq => hfresh c hc (by simpa using heq)
  refine ⟨by simp [NodeMapping.getIndex?, hnone], fun i id hid => ?_⟩
  obtain ⟨c, hc, hnode⟩ := Option.map_eq_some_iff.1 hid
  simp [NodeMapping.getIndex?, hc, hnode]

/-- What lowering the first `k` features of a forest has pinned. -/
structure Pinned (f : Forest α) (k : Nat) (s : Graph α × NodeMapping) : Prop where
  sound : s.1.Sound
  features : ∀ i < k, ∀ feature, f.get? i = some feature →
    ∃ id, s.2.getIndex? i = some id ∧ id < s.1.size ∧ PinsFeature s.1.table feature id

variable {f : Forest α} {k : Nat} {s s' : Graph α × NodeMapping}

theorem PinsFeature.extends {g' : Graph α} {feature : Feature α} {id : NodeId}
    (h : PinsFeature g.table feature id) (hextends : Extends g g') (hid : id < g.size) :
    PinsFeature g'.table feature id where
  root hroot := hextends.pinned hid (h.root hroot)
  reciprocal hroot hop := hextends.pinned hid (h.reciprocal hroot hop)

/-- One feature more. -/
theorem Pinned.lowerAt (h : Pinned f k s) {feature : Feature α} (hk : f.get? k = some feature)
    (hrun : lowerAt f s k feature = .ok s') : Pinned f (k + 1) s' := by
  obtain ⟨g, m⟩ := s
  obtain ⟨operands, _, hrun⟩ := Outcome.bind_eq_ok.1 hrun
  obtain ⟨⟨node, g'⟩, hlower, hrun⟩ := Outcome.bind_eq_ok.1 hrun
  obtain ⟨m', hbind, hrun⟩ := Outcome.bind_eq_ok.1 hrun
  obtain rfl := Outcome.ok_eq_iff.1 hrun
  obtain ⟨hextends, hlt, hpins⟩ := of_lower_eq_ok h.sound hlower
  obtain ⟨hnew, hold⟩ := getIndex?_of_bind_eq_ok hbind
  refine ⟨hextends.sound, fun i hi other hother => ?_⟩
  rcases Nat.lt_succ_iff_lt_or_eq.1 hi with hik | rfl
  · obtain ⟨id, hid, hinside, hpinned⟩ := h.features i hik other hother
    exact ⟨id, hold i id hid, Nat.lt_of_lt_of_le hinside hextends.size,
      hpinned.extends hextends hinside⟩
  · rw [hk, Option.some.injEq] at hother
    exact ⟨node, hnew, hlt, hother ▸ hpins⟩

/-- What lowering one feature keeps, lowering the remaining features keeps. -/
theorem lowerFrom_keeps {P : Nat → Graph α × NodeMapping → Prop}
    (hstep : ∀ k feature s s', f.get? k = some feature → P k s → lowerAt f s k feature = .ok s' →
      P (k + 1) s')
    (h : P k s) (hk : k ≤ f.size)
    (hrun : (lowerFrom f (f.entries.drop k) s).outcome = .ok s') : P f.size s' := by
  induction hrest : f.entries.drop k generalizing k s with
  | nil =>
    have hsize : f.size ≤ k := by simpa using hrest
    rw [hrest] at hrun
    obtain rfl := Except.ok.inj hrun
    exact Nat.le_antisymm hk hsize ▸ h
  | cons entry rest ih =>
    obtain ⟨hlt, hposition, hget, hnext⟩ := Forest.of_drop_entries_eq_cons hrest
    rw [hrest, lowerFrom, hposition] at hrun
    cases hlower : lowerAt f s k entry.2 with
    | error fault =>
      rw [hlower] at hrun
      cases hrun
    | ok s₁ =>
      rw [hlower] at hrun
      refine ih (hstep k entry.2 s s₁ hget h hlower) (Nat.succ_le_of_lt hlt) ?_ hnext
      rw [hnext]
      exact hrun

/-- What lowering a forest has pinned. -/
theorem pinned_lower (hrun : f.lower.outcome = .ok s) : Pinned f f.size s :=
  have hempty : Pinned f 0 (.empty, {}) := ⟨sound_empty, fun i hi => absurd hi (Nat.not_lt_zero i)⟩
  lowerFrom_keeps (P := Pinned f) (fun _ _ _ _ hk h hlower => h.lowerAt hk hlower) hempty
    (Nat.zero_le _) hrun

end Lowering

/-! ## Selected features -/

namespace Model

variable [Arith α] {g : Graph α} {nodes : List NodeId} {weights : List α}

/-- Output, target and objective stand behind the nodes that were there. -/
theorem Wirable.extends (h : Wirable g nodes weights) :
    Graph.Extends g (withObjective g nodes weights) := by
  have houtput : Graph.Extends g (g.pushOutput nodes "output") :=
    Graph.extends_of_table h.sound.table h.sound_pushOutput rfl
  have hparams : Graph.Extends g (withOutput g nodes weights) :=
    houtput.replaceParams (Nat.le_refl _) h.sound_withOutput
  have htarget : Graph.Extends (withOutput g nodes weights) (withTarget g nodes weights) :=
    Graph.extends_of_table h.sound_withOutput.table h.sound_withTarget rfl
  have hobjective : Graph.Extends (withTarget g nodes weights) (withObjective g nodes weights) :=
    Graph.extends_of_table h.sound_withTarget.table h.sound_withObjective rfl
  exact (hparams.trans htarget).trans hobjective

/-- A model of features that have been lowered pins what lowering has pinned. -/
theorem pinned_of_select {f : Forest α} {g₀ : Graph α} {m : NodeMapping}
    {keep : Feature α → Bool} {model : Model α} (hlower : f.lower.outcome = .ok (g₀, m))
    (htable : g.table = g₀.table) (hselect : (select f g m keep).outcome = .ok model) {i : Nat}
    {feature : Feature α} (hi : f.get? i = some feature) :
    ∃ id, m.getIndex? i = some id ∧ Lowering.PinsFeature model.graph.table feature id := by
  have hpinned := Lowering.pinned_lower hlower
  have hlt : i < f.size := (Array.getElem?_eq_some_iff.1 hi).1
  obtain ⟨id, hid, hinside, hfeature⟩ := hpinned.features i hlt feature hi
  refine ⟨id, hid, ?_⟩
  obtain ⟨picked, _, _, hpicks⟩ := of_select_eq_ok hselect
  obtain ⟨kept, w, _, hwire, rfl⟩ := ofPicks_eq_ok.1 hpicks
  have hg : g.table.Sound := htable ▸ hpinned.sound.table
  have hsound : (g.activateOnly kept).Sound := .of_table (hg.withActive (by simp)) rfl
  obtain ⟨hwirable, tape, _, rfl⟩ := (wire_eq_ok hsound).1 hwire
  -- selecting changes nothing but activation flags
  have hinside' : id < (g.activateOnly kept).size := by
    change id < g.table.size
    rw [htable]
    exact hinside
  have hactivated : Lowering.PinsFeature (g.activateOnly kept).table feature id := by
    rw [← htable] at hfeature
    exact ⟨fun hroot => (hfeature.root hroot).withActive _,
      fun hroot hop => (hfeature.reciprocal hroot hop).withActive _⟩
  have hwired := hactivated.extends hwirable.extends hinside'
  exact hwired

end Model

end FeatureGraph
