import FeatureGraph.Proofs.Pinned
import FeatureGraph.Proofs.Ancestry

/-!
# The tips of chains

The chain of a feature leads to one node: every node that has been added for the feature is needed
by the last one, and no other is constant.

* `OneMore` is one added node, by `of_addNode_eq_ok`, `of_addWith_eq_ok` and `oneMore_appendInput`.
* `Gathered` says that the nodes of an unfinished chain are needed by its tips, which the next node
  may join.  `Gathered.add` is that step.
* `Ends` is the finished chain, with one lemma for each kind: `ends_chain` and `ends_root`.
-/

namespace FeatureGraph

variable {α : Type}

namespace Graph

variable {g g' g'' : Graph α} {tips rest ps : List NodeId} {id : NodeId}

/-- What a node needs is not changed by additions. -/
theorem Extends.needs (h : Extends g g') (hg : g.Sound) {root : NodeId} (hroot : root < g.size)
    (hneeds : g.table.Needs root id) : g'.table.Needs root id := by
  induction hneeds using Relation.ReflTransGen.head_induction_on with
  | refl => exact .refl
  | @head child p hp _ ih =>
    have hparent : p ∈ g'.table.parentList child := (h.agree.parents child hroot).symm ▸ hp
    exact .head hparent (ih (Nat.lt_trans (hg.table.earlier child p hp) hroot))

/-! ## One node -/

/-- The second graph is the first one with one more node, over the given parents. -/
structure OneMore (g g' : Graph α) (ps : List NodeId) : Prop where
  extension : Extends g g'
  size : g'.size = g.size + 1
  parents : g'.table.parentList g.size = ps
  free : g'.table.constant[g.size]? = some false

section Adding

variable [Arith α] {op : Primitive} {name : String}

theorem oneMore_of_table (hg : g.Sound) (hg' : g'.Sound)
    (htable : g'.table = (g.table.addNode op ps name).2) : OneMore g g' ps where
  extension := extends_of_table hg.table hg' htable
  size := size_of_table htable
  parents := by
    rw [htable]
    exact (hg.table.holds_addNode op ps name).parents
  free := by
    have hsize : g.size = g.table.constant.size := hg.table.constant.symm
    rw [htable, NodeTable.addNode, hsize, Array.getElem?_push_size]

theorem oneMore_appendInput (hg : g.Sound) (name : String) :
    OneMore g (g.appendInput name).2 [] :=
  have htable : (g.appendInput name).2.table =
      (g.table.addNode (.input g.nextColumn) [] name).2 := rfl
  oneMore_of_table hg (hg.appendInput name) htable

theorem of_addNode_eq_ok (hg : g.Sound) (h : g.addNode op ps name = .ok (id, g')) :
    id = g.size ∧ OneMore g g' ps ∧ g'.table.ops[id]? = some op := by
  obtain ⟨hextends, _, _, hop⟩ := appends_addNode hg op ps name id g' h
  obtain ⟨_, _, _, hpushed⟩ := addNode_eq_ok.1 h
  obtain ⟨hid, hg'⟩ := Prod.mk.inj hpushed
  exact ⟨hid, oneMore_of_table hg hextends.sound (congrArg Graph.table hg'), hop⟩

theorem of_addWith_eq_ok (hg : g.Sound) {params : List α}
    (h : Lowering.addWith g op ps name params = .ok (id, g')) :
    id = g.size ∧ OneMore g g' ps ∧ g'.table.ops[id]? = some op := by
  obtain ⟨hextends, _, _, hop, _⟩ := appends_addWith hg op ps name params id g' h
  obtain ⟨⟨id', g₁⟩, hadd, h⟩ := Outcome.bind_eq_ok.1 h
  obtain ⟨g₂, hset, h⟩ := Outcome.bind_eq_ok.1 h
  obtain ⟨rfl, rfl⟩ := Prod.mk.inj (Except.ok.inj h)
  obtain ⟨hid, hmore, _⟩ := of_addNode_eq_ok hg hadd
  obtain ⟨_, rfl⟩ := of_setParams_eq_ok hset
  exact ⟨hid, ⟨hextends, hmore.size, hmore.parents, hmore.free⟩, hop⟩

end Adding

/-! ## Several nodes -/

/-- The second graph is the first one with more nodes, none of them constant and each needed by one
of the tips. -/
structure Gathered (g g' : Graph α) (tips : List NodeId) : Prop where
  extension : Extends g g'
  inside : ∀ tip ∈ tips, tip < g'.size
  gathered : ∀ i, g.size ≤ i → i < g'.size → ∃ tip ∈ tips, g'.table.Needs tip i
  free : ∀ i, g.size ≤ i → i < g'.size → g'.table.constant[i]? = some false

theorem Gathered.refl (hg : g.Sound) : Gathered g g [] where
  extension := ⟨hg, Nat.le_refl _, ⟨fun _ _ => rfl, fun _ _ => rfl, fun _ _ => rfl, fun _ _ => rfl⟩,
    fun _ _ => rfl⟩
  inside := by simp
  gathered i hi hlt := absurd hlt (Nat.not_lt.2 hi)
  free i hi hlt := absurd hlt (Nat.not_lt.2 hi)

/-- A further node joins the tips that are parents of it. -/
theorem Gathered.add (h : Gathered g g' tips) (hmore : OneMore g' g'' ps)
    (hps : ∀ tip ∈ tips, tip ∈ ps ∨ tip ∈ rest) (hrest : ∀ tip ∈ rest, tip ∈ tips) :
    Gathered g g'' (g'.size :: rest) := by
  have hlast : ∀ i, i < g''.size → i < g'.size ∨ i = g'.size := fun i hi =>
    Nat.lt_succ_iff_lt_or_eq.1 (Nat.lt_of_lt_of_eq hi hmore.size)
  refine ⟨h.extension.trans hmore.extension, ?_, fun i hi hlt => ?_, fun i hi hlt => ?_⟩
  · intro tip htip
    rw [hmore.size]
    rcases List.mem_cons.1 htip with rfl | htip
    · exact Nat.lt_succ_self _
    · exact Nat.lt_succ_of_lt (h.inside tip (hrest tip htip))
  · rcases hlast i hlt with hlt | rfl
    · obtain ⟨tip, htip, hneeds⟩ := h.gathered i hi hlt
      have hneeds := hmore.extension.needs h.extension.sound (h.inside tip htip) hneeds
      rcases hps tip htip with hparent | htip
      · exact ⟨g'.size, by simp, .head (hmore.parents.symm ▸ hparent) hneeds⟩
      · exact ⟨tip, List.mem_cons_of_mem _ htip, hneeds⟩
    · exact ⟨g'.size, by simp, .refl⟩
  · rcases hlast i hlt with hlt | rfl
    · exact (hmore.extension.constant i hlt).trans (h.free i hi hlt)
    · exact hmore.free

/-- A chain has been added that ends in a node: the last one, which needs all others, and which
alone is constant, if any is. -/
structure Ends (g g' : Graph α) (id : NodeId) (pinned : Prop) : Prop where
  extension : Extends g g'
  last : g'.size = id + 1
  new : g.size ≤ id
  needs : ∀ i, g.size ≤ i → i < g'.size → g'.table.Needs id i
  constant : ∀ i, g.size ≤ i → i < g'.size →
    (g'.table.constant[i]? = some true ↔ i = id ∧ pinned)

/-- The last node of a chain joins all tips. -/
theorem Gathered.ends (h : Gathered g g' tips) (hmore : OneMore g' g'' ps)
    (hps : ∀ tip ∈ tips, tip ∈ ps) {pinned : Prop} (hpinned : ¬pinned) :
    Ends g g'' g'.size pinned := by
  have hgathered : Gathered g g'' [g'.size] :=
    h.add hmore (fun tip htip => .inl (hps tip htip)) nofun
  refine ⟨hgathered.extension, hmore.size, h.extension.size, fun i hi hlt => ?_, fun i hi hlt => ?_⟩
  · obtain ⟨tip, htip, hneeds⟩ := hgathered.gathered i hi hlt
    exact List.mem_singleton.1 htip ▸ hneeds
  · rw [hgathered.free i hi hlt]
    simp [hpinned]

/-- The last node of a chain is made constant. -/
theorem Ends.pin (h : Ends g g' id False) {pinned : Prop} (hpinned : pinned) :
    Ends g (g'.replaceConstant id true) id pinned where
  extension := h.extension.replaceConstant h.new true
  last := h.last
  new := h.new
  needs := h.needs
  constant i hi hlt := by
    have hsize : id < g'.table.constant.size := by
      rw [h.extension.sound.table.constant]
      exact Nat.lt_of_lt_of_eq (Nat.lt_succ_self id) h.last.symm
    by_cases hid : i = id
    · subst hid
      simp [replaceConstant, hsize, hpinned]
    · have hconstant : ¬g'.table.constant[i]? = some true := fun heq =>
        ((h.constant i hi hlt).1 heq).2
      rw [replaceConstant, Array.getElem?_setIfInBounds_ne (Ne.symm hid)]
      simp [hconstant, hid]

end Graph

namespace Lowering

open FeatureGraph.Graph

variable [Arith α] {g₀ g g' : Graph α} {tips rest : List NodeId} {p q id : NodeId} {label : String}

/-! ## Chains -/

/-- An affine node joins a tip, or starts a new one. -/
theorem gathered_affine (h : Gathered g₀ g tips) (hrun : affine g p label = .ok (id, g'))
    (htips : ∀ tip ∈ tips, tip = p ∨ tip ∈ rest) (hrest : ∀ tip ∈ rest, tip ∈ tips) :
    Gathered g₀ g' (id :: rest) := by
  obtain ⟨rfl, hmore, _⟩ := of_addWith_eq_ok h.extension.sound hrun
  exact h.add hmore (fun tip htip => (htips tip htip).imp List.mem_singleton.2 (·)) hrest

/-- A chain that begins with an affine node, and its next node. -/
theorem exists_gathered_affine (hg : g.Sound) {next : NodeId × Graph α →
    Outcome GraphError (NodeId × Graph α)} (hrun : affine g p label >>= next = .ok (id, g')) :
    ∃ lin g₁, Gathered g g₁ [lin] ∧ next (lin, g₁) = .ok (id, g') := by
  obtain ⟨⟨lin, g₁⟩, hlin, hnext⟩ := Outcome.bind_eq_ok.1 hrun
  exact ⟨lin, g₁, gathered_affine (.refl hg) hlin nofun nofun, hnext⟩

/-- The second node of a unary chain, after which the chain may go on. -/
theorem gathered_unary (hg : g.Sound) {op : Primitive} (hrun : unary g p label op = .ok (id, g')) :
    Gathered g g' [id] := by
  obtain ⟨lin, g₁, h₁, hrun⟩ := exists_gathered_affine hg hrun
  obtain ⟨rfl, hmore, _⟩ := of_addNode_eq_ok h₁.extension.sound hrun
  exact h₁.add hmore (fun _ htip => .inl htip) nofun

theorem ends_unary (hg : g.Sound) {op : Primitive} (hrun : unary g p label op = .ok (id, g'))
    {pinned : Prop} (hpinned : ¬pinned) : Ends g g' id pinned := by
  obtain ⟨lin, g₁, h₁, hrun⟩ := exists_gathered_affine hg hrun
  obtain ⟨rfl, hmore, _⟩ := of_addNode_eq_ok h₁.extension.sound hrun
  exact h₁.ends hmore (fun _ htip => htip) hpinned

theorem ends_magnitudePower (hg : g.Sound) {exponent : α}
    (hrun : magnitudePower g p label exponent = .ok (id, g')) {pinned : Prop}
    (hpinned : ¬pinned) : Ends g g' id pinned := by
  obtain ⟨⟨abs, g₁⟩, habs, hrun⟩ := Outcome.bind_eq_ok.1 hrun
  have h₁ := gathered_unary hg habs
  obtain ⟨rfl, hmore, _⟩ := of_addWith_eq_ok h₁.extension.sound hrun
  exact h₁.ends hmore (fun _ htip => htip) hpinned

theorem ends_reciprocal (hg : g.Sound) (hrun : reciprocal g p label = .ok (id, g'))
    {pinned : Prop} (hpinned : pinned) : Ends g g' id pinned := by
  obtain ⟨lin, g₁, h₁, hrun⟩ := exists_gathered_affine hg hrun
  obtain ⟨⟨pow, g₂⟩, hpow, hrun⟩ := Outcome.bind_eq_ok.1 hrun
  obtain ⟨rfl, hmore, _⟩ := of_addWith_eq_ok h₁.extension.sound hpow
  obtain ⟨g₃, hset, hrun⟩ := Outcome.bind_eq_ok.1 hrun
  obtain ⟨rfl, rfl⟩ := Prod.mk.inj (Except.ok.inj hrun)
  obtain ⟨_, rfl⟩ := of_setConstant_eq_ok hset
  exact (h₁.ends hmore (fun _ htip => htip) not_false).pin hpinned

theorem ends_signedSum (hg : g.Sound) {operands : List NodeId} {sign : α}
    (hrun : signedSum g operands label sign = .ok (id, g')) {pinned : Prop}
    (hpinned : ¬pinned) : Ends g g' id pinned := by
  obtain ⟨rfl, hmore, _⟩ := of_addWith_eq_ok hg hrun
  exact (Gathered.refl hg).ends hmore nofun hpinned

/-- The two affine nodes of a binary chain are two tips, which its last node joins. -/
theorem ends_binary (hg : g.Sound) {op : Primitive} (hrun : binary g p q label op = .ok (id, g'))
    {pinned : Prop} (hpinned : ¬pinned) : Ends g g' id pinned := by
  obtain ⟨l, g₁, h₁, hrun⟩ := exists_gathered_affine hg hrun
  obtain ⟨⟨r, g₂⟩, hr, hrun⟩ := Outcome.bind_eq_ok.1 hrun
  have h₂ : Gathered g g₂ [r, l] :=
    gathered_affine h₁ hr (fun _ htip => .inr htip) fun _ htip => htip
  obtain ⟨rfl, hmore, _⟩ := of_addNode_eq_ok h₂.extension.sound hrun
  exact h₂.ends hmore (fun _ htip => by simpa [or_comm] using htip) hpinned

/-- The chain of an operator ends in its last node, which is constant for a reciprocal only. -/
theorem ends_chain (hg : g.Sound) {op : Operator} {operands : List NodeId}
    (hrun : chain g op operands label = .ok (id, g')) : Ends g g' id (op = .reciprocal) := by
  unfold chain at hrun
  split at hrun
  · exact ends_unary hg hrun nofun
  · exact ends_unary hg hrun nofun
  · exact ends_unary hg hrun nofun
  · exact ends_magnitudePower hg hrun nofun
  · exact ends_magnitudePower hg hrun nofun
  · exact ends_reciprocal hg hrun rfl
  · exact ends_signedSum hg hrun nofun
  · exact ends_signedSum hg hrun nofun
  · exact ends_binary hg hrun nofun
  · exact ends_binary hg hrun nofun
  · cases hrun

/-- A linear node over the input that reads a column. -/
def ReadsColumn (t : NodeTable α) (id : NodeId) (column : Nat) : Prop :=
  ∃ input, t.ops[id]? = some .linear ∧ t.parentList id = [input] ∧
    t.ops[input]? = some (.input column)

omit [Arith α] in
theorem ReadsColumn.extends {column : Nat} (h : ReadsColumn g.table id column) (hg : g.Sound)
    (hextends : Extends g g') (hid : id < g.size) : ReadsColumn g'.table id column := by
  obtain ⟨input, hop, hparents, hinput⟩ := h
  have hlt : input < id := hg.table.earlier id input (by simp [hparents])
  exact ⟨input, (hextends.agree.ops id hid).trans hop,
    (hextends.agree.parents id hid).trans hparents,
    (hextends.agree.ops input (Nat.lt_trans hlt hid)).trans hinput⟩

/-- The scaling of a root is constant, and it scales the next column. -/
theorem ends_root (hg : g.Sound) {scale : α} (hrun : root g label scale = .ok (id, g'))
    {pinned : Prop} (hpinned : pinned) :
    Ends g g' id pinned ∧ ReadsColumn g'.table id g.nextColumn := by
  have hinput := oneMore_appendInput hg label
  have h₁ : Gathered g (g.appendInput label).2 [g.size] := (Gathered.refl hg).add hinput nofun nofun
  obtain ⟨⟨linear, g₂⟩, hlinear, hrun⟩ := Outcome.bind_eq_ok.1 hrun
  obtain ⟨rfl, hmore, hop⟩ := of_addWith_eq_ok h₁.extension.sound hlinear
  obtain ⟨g₃, hset, hrun⟩ := Outcome.bind_eq_ok.1 hrun
  obtain ⟨rfl, rfl⟩ := Prod.mk.inj (Except.ok.inj hrun)
  obtain ⟨_, rfl⟩ := of_setConstant_eq_ok hset
  have hends : Ends g g₂ (g.appendInput label).2.size False :=
    h₁.ends hmore (fun _ htip => htip) not_false
  refine ⟨hends.pin hpinned, g.size, hop, hmore.parents, ?_⟩
  have hcolumn : (g.appendInput label).2.table.ops[g.size]? = some (.input g.nextColumn) :=
    (hg.table.holds_addNode (.input g.nextColumn) [] label).op
  exact (hmore.extension.agree.ops g.size (h₁.inside g.size (by simp))).trans hcolumn

end Lowering

end FeatureGraph
