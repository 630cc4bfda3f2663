import FeatureGraph.Proofs.Alike
import FeatureGraph.Proofs.Naming
import FeatureGraph.Proofs.Response

/-!
# Graphs with the same names in use

A graph remembers the names in use in a list of its own.  Nothing that is done to a graph depends
on how they are listed.

* `Graph.Relisted` says that two graphs differ in that list at most, and that the same names are
  on both.
* `Edit.Blind` says that an edit answers the same on such graphs, and leaves such graphs behind.
  There is one lemma for each kind of step, and an edit is blind because its steps are.
* `Relisted.respond` is the statement on actions, and `Relisted.afterAll` on sequences of them.
-/

namespace FeatureGraph

variable {α β γ : Type}

namespace NodeTable

/-- No pass looks at the names in use. -/
theorem alikeOn_withNames (P : NodeId → Prop) (t : NodeTable α) (names : List String) :
    t.AlikeOn P { t with names } :=
  ⟨rfl, rfl, rfl, rfl, rfl, fun _ _ => rfl, fun _ _ => rfl, fun _ _ => rfl⟩

/-- What a node depends on is said by the parents alone. -/
theorem ancestry_withNames {ε : Type} (t : NodeTable α) (names : List String)
    (start : List NodeId) :
    (ancestry { t with names } start : Outcome ε (List NodeId)) = t.ancestry start := by
  have hwalk : ∀ seen stack, (collectAncestry { t with names } seen stack : Outcome ε _) =
      t.collectAncestry seen stack := by
    intro seen stack
    fun_induction collectAncestry (ε := ε) t seen stack with
    | case1 seen => rw [collectAncestry]
    | case2 seen id stack known ih => rw [collectAncestry, dif_pos known, ih]
    | case3 seen id stack known inside fault hparents =>
      have hthere : (parents { t with names } id : Outcome ε _) = .error fault := hparents
      rw [collectAncestry, dif_neg known, dif_pos inside, hthere]
    | case4 seen id stack known inside ps hparents ih =>
      have hthere : (parents { t with names } id : Outcome ε _) = .ok ps := hparents
      rw [collectAncestry, dif_neg known, dif_pos inside, hthere]
      exact ih
    | case5 seen id stack known inside => rw [collectAncestry, dif_neg known, dif_neg inside]
  exact hwalk [] start

end NodeTable

namespace Graph

/-- The graph with another list of names in use. -/
def withNames (g : Graph α) (names : List String) : Graph α :=
  { g with table := { g.table with names } }

/-- Two graphs that differ at most in how the names in use are listed. -/
structure Relisted (g g' : Graph α) : Prop where
  names : ∀ s, s ∈ g'.table.names ↔ s ∈ g.table.names
  rest : g' = g.withNames g'.table.names

namespace Relisted

variable {g g' : Graph α}

/-- Graphs that are alike on all nodes are the same but for the names in use. -/
theorem of_alikeOn (h : AlikeOn (fun _ => True) g g')
    (hnames : ∀ s, s ∈ g'.table.names ↔ s ∈ g.table.names) : Relisted g g' where
  names := hnames
  rest := by
    have hparams : g'.table.params = g.table.params :=
      Array.ext_getElem? fun id => h.table.params id trivial
    have hconstant : g'.table.constant = g.table.constant :=
      Array.ext_getElem? fun id => h.table.constant id trivial
    have hdropped : g'.table.dropped = g.table.dropped :=
      Array.ext_getElem? fun id => h.table.dropped id trivial
    simp only [withNames, ← h.table.ops, ← h.table.labels, ← h.table.parentIds,
      ← h.table.parentSpans, ← hparams, ← h.table.active, ← hconstant, ← hdropped, ← h.nextColumn,
      ← h.outputs, ← h.targets, ← h.objectives, ← h.tape, ← h.values]

/-- Relisted graphs are alike on all nodes. -/
theorem alikeOn (h : Relisted g g') (P : NodeId → Prop) : AlikeOn P g g' := by
  rw [h.rest]
  exact ⟨NodeTable.alikeOn_withNames P _ _, rfl, rfl, rfl, rfl, rfl, rfl⟩

/-- The same lists, beside anything else with the old list of names. -/
theorem withNames (h : Relisted g g') {g₁ : Graph α} (hnames : g₁.table.names = g.table.names) :
    Relisted g₁ (g₁.withNames g'.table.names) where
  names s := by
    rw [hnames]
    exact h.names s
  rest := rfl

end Relisted

end Graph

namespace Edit

/-! ## Steps -/

/-- An edit that neither asks nor changes how the names in use are listed. -/
def Blind (e : Edit α β) : Prop :=
  ∀ g g', Graph.Relisted g g' → (e.on g').1 = (e.on g).1 ∧ Graph.Relisted (e.on g).2 (e.on g').2

theorem blind_pure (b : β) : Blind (pure b : Edit α β) := fun _ _ h => ⟨rfl, h⟩

theorem blind_throw (fault : Fault GraphError) : Blind (throw fault : Edit α β) :=
  fun _ _ h => ⟨rfl, h⟩

theorem Blind.bind {e : Edit α β} {f : β → Edit α γ} (he : e.Blind) (hf : ∀ b, (f b).Blind) :
    (e >>= f).Blind := by
  intro g g' h
  obtain ⟨houtcome, hleft⟩ := he g g' h
  rw [on_bind, on_bind]
  generalize e.on g = left at houtcome hleft ⊢
  generalize e.on g' = left' at houtcome hleft ⊢
  obtain ⟨outcome, g₁⟩ := left
  obtain ⟨outcome', g₁'⟩ := left'
  obtain rfl : outcome' = outcome := houtcome
  cases outcome' with
  | error fault => exact ⟨rfl, hleft⟩
  | ok b => exact hf b g₁ g₁' hleft

theorem Blind.forM {f : γ → Edit α Unit} (hf : ∀ c, (f c).Blind) (cs : List γ) :
    Blind (cs.forM f) := by
  induction cs with
  | nil => exact blind_pure ()
  | cons c cs ih => exact (hf c).bind fun _ => ih

/-- Reading does not depend on the list of names if what is read does not. -/
theorem blind_read {f : Graph α → Outcome GraphError β} (hf : ∀ g ns, f (g.withNames ns) = f g) :
    Blind (read f) := by
  intro g g' h
  rw [on_read, on_read, h.rest, hf]
  exact ⟨rfl, h.rest ▸ h⟩

/-- Writing leaves the list of names alone if it writes to other places. -/
theorem blind_write {f : Graph α → Graph α}
    (hf : ∀ g ns, f (g.withNames ns) = (f g).withNames ns)
    (hnames : ∀ g, (f g).table.names = g.table.names) : Blind (write f) := by
  intro g g' h
  rw [on_write, on_write, h.rest, hf]
  exact ⟨rfl, h.withNames (hnames g)⟩

/-- Writing to one place of a column, in the same way. -/
theorem blind_store {column : Graph α → Array γ} {put : Graph α → Array γ → Graph α} {i : Nat}
    {c : γ} (hcolumn : ∀ g ns, column (g.withNames ns) = column g)
    (hput : ∀ g ns cs, put (g.withNames ns) cs = (put g cs).withNames ns)
    (hnames : ∀ g cs, (put g cs).table.names = g.table.names) :
    Blind (assign fun g => do
      let cs ← Outcome.store (column g) i c
      return put g cs) := by
  intro g g' h
  rw [on_assign, on_assign, h.rest, hcolumn]
  cases (Outcome.store (column g) i c : Outcome GraphError (Array γ)) with
  | error fault => exact ⟨rfl, h.rest ▸ h⟩
  | ok cs =>
    rw [Outcome.ok_bind, Outcome.ok_bind, hput]
    exact ⟨rfl, h.withNames (hnames g cs)⟩

/-! ## Adding nodes -/

theorem blind_checkParents (op : Primitive) (ps : List NodeId) (name : String) :
    Blind (read fun g : Graph α => g.checkParents op ps name) :=
  blind_read fun _ _ => rfl

theorem blind_checkNode (id : NodeId) : Blind (read fun g : Graph α => g.checkNode id) :=
  blind_read fun _ _ => rfl

theorem blind_forgetTape : Blind (forgetTape : Edit α Unit) :=
  blind_write (fun _ _ => rfl) fun _ => rfl

theorem blind_putTape (tape : Tape) : Blind (putTape tape : Edit α Unit) :=
  blind_write (fun _ _ => rfl) fun _ => rfl

section Adding

variable [Arith α]

/-- A new node gets the same name on both sides. -/
theorem blind_push (op : Primitive) (ps : List NodeId) (name : String) :
    Blind (push op ps name : Edit α NodeId) := by
  intro g g' h
  have hlabel : NodeTable.freeName g'.table.names name = NodeTable.freeName g.table.names name :=
    NodeTable.freeName_congr h.names name
  have hpush : ∀ g : Graph α, (push op ps name).on g = (.ok g.size, (g.push op ps name).2) :=
    fun _ => rfl
  rw [hpush, hpush]
  refine ⟨by rw [h.rest]; rfl, fun s => ?_, ?_⟩
  · simp only [Graph.push, NodeTable.addNode, List.mem_cons, hlabel, h.names s]
  · rw [h.rest] at hlabel ⊢
    have htable : ((g.withNames g'.table.names).table.addNode op ps name).2 =
        { (g.table.addNode op ps name).2 with
          names := NodeTable.freeName g.table.names name :: g'.table.names } := by
      rw [NodeTable.addNode, hlabel]
      rfl
    simp only [Graph.push, htable]
    rfl

theorem blind_appendInput (name : String) : Blind (appendInput name : Edit α NodeId) :=
  (blind_read fun _ _ => rfl).bind fun column =>
    .bind (blind_write (fun _ _ => rfl) fun _ => rfl) fun _ => blind_push (.input column) [] name

theorem blind_addInput (name : String) : Blind (addInput name : Edit α NodeId) := by
  refine (blind_read fun _ _ => rfl).bind fun column => ?_
  split
  · exact blind_appendInput name
  · exact blind_throw .outOfRange

theorem blind_addNode (op : Primitive) (ps : List NodeId) (name : String) :
    Blind (addNode op ps name : Edit α NodeId) := by
  unfold addNode
  split
  · exact blind_throw _
  · exact (blind_checkParents op ps name).bind fun _ => blind_push op ps name

theorem blind_addOutput (ps : List NodeId) (name : String) :
    Blind (addOutput ps name : Edit α NodeId) :=
  (blind_checkParents .output ps name).bind fun _ => (blind_push .output ps name).bind fun id =>
    .bind (blind_write (fun _ _ => rfl) fun _ => rfl) fun _ => blind_pure id

theorem blind_addTarget (name : String) : Blind (addTarget name : Edit α NodeId) :=
  (blind_push .target [] name).bind fun id =>
    .bind (blind_write (fun _ _ => rfl) fun _ => rfl) fun _ => blind_pure id

theorem blind_addObjective (output target : NodeId) (name : String) :
    Blind (addObjective output target name : Edit α NodeId) :=
  (blind_checkParents .objective [output, target] name).bind fun _ =>
    (blind_push .objective [output, target] name).bind fun id =>
      .bind (blind_write (fun _ _ => rfl) fun _ => rfl) fun _ => blind_pure id

end Adding

/-! ## Changing nodes -/

theorem blind_setParams (id : NodeId) (params : List α) : Blind (setParams id params) := by
  refine (blind_checkNode id).bind fun _ => (blind_read fun _ _ => rfl).bind fun op =>
    (blind_read fun _ _ => rfl).bind fun ps => ?_
  dsimp only
  split
  · exact (blind_read fun _ _ => rfl).bind fun label => blind_throw _
  · exact blind_store (fun _ _ => rfl) (fun _ _ _ => rfl) fun _ _ => rfl

theorem blind_setConstant (id : NodeId) (value : Bool) :
    Blind (setConstant id value : Edit α Unit) :=
  (blind_checkNode id).bind fun _ =>
    blind_store (fun _ _ => rfl) (fun _ _ _ => rfl) fun _ _ => rfl

theorem blind_setDropped (id : NodeId) (value : Bool) :
    Blind (setDropped id value : Edit α Unit) :=
  (blind_checkNode id).bind fun _ =>
    blind_store (fun _ _ => rfl) (fun _ _ _ => rfl) fun _ _ => rfl

theorem blind_clearDropped : Blind (clearDropped : Edit α Unit) :=
  blind_write (fun _ _ => rfl) fun _ => rfl

/-! ## Activation -/

theorem blind_assignActive (id : NodeId) (value : Bool) :
    Blind (assignActive id value : Edit α Unit) :=
  blind_store (fun _ _ => rfl) (fun _ _ _ => rfl) fun _ _ => rfl

theorem blind_setActive (id : NodeId) (value : Bool) : Blind (setActive id value : Edit α Unit) :=
  (blind_checkNode id).bind fun _ => (blind_assignActive id value).bind fun _ => blind_forgetTape

theorem blind_setAllActive (value : Bool) : Blind (setAllActive value : Edit α Unit) :=
  blind_write (fun _ _ => rfl) fun _ => rfl

theorem blind_activateOnly (keep : List NodeId) : Blind (activateOnly keep : Edit α Unit) :=
  blind_write (fun _ _ => rfl) fun _ => rfl

theorem blind_activateBranch (id : NodeId) : Blind (activateBranch id : Edit α Nat) :=
  (blind_checkNode id).bind fun _ =>
    (blind_read fun g ns => g.table.ancestry_withNames ns [id]).bind fun branch =>
      (Blind.forM (fun node => blind_assignActive node true) branch).bind fun _ =>
        blind_forgetTape.bind fun _ => blind_pure branch.length

theorem blind_compile : Blind (read fun g : Graph α => g.table.compile) :=
  blind_read fun _ _ => NodeTable.SameShape.compile ⟨rfl, rfl, rfl, rfl, rfl⟩

theorem blind_bypassInactive : Blind (bypassInactive : Edit α Nat) :=
  blind_compile.bind fun tape => (blind_putTape tape).bind fun _ =>
    .bind (blind_write (fun _ _ => rfl) fun _ => rfl) fun _ => blind_pure tape.size

/-! ## Passes -/

theorem blind_takeTape : Blind (takeTape : Edit α Tape) := by
  refine (blind_read fun _ _ => rfl).bind fun cached => blind_forgetTape.bind fun _ => ?_
  cases cached with
  | none => exact blind_compile
  | some tape => exact blind_pure tape

section Passes

variable [Arith α]

theorem blind_runForward (x : Matrix α) (y : Option (List α)) : Blind (runForward x y) :=
  blind_takeTape.bind fun tape =>
    (blind_read fun g ns =>
      (NodeTable.alikeOn_withNames (fun _ => True) g.table ns).forward_eq fun _ _ => trivial).bind
        fun _ => .bind (blind_write (fun _ _ => rfl) fun _ => rfl) fun _ => blind_pure tape

theorem blind_evaluate (x : Matrix α) (y : Option (List α)) : Blind (evaluate x y) :=
  (blind_runForward x y).bind fun tape => blind_putTape tape

theorem blind_gradients (x : Matrix α) (y : List α) : Blind (gradients x y) := by
  refine (blind_read fun _ _ => rfl).bind fun objective => (blind_runForward x (some y)).bind
    fun tape => .bind (blind_read fun g ns => ?_) fun result => (blind_putTape tape).bind
      fun _ => (blind_read fun _ _ => rfl).bind fun adjoint => blind_pure adjoint.params
  have hbackward := (NodeTable.alikeOn_withNames (fun _ => True) g.table ns).backward_eq
    (p := tape) (fun _ _ => trivial) g.values objective
  exact congrArg Except.ok hbackward

end Passes

end Edit

/-! ## Actions -/

namespace Graph.Relisted

variable {g g' : Graph α}

theorem answering (h : Relisted g g') {e : Edit α β} (he : e.Blind) (f : β → Answer α) :
    (g'.answering e f).1 = (g.answering e f).1 ∧
      Relisted (g.answering e f).2 (g'.answering e f).2 := by
  obtain ⟨houtcome, hleft⟩ := he g g' h
  rw [Graph.answering, Graph.answering, houtcome]
  exact ⟨rfl, hleft⟩

variable [Arith α]

/-- No action can tell relisted graphs apart. -/
theorem respond (h : Relisted g g') (hg : g.Sound) (a : Action α) :
    (g'.respond a).1 = (g.respond a).1 ∧ Relisted (g.respond a).2 (g'.respond a).2 := by
  cases a with
  | addInput name => exact h.answering (Edit.blind_addInput name) _
  | appendInput name => exact h.answering (Edit.blind_appendInput name) _
  | addNode op ps name => exact h.answering (Edit.blind_addNode op ps name) _
  | addOutput ps name => exact h.answering (Edit.blind_addOutput ps name) _
  | addTarget name => exact h.answering (Edit.blind_addTarget name) _
  | addObjective output target name =>
    exact h.answering (Edit.blind_addObjective output target name) _
  | setParams id params => exact h.answering (Edit.blind_setParams id params) _
  | setConstant id value => exact h.answering (Edit.blind_setConstant id value) _
  | setActive id value => exact h.answering (Edit.blind_setActive id value) _
  | setAllActive value => exact h.answering (Edit.blind_setAllActive value) _
  | activateBranch id => exact h.answering (Edit.blind_activateBranch id) _
  | activateOnly keep => exact h.answering (Edit.blind_activateOnly keep) _
  | bypassInactive => exact h.answering Edit.blind_bypassInactive _
  | setDropped id value => exact h.answering (Edit.blind_setDropped id value) _
  | clearDropped => exact h.answering Edit.blind_clearDropped _
  | evaluate x y => exact h.answering (Edit.blind_evaluate x y) _
  | gradients x y => exact h.answering (Edit.blind_gradients x y) _
  | optimize o x y n rate =>
    have htwins : Twins (fun _ => True) g g' := ⟨h.alikeOn _, hg, fun _ _ => trivial⟩
    obtain ⟨hresponse, hleft⟩ := htwins.respond (a := .optimize o x y n rate) rfl
    have hnames : ∀ s, s ∈ (o.run g' x y n rate).1.graph.table.names ↔
        s ∈ (o.run g x y n rate).1.graph.table.names := by
      rw [(onlyTrained_run g' o x y n rate).names, (onlyTrained_run g o x y n rate).names]
      exact h.names
    exact ⟨hresponse, .of_alikeOn hleft.toAlikeOn hnames⟩

/-- Nor can any sequence of actions. -/
theorem afterAll (h : Relisted g g') (hg : g.Sound) (acts : List (Action α)) :
    Relisted (g.afterAll acts) (g'.afterAll acts) := by
  induction acts generalizing g g' with
  | nil => exact h
  | cons a acts ih =>
    have hnext := (h.respond hg a).2
    have hsound := hg.after a
    rw [respond_snd, respond_snd] at hnext
    rw [← Edit.on_perform hg.table] at hsound
    exact ih hnext hsound

end Graph.Relisted

end FeatureGraph
