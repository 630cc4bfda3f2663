import Mathlib
import FeatureGraph.Proofs.Ensemble
import FeatureGraph.Proofs.Reordering

/-!
# Estimates of an ensemble

A prediction calls its controller once before each pass, with the mask that the call before has
left, and answers the mean of what the passes answer.

* `length_forward` says that every column has an entry for each row, also in a graph that is not
  sound.
* `Model.draws` are the calls.  `Resumes` is what connects a pass with the graph that the first
  pass has started from, and `outputColumns_eq_ok_iff` says what all of them answer.
* `meanColumn_eq_means` and `meanColumn_replicate` are the mean in exact arithmetic.
* `predict_averages_draws` is the statement about predictions of any model.
-/

namespace FeatureGraph

variable {ε α : Type}

/-- A reworded failure is a failure. -/
theorem Outcome.exists_mapFailure_eq_error {β δ : Type} (f : ε → δ) (fault : Fault ε) :
    ∃ fault', mapFailure f (.error fault : Outcome ε β) = .error fault' := by
  cases fault <;> exact ⟨_, rfl⟩

/-! ## Columns have an entry for each row -/

@[simp] theorem Column.length_overwrite₂ (f : α → α → α) (dest as bs : List α) :
    (Column.overwrite₂ f dest as bs).length = dest.length :=
  Column.length_overwrite _ _ _

section Lengths

variable [Arith α]

theorem Primitive.length_forward {op : Primitive} {params : List α} {srcs : List (List α)} {n : Nat}
    {column : List α} (h : (op.forward params srcs n : Outcome ε (List α)) = .ok column) :
    column.length = n := by
  cases op with
  | linear | output =>
    obtain ⟨bias, _, h⟩ := Outcome.bind_eq_ok.1 h
    have hsum : ∀ (l : List (α × List α)) (d : List α),
        (l.foldl (fun d p => Column.addScaled p.1 d p.2) d).length = d.length := by
      intro l
      induction l with
      | nil => exact fun _ => rfl
      | cons p l ih => exact fun d => (ih _).trans (Column.length_addScaled _ _ _)
    rw [Outcome.ok_eq_iff.1 h, hsum, List.length_replicate]
  | exp | log | modulus =>
    obtain ⟨a, _, h⟩ := Outcome.bind_eq_ok.1 h
    simp [Outcome.ok_eq_iff.1 h]
  | pow | div | mult | objective =>
    obtain ⟨a, _, h⟩ := Outcome.bind_eq_ok.1 h
    obtain ⟨b, _, h⟩ := Outcome.bind_eq_ok.1 h
    simp [Outcome.ok_eq_iff.1 h]
  | input _ | target => simp [Outcome.ok_eq_iff.1 h]

namespace Tape

variable {t : NodeTable α} {p : Tape} {x : Matrix α} {y : Option (List α)}

theorem length_stepColumn {done : Slots α} {step : Instruction} {column : List α}
    (h : stepColumn t x y done step = .ok column) : column.length = x.nRows := by
  obtain ⟨op, _, h⟩ := Outcome.bind_eq_ok.1 h
  split at h
  · rename_i column' _
    obtain ⟨hcolumn, rfl⟩ : ∃ hc : column' < x.nCols,
        column = List.ofFn fun r => x.entry r ⟨column', hc⟩ := by
      unfold Matrix.column? at h
      split at h
      · exact ⟨‹_›, (Except.ok.inj h).symm⟩
      · cases h
    simp
  · simp [Outcome.ok_eq_iff.1 h]
  · simp [Outcome.ok_eq_iff.1 h]
  · simp [Outcome.ok_eq_iff.1 h]
  · obtain ⟨srcs, _, h⟩ := Outcome.bind_eq_ok.1 h
    obtain ⟨params, _, h⟩ := Outcome.bind_eq_ok.1 h
    exact Primitive.length_forward h

/-- All columns of a forward pass have an entry for each row. -/
theorem length_forward {values : Slots α} (h : p.forward t x y = .ok values) :
    ∀ column ∈ values.columns, column.length = x.nRows := by
  obtain ⟨_, h⟩ := Outcome.check_bind_eq_ok.1 h
  refine Outcome.foldlM_keeps
    (P := fun done : Slots α => ∀ column ∈ done.columns, column.length = x.nRows) h (by simp)
    fun done done' step _ hdone hstep => ?_
  obtain ⟨column, hcolumn, hstep⟩ := Outcome.bind_eq_ok.1 hstep
  obtain ⟨dropped, _, hstep⟩ := Outcome.bind_eq_ok.1 hstep
  rw [Outcome.ok_eq_iff.1 hstep]
  intro c hc
  rcases Array.mem_push.1 hc with hc | rfl
  · exact hdone c hc
  · split
    · simp
    · exact length_stepColumn hcolumn

end Tape

end Lengths

/-! ## Passes under a mask -/

namespace Graph

variable [Arith α] {g : Graph α}

omit [Arith α] in
/-- The tape does not depend on the mask. -/
theorem currentTape_withMask {size width : Nat} (g : Graph α) (m : Mask size width) :
    (g.withMask m).currentTape = g.currentTape := by
  unfold currentTape
  cases htape : g.tape with
  | none =>
    have hshape : NodeTable.SameShape g.table (g.withMask m).table := ⟨rfl, rfl, rfl, rfl, rfl⟩
    simp only [withMask, htape]
    exact hshape.compile
  | some tape => simp only [withMask, htape]

end Graph

namespace Model

variable [Arith α] {γ σ : Type} {x : Matrix α} {output : NodeId} {g g' : Graph α}

/-- A pass answers the column in the slot of the output, if there is one, and leaves the tape. -/
theorem outputColumn_eq_ok_iff {column : List α} :
    outputColumn output g x = (.ok column, g') ↔
      ∃ tape values, g.currentTape = .ok tape ∧ tape.forward g.table x none = .ok values ∧
        (tape.slotOf? output).bind (values.columns[·]?) = some column ∧
        g' = { g with tape := some tape, values } := by
  unfold outputColumn Graph.evaluate
  cases hrun : g.runForward x none with
  | error fault =>
    refine ⟨fun h => (nomatch congrArg Prod.fst h), ?_⟩
    rintro ⟨tape, values, htape, hvalues, _⟩
    cases hrun.symm.trans (Graph.runForward_eq_ok.2 ⟨htape, hvalues⟩)
  | ok p =>
    obtain ⟨tape, values⟩ := p
    obtain ⟨htape, hvalues⟩ := Graph.runForward_eq_ok.1 hrun
    trans (tape.slotOf? output).bind (values.columns[·]?) = some column ∧
      g' = { g with tape := some tape, values }
    · dsimp only [Except.map, Graph.afterForward, Graph.vals?]
      simp only [Option.bind_eq_bind, Option.bind_some]
      cases (tape.slotOf? output).bind (values.columns[·]?) with
      | none => simp [Outcome.fail]
      | some c => simp [eq_comm]
    · constructor
      · exact fun h => ⟨tape, values, htape, hvalues, h⟩
      · rintro ⟨tape', values', htape', hvalues', h⟩
        cases htape.symm.trans htape'
        cases hvalues.symm.trans hvalues'
        exact h

/-- What a pass answers depends on the table and on the tape. -/
theorem outputColumn_congr (htable : g'.table = g.table) (htape : g'.currentTape = g.currentTape)
    {column : List α} (h : (outputColumn output g x).1 = .ok column) :
    (outputColumn output g' x).1 = .ok column := by
  obtain ⟨tape, values, hcurrent, hvalues, hcolumn, _⟩ := outputColumn_eq_ok_iff.1 (Prod.ext h rfl)
  exact congrArg Prod.fst (outputColumn_eq_ok_iff.2
    ⟨tape, values, htape.trans hcurrent, htable ▸ hvalues, hcolumn, rfl⟩)

/-- A column that a pass answers has an entry for each row. -/
theorem length_outputColumn {column : List α} (h : (outputColumn output g x).1 = .ok column) :
    column.length = x.nRows := by
  obtain ⟨tape, values, _, hvalues, hcolumn, _⟩ := outputColumn_eq_ok_iff.1 (Prod.ext h rfl)
  obtain ⟨slot, _, hslot⟩ := Option.bind_eq_some_iff.1 hcolumn
  exact Tape.length_forward hvalues column (Array.mem_of_getElem? hslot)

/-! ## Calls of a controller -/

/-- Asks the controller, if there is one, for a mask in place of the given one. -/
def drawMask {size width : Nat} (controller : Option (Controller γ σ)) (state : γ)
    (m : Mask size width) (source : σ) : Sampled γ σ size width :=
  match controller with
  | none => ⟨.ok (), state, m, source⟩
  | some c => c.sample state m source

/-- What each of `n` calls leaves behind.  A call starts from what the one before it has left. -/
def draws {size width : Nat} (controller : Option (Controller γ σ)) :
    Nat → γ → Mask size width → σ → List (Sampled γ σ size width)
  | 0, _, _, _ => []
  | n + 1, state, m, source =>
    let drawn := drawMask controller state m source
    drawn :: draws controller n drawn.state drawn.mask drawn.source

@[simp] theorem length_draws {size width : Nat} (controller : Option (Controller γ σ)) (n : Nat)
    (state : γ) (m : Mask size width) (source : σ) :
    (draws controller n state m source).length = n := by
  induction n generalizing state m source with
  | zero => rfl
  | succ n ih => simp [draws, ih]

/-- The graph `g'` is what passes over `g` have left behind, with the mask `m`: it differs in the
mask and in the caches only, and a pass over it finds the same tape. -/
structure Resumes {width : Nat} (g g' : Graph α) (m : Mask g.size width) : Prop where
  table : g'.table = (g.withMask m).table
  tape : g'.currentTape = g.currentTape

omit [Arith α] in
theorem resumes_self (g : Graph α) : Resumes g g g.mask := ⟨rfl, rfl⟩

variable {width : Nat} {m : Mask g.size width}

omit [Arith α] in
/-- A call on what is left behind is a call on the mask. -/
theorem Resumes.sampleMask (h : Resumes g g' m) (controller : Option (Controller γ σ)) (state : γ)
    (source : σ) :
    (sampleMask controller g' state source).outcome =
        (drawMask controller state m source).outcome ∧
      (sampleMask controller g' state source).state = (drawMask controller state m source).state ∧
      (sampleMask controller g' state source).source =
        (drawMask controller state m source).source ∧
      Resumes g (g'.withMask (Model.sampleMask controller g' state source).mask)
        (drawMask controller state m source).mask := by
  obtain ⟨htable, htape⟩ := h
  obtain ⟨table, nextColumn, outputs, targets, objectives, tape, values⟩ := g'
  obtain rfl : table = _ := htable
  obtain ⟨⟨flags, rfl⟩⟩ := m
  cases controller with
  | none => exact ⟨rfl, rfl, rfl, rfl, htape⟩
  | some c => exact ⟨rfl, rfl, rfl, rfl, (Graph.currentTape_withMask _ _).trans htape⟩

/-- What is left behind by a pass that has succeeded is resumed. -/
theorem Resumes.outputColumn (h : Resumes g g' m) {column : List α}
    (hpass : (Model.outputColumn output g' x).1 = .ok column) :
    Resumes g (Model.outputColumn output g' x).2 m := by
  have hpair : Model.outputColumn output g' x =
      (.ok column, (Model.outputColumn output g' x).2) := Prod.ext hpass rfl
  obtain ⟨tape, values, htape, _, _, hleft⟩ := outputColumn_eq_ok_iff.1 hpair
  rw [hleft]
  exact ⟨h.table, htape.symm.trans h.tape⟩

/-- A pass over what is left behind succeeds exactly if one over the first graph does under the same
mask, and both answer the same. -/
theorem Resumes.outputColumn_eq_ok_iff (h : Resumes g g' m) {column : List α} :
    (Model.outputColumn output g' x).1 = .ok column ↔
      (Model.outputColumn output (g.withMask m) x).1 = .ok column := by
  have htape : g'.currentTape = (g.withMask m).currentTape :=
    h.tape.trans (Graph.currentTape_withMask g m).symm
  exact ⟨outputColumn_congr h.table.symm htape.symm, outputColumn_congr h.table htape⟩

/-- What the passes of an ensemble answer: a column under each of the masks that the calls leave, if
all calls and all passes succeed. -/
def Answered {width : Nat} (output : NodeId) (g : Graph α) (x : Matrix α)
    (drawn : List (Sampled γ σ g.size width)) (columns : List (List α)) : Prop :=
  List.Forall₂ (fun s column => s.outcome = .ok () ∧
    (outputColumn output (g.withMask s.mask) x).1 = .ok column) drawn columns

theorem Answered.unique {drawn : List (Sampled γ σ g.size width)} {columns columns' : List (List α)}
    (h : Answered output g x drawn columns) (h' : Answered output g x drawn columns') :
    columns = columns' :=
  List.right_unique_forall₂' (fun _ _ _ hc hc' => Except.ok.inj (hc.2.symm.trans hc'.2)) h h'

theorem Answered.length_column {drawn : List (Sampled γ σ g.size width)} {columns : List (List α)}
    (h : Answered output g x drawn columns) : ∀ column ∈ columns, column.length = x.nRows := by
  intro column hcolumn
  obtain ⟨k, hk, rfl⟩ := List.getElem_of_mem hcolumn
  have hall := List.forall₂_iff_get.1 h
  exact length_outputColumn (hall.2 k (hall.1 ▸ hk) hk).2

/-- The passes answer what they would answer one by one over the first graph.  If they succeed then
the controller and the random source are left as the last call has left them. -/
theorem Resumes.outputColumns_cases (h : Resumes g g' m) (controller : Option (Controller γ σ))
    (n : Nat) (state : γ) (source : σ) :
    (∃ columns, Answered output g x (draws controller n state m source) columns ∧
      (outputColumns controller output x n g' state source).outcome = .ok columns ∧
      (outputColumns controller output x n g' state source).controller =
        ((draws controller n state m source).getLast?.map (·.state)).getD state ∧
      (outputColumns controller output x n g' state source).source =
        ((draws controller n state m source).getLast?.map (·.source)).getD source) ∨
    (∀ columns, ¬Answered output g x (draws controller n state m source) columns) ∧
      ∃ fault, (outputColumns controller output x n g' state source).outcome = .error fault := by
  induction n generalizing g' m state source with
  | zero => exact .inl ⟨[], .nil, rfl, rfl, rfl⟩
  | succ n ih =>
    obtain ⟨houtcome, hstate, hsource, hresumes⟩ := h.sampleMask controller state source
    unfold outputColumns draws
    dsimp only
    set drawn := drawMask controller state m source
    rw [houtcome, hstate, hsource]
    cases hcall : drawn.outcome with
    | error fault =>
      refine .inr ⟨?_, Outcome.exists_mapFailure_eq_error _ fault⟩
      rintro _ (_ | ⟨⟨hok, _⟩, _⟩)
      cases hcall.symm.trans hok
    | ok _ =>
      dsimp only
      rcases hpass : Model.outputColumn output
        (g'.withMask (Model.sampleMask controller g' state source).mask) x with
        ⟨fault | column, g''⟩
      · refine .inr ⟨?_, Outcome.exists_mapFailure_eq_error _ fault⟩
        rintro _ (_ | ⟨⟨_, hcolumn⟩, _⟩)
        cases (congrArg Prod.fst hpass).symm.trans (hresumes.outputColumn_eq_ok_iff.2 hcolumn)
      · have hcolumn := hresumes.outputColumn_eq_ok_iff.1 (congrArg Prod.fst hpass)
        have hnext := hresumes.outputColumn (congrArg Prod.fst hpass)
        rw [hpass] at hnext
        dsimp only
        rw [List.getLast?_cons]
        rcases ih hnext drawn.state drawn.source with
          ⟨columns, hall, hrun, hstate, hsource⟩ | ⟨hnone, fault, hrun⟩
        · refine .inl ⟨column :: columns, .cons ⟨hcall, hcolumn⟩ hall, by rw [hrun]; rfl, ?_, ?_⟩
          · rw [hstate]
            cases (draws controller n drawn.state drawn.mask drawn.source).getLast? <;> rfl
          · rw [hsource]
            cases (draws controller n drawn.state drawn.mask drawn.source).getLast? <;> rfl
        · refine .inr ⟨?_, fault, by rw [hrun]; rfl⟩
          rintro _ (_ | ⟨_, hrest⟩)
          exact hnone _ hrest

/-! ## Calls that leave one mask -/

/-- A call has succeeded and has left the mask `m`. -/
def Leaves {size width : Nat} (drawn : Sampled γ σ size width) (m : Mask size width) : Prop :=
  drawn.outcome = .ok () ∧ drawn.mask = m

omit [Arith α] in
/-- If a call on the first mask leaves `m`, and a call on `m` too, then all calls do. -/
theorem forall_draws_leave {size width : Nat} {controller : Option (Controller γ σ)}
    {m₀ m : Mask size width}
    (hfirst : ∀ state source, Leaves (drawMask controller state m₀ source) m)
    (hnext : ∀ state source, Leaves (drawMask controller state m source) m) (n : Nat) (state : γ)
    (source : σ) : ∀ s ∈ draws controller n state m₀ source, Leaves s m := by
  induction n generalizing m₀ state source with
  | zero => exact fun s hs => nomatch hs
  | succ n ih =>
    intro s hs
    rcases List.mem_cons.1 hs with rfl | hs
    · exact hfirst state source
    · rw [(hfirst state source).2] at hs
      exact ih hnext _ _ s hs

/-- If all calls leave one mask then all passes answer the same. -/
theorem answered_iff {drawn : List (Sampled γ σ g.size width)} {columns : List (List α)}
    (hne : drawn ≠ []) (hleaves : ∀ s ∈ drawn, Leaves s m) :
    Answered output g x drawn columns ↔
      ∃ column, (outputColumn output (g.withMask m) x).1 = .ok column ∧
        columns = List.replicate drawn.length column := by
  constructor
  · intro h
    obtain ⟨s, rest, rfl⟩ := List.exists_cons_of_ne_nil hne
    obtain ⟨column, columns, ⟨_, hcolumn⟩, hrest, rfl⟩ := List.forall₂_cons_left_iff.1 h
    rw [(hleaves s (by simp)).2] at hcolumn
    refine ⟨column, hcolumn, List.eq_replicate_iff.2 ⟨h.length_eq.symm, fun c hc => ?_⟩⟩
    obtain ⟨k, hk, rfl⟩ := List.getElem_of_mem hc
    have hall := List.forall₂_iff_get.1 h
    obtain ⟨_, hpass⟩ := hall.2 k (hall.1 ▸ hk) hk
    rw [(hleaves _ (List.get_mem _ _)).2, hcolumn] at hpass
    exact (Except.ok.inj hpass).symm
  · rintro ⟨column, hcolumn, rfl⟩
    refine List.forall₂_iff_get.2 ⟨by simp, fun k hk _ => ?_⟩
    obtain ⟨hok, hmask⟩ := hleaves _ (List.get_mem drawn ⟨k, hk⟩)
    rw [hmask]
    exact ⟨hok, by simpa using hcolumn⟩

end Model

namespace Mask

variable {size width : Nat}

/-- The mask that drops the listed nodes and no others. -/
def ofNodes (nodes : List NodeId) : Mask size width :=
  ⟨Vector.ofFn fun i => decide (i.val ∈ nodes)⟩

theorem isDropped_ofNodes {nodes : List NodeId} {id : NodeId} :
    (ofNodes nodes : Mask size width).isDropped id = true ↔ id < width ∧ id ∈ nodes := by
  unfold isDropped ofNodes
  by_cases hid : id < width <;> simp [hid]

/-- Dropping nodes that are there succeeds. -/
theorem dropFrom_eq {nodes : List NodeId} (hnodes : ∀ id ∈ nodes, id < size ∧ id < width)
    (m : Mask size width) :
    Dropout.dropFrom nodes m =
      (.ok (), ⟨Vector.ofFn fun i => m.flags[i] || decide (i.val ∈ nodes)⟩) := by
  induction nodes generalizing m with
  | nil =>
    refine congrArg (Prod.mk _) (congrArg Mask.mk (Vector.ext fun i hi => ?_))
    simp
  | cons id nodes ih =>
    obtain ⟨hsize, hwidth⟩ := hnodes id (by simp)
    have hset : m.setDropped id true = .ok ⟨m.flags.set id true⟩ := by
      rw [setDropped, if_pos hsize, dif_pos hwidth]
    rw [Dropout.dropFrom, hset]
    dsimp only
    rw [ih fun i hi => hnodes i (by simp [hi])]
    refine congrArg (Prod.mk _) (congrArg Mask.mk (Vector.ext fun i hi => ?_))
    by_cases hid : id = i
    · subst hid
      simp
    · simp [Vector.getElem_set, hid, Ne.symm hid]

theorem leaves_fixed {σ : Type} {nodes : List NodeId}
    (hnodes : ∀ id ∈ nodes, id < size ∧ id < width) (m : Mask size width) (source : σ) :
    Model.Leaves ((Dropout.fixed nodes : Controller Unit σ).sample () m source)
      (ofNodes nodes) := by
  unfold Dropout.fixed
  dsimp only
  rw [dropFrom_eq hnodes]
  refine ⟨rfl, congrArg Mask.mk (Vector.ext fun i hi => ?_)⟩
  simp [clear]

end Mask

/-! ## Means -/

namespace Model

section Means

variable [ExactArith α]

/-- The mean over an ensemble is the mean of the entries, row by row. -/
theorem meanColumn_eq_means {n : Nat} {columns : List (List α)}
    (h : ∀ column ∈ columns, column.length = n) :
    meanColumn n columns = List.ofFn fun r : Fin n => Arith.mean (columns.map (·.getD r 0)) := by
  have hsums : ∀ f : Fin n → α, columns.foldl (Column.update (· + ·)) (List.ofFn f) =
      List.ofFn fun r => f r + (columns.map (·.getD r 0)).sum := by
    induction columns with
    | nil => simp
    | cons column rest ih =>
      intro f
      obtain ⟨c, rfl⟩ := exists_eq_ofFn (h column (by simp))
      rw [List.foldl_cons, Column.update_eq_zipWith _ (by simp), Column.zipWith_ofFn,
        ih fun c hc => h c (by simp [hc])]
      simp [add_assoc]
  unfold meanColumn
  rw [Column.zeros_eq_ofFn, hsums, List.map_ofFn]
  refine List.ofFn_inj.2 (funext fun r => ?_)
  simp [Arith.mean, Arith.sum_eq_sum]

/-- The mean of equal entries is the entry. -/
theorem mean_replicate (hdiv : ∀ n : Nat, 0 < n → (n : α) * (1 / (n : α)) = 1) {n : Nat}
    (hn : 0 < n) (a : α) : Arith.mean (List.replicate n a) = a := by
  rw [Arith.mean, Arith.sum_eq_sum, List.sum_replicate, List.length_replicate, nsmul_eq_mul,
    ExactArith.div_eq, mul_right_comm, hdiv n hn, one_mul]

/-- The mean of equal columns is the column. -/
theorem meanColumn_replicate (hdiv : ∀ n : Nat, 0 < n → (n : α) * (1 / (n : α)) = 1) {n : Nat}
    (hn : 0 < n) {nRows : Nat} {column : List α} (h : column.length = nRows) :
    meanColumn nRows (List.replicate n column) = column := by
  obtain ⟨c, rfl⟩ := exists_eq_ofFn h
  rw [meanColumn_eq_means fun _ hc => List.eq_of_mem_replicate hc ▸ h]
  refine List.ofFn_inj.2 (funext fun r => ?_)
  rw [List.map_replicate, mean_replicate hdiv hn]
  simp

end Means

/-! ## Predictions -/

section Predictions

variable [Arith α] {γ σ : Type}

variable {model : Model α} {controller : Option (Controller γ σ)} {state : γ} {x : Matrix α}
  {n : Nat} {source : σ} {column : List α}

/-- A prediction succeeds exactly if all calls and all passes succeed, and answers the mean of what
the passes answer. -/
theorem predict_eq_ok_iff (hn : 0 < n) :
    (model.predict controller state x n source).outcome = .ok column ↔
      ∃ columns, Answered model.output model.graph x
          (draws controller n state model.graph.mask source) columns ∧
        column = meanColumn x.nRows columns := by
  unfold predict
  rw [if_neg (Nat.ne_of_gt hn)]
  dsimp only
  rw [Outcome.map_eq_ok]
  rcases (resumes_self model.graph).outputColumns_cases controller n state source with
    ⟨columns, hall, hrun, _⟩ | ⟨hnone, fault, hrun⟩
  · rw [hrun]
    constructor
    · rintro ⟨_, hok, rfl⟩
      cases hok
      exact ⟨columns, hall, rfl⟩
    · rintro ⟨columns', hall', rfl⟩
      exact ⟨columns', by rw [hall.unique hall'], rfl⟩
  · rw [hrun]
    constructor
    · rintro ⟨_, hok, _⟩
      cases hok
    · rintro ⟨columns, hall, _⟩
      exact absurd hall (hnone columns)

/-- A prediction that succeeds leaves the controller and the random source as the last call has left
them. -/
theorem left_of_predict_eq_ok (hn : 0 < n)
    (h : (model.predict controller state x n source).outcome = .ok column)
    {last : Sampled γ σ model.graph.size model.graph.table.dropped.size}
    (hlast : (draws controller n state model.graph.mask source).getLast? = some last) :
    (model.predict controller state x n source).controller = last.state ∧
      (model.predict controller state x n source).source = last.source := by
  unfold predict at h ⊢
  rw [if_neg (Nat.ne_of_gt hn)] at h ⊢
  dsimp only at h ⊢
  rcases (resumes_self model.graph).outputColumns_cases controller n state source with
    ⟨columns, hall, hrun, hstate, hsource⟩ | ⟨hnone, fault, hrun⟩
  · rw [hstate, hsource, hlast]
    exact ⟨rfl, rfl⟩
  · rw [hrun] at h
    cases h

end Predictions

section Exact

variable [ExactArith α] {γ σ : Type}

/-- If all calls leave one mask then a prediction answers what one pass under this mask answers. -/
theorem predict_eq_pass (hdiv : ∀ n : Nat, 0 < n → (n : α) * (1 / (n : α)) = 1) {model : Model α}
    {controller : Option (Controller γ σ)}
    {m : Mask model.graph.size model.graph.table.dropped.size}
    (hfirst : ∀ state source, Leaves (drawMask controller state model.graph.mask source) m)
    (hnext : ∀ state source, Leaves (drawMask controller state m source) m) {state : γ}
    {x : Matrix α} {n : Nat} (hn : 0 < n) {source : σ} {column : List α} :
    (model.predict controller state x n source).outcome = .ok column ↔
      (outputColumn model.output (model.graph.withMask m) x).1 = .ok column := by
  have hleave := forall_draws_leave hfirst hnext n state source
  have hne : draws controller n state model.graph.mask source ≠ [] := by
    rw [← List.length_pos_iff, length_draws]
    exact hn
  rw [predict_eq_ok_iff hn]
  constructor
  · rintro ⟨columns, hall, rfl⟩
    obtain ⟨c, hpass, rfl⟩ := (answered_iff hne hleave).1 hall
    rw [length_draws, meanColumn_replicate hdiv hn (length_outputColumn hpass), hpass]
  · intro hpass
    refine ⟨_, (answered_iff hne hleave).2 ⟨column, hpass, rfl⟩, ?_⟩
    rw [length_draws, meanColumn_replicate hdiv hn (length_outputColumn hpass)]

/-- However many passes a prediction makes, it answers what one pass answers, and that is the output
of one evaluation under the mask `m`. -/
def IsSinglePass (model : Model α) (controller : Option (Controller γ σ))
    (m : Mask model.graph.size model.graph.table.dropped.size) : Prop :=
  ∀ (state : γ) (x : Matrix α) (source : σ) (n : Nat), 0 < n → ∀ column,
    ((model.predict controller state x n source).outcome = .ok column ↔
      (model.predict controller state x 1 source).outcome = .ok column) ∧
    ((model.predict controller state x 1 source).outcome = .ok column ↔
      (outputColumn model.output (model.graph.withMask m) x).1 = .ok column)

theorem isSinglePass (hdiv : ∀ n : Nat, 0 < n → (n : α) * (1 / (n : α)) = 1) {model : Model α}
    {controller : Option (Controller γ σ)}
    {m : Mask model.graph.size model.graph.table.dropped.size}
    (hfirst : ∀ state source, Leaves (drawMask controller state model.graph.mask source) m)
    (hnext : ∀ state source, Leaves (drawMask controller state m source) m) :
    model.IsSinglePass controller m := by
  intro state x source n hn column
  have hone : (model.predict controller state x 1 source).outcome = .ok column ↔
      (outputColumn model.output (model.graph.withMask m) x).1 = .ok column :=
    predict_eq_pass hdiv hfirst hnext Nat.one_pos
  exact ⟨(predict_eq_pass hdiv hfirst hnext hn).trans hone.symm, hone⟩

/-- **An ensemble answers the mean of its draws.**  A prediction of `n` passes, for any controller,
succeeds exactly if each of the `n` successive calls succeeds and each pass under the mask that a
call leaves.  It answers the mean of the outputs of these passes, row by row, and leaves the
controller and the random source as the last of the `n` calls has left them.

In three cases all passes are one: without a controller, with a controller that drops a fixed list
of nodes of the graph, and with one that succeeds and leaves the same mask whatever mask it
finds. -/
theorem predict_averages_draws (hdiv : ∀ n : Nat, 0 < n → (n : α) * (1 / (n : α)) = 1)
    (model : Model α) (controller : Option (Controller γ σ)) :
    (∀ (state : γ) (x : Matrix α) (source : σ) (n : Nat), 0 < n →
      (∀ column, (model.predict controller state x n source).outcome = .ok column ↔
        ∃ columns, Answered model.output model.graph x
            (draws controller n state model.graph.mask source) columns ∧
          column = List.ofFn fun r : Fin x.nRows => Arith.mean (columns.map (·.getD r 0))) ∧
      ∀ column, (model.predict controller state x n source).outcome = .ok column →
        ∃ last, (draws controller n state model.graph.mask source).getLast? = some last ∧
          (model.predict controller state x n source).controller = last.state ∧
          (model.predict controller state x n source).source = last.source) ∧
    (controller = none → model.IsSinglePass controller model.graph.mask) ∧
    (∀ nodes, model.graph.table.WellFormed → (∀ id ∈ nodes, id < model.graph.size) →
      model.IsSinglePass (some (Dropout.fixed nodes : Controller Unit σ)) (.ofNodes nodes)) ∧
    ∀ c m, controller = some c →
      (∀ state start source, Leaves (c.sample state start source) m) →
      model.IsSinglePass controller m := by
  refine ⟨fun state x source n hn => ⟨fun column => ?_, fun column hok => ?_⟩, ?_, ?_, ?_⟩
  · rw [predict_eq_ok_iff hn]
    refine exists_congr fun columns => and_congr_right fun hall => ?_
    rw [meanColumn_eq_means hall.length_column]
  · have hlength := length_draws controller n state model.graph.mask source
    have hne : draws controller n state model.graph.mask source ≠ [] := by
      rw [← List.length_pos_iff, hlength]
      exact hn
    have hlast := List.getLast?_eq_some_getLast hne
    exact ⟨_, hlast, left_of_predict_eq_ok hn hok hlast⟩
  · rintro rfl
    exact isSinglePass hdiv (fun _ _ => ⟨rfl, rfl⟩) fun _ _ => ⟨rfl, rfl⟩
  · intro nodes hg hnodes
    have hinside : ∀ id ∈ nodes, id < model.graph.size ∧ id < model.graph.table.dropped.size :=
      fun id hid => ⟨hnodes id hid, hg.dropped ▸ hnodes id hid⟩
    exact isSinglePass hdiv (fun _ source => Mask.leaves_fixed hinside _ source)
      fun _ source => Mask.leaves_fixed hinside _ source
  · rintro c m rfl hleaves
    exact isSinglePass hdiv (fun state source => hleaves state _ source)
      fun state source => hleaves state _ source

end Exact

/-- Four passes over two rows of a line whose output is dropped answer zeros, as one pass does, and
so do four calls one by one. -/
theorem predict_averages_draws_lineModel :
    (∀ n : Nat, 0 < n → (n : ℝ) * (1 / (n : ℝ)) = 1) ∧
    ∃ column, (outputColumn 1 (Graph.lineModel.graph.withMask (.ofNodes [1] : Mask 4 4))
        Graph.twoRows).1 = .ok column ∧
      (Graph.lineModel.predict (some (Dropout.fixed [1] : Controller Unit ChaCha)) ()
        Graph.twoRows 4 (ChaCha.ofSeed 7)).outcome = .ok column ∧
      (Graph.lineModel.predict (some (Dropout.fixed [1] : Controller Unit ChaCha)) ()
        Graph.twoRows 1 (ChaCha.ofSeed 7)).outcome = .ok column ∧
      ∃ columns, Answered Graph.lineModel.output Graph.lineModel.graph Graph.twoRows
          (draws (some (Dropout.fixed [1] : Controller Unit ChaCha)) 4 () Graph.lineModel.graph.mask
            (ChaCha.ofSeed 7)) columns ∧
        column = List.ofFn fun r : Fin 2 => Arith.mean (columns.map (·.getD r 0)) := by
  have hdiv : ∀ n : Nat, 0 < n → (n : ℝ) * (1 / (n : ℝ)) = 1 := fun n hn =>
    mul_one_div_cancel (Nat.cast_ne_zero.2 (Nat.ne_of_gt hn))
  have hgraph : Graph.lineModel.graph.table.WellFormed :=
    (Graph.reachable_lineFit (α := ℝ)).sound.table.wellFormed
  have hpass : (outputColumn 1 (Graph.lineModel.graph.withMask (.ofNodes [1] : Mask 4 4))
      Graph.twoRows).1 = .ok [0, 0] := by rfl
  obtain ⟨hgeneral, _, hfixed, _⟩ := predict_averages_draws hdiv Graph.lineModel
    (some (Dropout.fixed [1] : Controller Unit ChaCha))
  obtain ⟨hfour, hone⟩ := hfixed [1] hgraph (by decide) () Graph.twoRows (ChaCha.ofSeed 7) 4
    (by decide) [0, 0]
  have hpredict := hone.2 hpass
  refine ⟨hdiv, _, hpass, hfour.2 hpredict, hpredict, ?_⟩
  exact ((hgeneral () Graph.twoRows (ChaCha.ofSeed 7) 4 (by decide)).1 _).1 (hfour.2 hpredict)

end Model

end FeatureGraph
