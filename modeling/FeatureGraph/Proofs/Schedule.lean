import FeatureGraph.Proofs.Compilation
import FeatureGraph.Proofs.Pairing

/-!
# Running a tape over a well-formed table

`Tape.Fits` says that a tape and a table fit together: the tape computes nodes that are there, each
from as many slots as the node has parents, and only from earlier slots.  Whatever a table compiles
to fits it, sorted or not, and both passes of a tape that fits stay inside of a well-formed table.

* `Schedules.fits` says so of the tape that a table compiles to.
* `Primitive.exists_pulled` is the local rule, on data of the shape that it asks for.
* `exists_forwardStep` and `Shaped.exists_backwardStep` are one step of each pass: what the steps
  keep is the shape of the slots.
* `yields_forward` and `exists_backward` are the passes.
-/

namespace FeatureGraph

variable {ε α : Type}

open Outcome (Yields meets_ok meets_forM meets_foldlM yields_failure)

/-- A tape that can run over a table. -/
structure Tape.Fits (p : Tape) (t : NodeTable α) : Prop where
  inside : ∀ step ∈ p.steps, step.node < t.size
  sources : ∀ step ∈ p.steps, step.sources.length = (t.parentList step.node).length
  earlier : ∀ i (hi : i < p.steps.length), ∀ s ∈ p.steps[i].sources, s < i
  slots : ∀ id slot, p.slotOf? id = some slot → slot < p.size

/-- Other parameters and flags leave the parents as they are. -/
theorem Tape.Fits.of_parents {p : Tape} {t u : NodeTable α} (h : p.Fits t)
    (hsize : u.size = t.size) (hparents : ∀ id, u.parentList id = t.parentList id) : p.Fits u where
  inside step hstep := hsize ▸ h.inside step hstep
  sources step hstep := hparents step.node ▸ h.sources step hstep
  earlier := h.earlier
  slots := h.slots

/-! ## Compiling -/

/-- What a table compiles to fits it. -/
theorem Tape.Schedules.fits {p : Tape} {t : NodeTable α} (h : p.Schedules t) : p.Fits t where
  inside step hmem := h.ordered.inside _ (List.mem_map_of_mem hmem)
  sources step hmem := by
    obtain ⟨i, hi, rfl⟩ := List.getElem_of_mem hmem
    obtain ⟨_, hcomputes⟩ := h.computes_getElem hi
    rw [hcomputes.node, hcomputes.sources.length_eq]
  earlier i hi s hs := by
    obtain ⟨hi', hcomputes⟩ := h.computes_getElem hi
    exact hcomputes.lt h.ordered.toArranged hi' hs
  slots id slot hslot := by
    rw [h.slotOf?_eq] at hslot
    split at hslot
    · rename_i hid
      have hlt := List.idxOf_lt_length_iff.2 hid
      rwa [Option.some.inj hslot, order, List.length_map] at hlt
    · cases hslot

namespace NodeTable

variable {t : NodeTable α}

/-- A well-formed table is compiled or refused. -/
theorem yields_compile (ht : t.WellFormed) : Yields (·.Fits t) t.compile := by
  have hcompile : Yields _ t.compile := t.meets_compile.fault fun _ h hout => by
    subst hout
    exact h ht.filled
  exact hcompile.mono fun _ _ h => h.fits

end NodeTable

/-! ## Local rules and slots -/

/-- The local rule answers if it is given as many parameters and columns as the primitive asks
for, and the columns are as long as the gradient. -/
theorem Primitive.exists_pulled [Arith α] {op : Primitive} {ps : List α} {srcs : List (List α)}
    (hop : op.admits srcs.length = true) (hps : ps.length = op.paramCount srcs.length)
    (out grad : List α) (hsrcs : ∀ src ∈ srcs, src.length = grad.length) :
    ∃ pulled, (op.backward ps srcs out grad : Outcome ε (Pullback α)) = .ok pulled := by
  have hone : srcs.length = 1 → ∃ a, srcs = [a] := List.length_eq_one_iff.1
  have htwo : srcs.length = 2 → ∃ a b, srcs = [a, b] := List.length_eq_two.1
  cases op with
  | input column | target => exact ⟨_, rfl⟩
  | linear | output =>
    have hlength : ¬ps.length ≤ srcs.length := by
      simp only [paramCount] at hps
      omega
    exact ⟨_, by rw [backward, if_neg hlength]⟩
  | exp | log | modulus =>
    obtain ⟨a, rfl⟩ := hone (by simpa [admits, arity?] using hop)
    exact ⟨_, rfl⟩
  | pow =>
    obtain ⟨a, rfl⟩ := hone (by simpa [admits, arity?] using hop)
    obtain ⟨p, rfl⟩ := List.length_eq_one_iff.1 hps
    exact ⟨_, rfl⟩
  | div =>
    obtain ⟨a, b, rfl⟩ := htwo (by simpa [admits, arity?] using hop)
    have hlong : ¬(a.length < grad.length ∨ b.length < grad.length) := by
      have ha := hsrcs a (by simp)
      have hb := hsrcs b (by simp)
      omega
    exact ⟨_, if_neg hlong⟩
  | mult | objective =>
    obtain ⟨a, b, rfl⟩ := htwo (by simpa [admits, arity?] using hop)
    exact ⟨_, rfl⟩

/-- A column of `n` entries, by its entries. -/
theorem exists_eq_ofFn {n : Nat} {column : List α} (h : column.length = n) :
    ∃ f : Fin n → α, column = List.ofFn f := by
  subst h
  exact ⟨column.get, (List.ofFn_get column).symm⟩

section Accumulate

variable [Arith α] {n m : Nat} {a : Nat → Fin n → α}

/-- Adding to an earlier slot keeps the shape, whatever is added. -/
theorem exists_accumulate {i s : Nat} (hs : s < i) (hm : s < m) (column : List α) :
    ∃ b : Nat → Fin n → α,
      Tape.accumulate i (gradientSlots m a) (s, column) = .ok (gradientSlots m b) := by
  have hinside : ¬((gradientSlots m a).nRows ≠ 0 ∧ i ≤ s) := fun h => Nat.not_le.2 hs h.2
  have hlength : (Column.addScaled 1 (List.ofFn (a s)) column).length = n := by simp
  obtain ⟨f, hf⟩ := exists_eq_ofFn hlength
  refine ⟨Function.update a s f, ?_⟩
  rw [Tape.accumulate, if_neg hinside, get_gradientSlots hm, Outcome.ok_bind, hf,
    set_gradientSlots hm]

theorem exists_foldlM_accumulate {i : Nat} (hi : i ≤ m) {l : List (Nat × List α)}
    (hl : ∀ e ∈ l, e.1 < i) :
    ∃ b : Nat → Fin n → α,
      l.foldlM (Tape.accumulate i) (gradientSlots m a) = .ok (gradientSlots m b) := by
  have hstep : ∀ slots, ∀ e ∈ l, (∃ b : Nat → Fin n → α, slots = gradientSlots m b) →
      ∃ slots', Tape.accumulate i slots e = .ok slots' ∧
        ∃ b : Nat → Fin n → α, slots' = gradientSlots m b := by
    rintro _ e he ⟨b, rfl⟩
    have hlt := hl e he
    obtain ⟨b', hb'⟩ := exists_accumulate (a := b) hlt (Nat.lt_of_lt_of_le hlt hi) e.2
    exact ⟨_, hb', b', rfl⟩
  obtain ⟨_, hrun, b, rfl⟩ := Outcome.exists_foldlM ⟨a, rfl⟩ hstep
  exact ⟨b, hrun⟩

end Accumulate

/-- One more column, behind the others. -/
theorem push_gradientSlots {n i : Nat} (a : Nat → Fin n → α) (f : Fin n → α) :
    ({ gradientSlots i a with columns := (gradientSlots i a).columns.push (List.ofFn f) } :
      Slots α) = gradientSlots (i + 1) (Function.update a i f) := by
  rw [gradientSlots, gradientSlots, Slots.mk.injEq]
  refine ⟨rfl, Array.ext (by simp) fun k hk _ => ?_⟩
  have hki : k < i + 1 := by simpa using hk
  rw [Array.getElem_push, Array.getElem_ofFn]
  rcases Nat.lt_succ_iff_lt_or_eq.1 hki with hlt | rfl
  · rw [dif_pos (by simpa using hlt), Array.getElem_ofFn, Function.update_of_ne (Nat.ne_of_lt hlt)]
  · rw [dif_neg (by simp), Function.update_self]

/-- Earlier columns can be read. -/
theorem mapM_get_gradientSlots {n m : Nat} {a : Nat → Fin n → α} {sources : List Nat}
    (h : ∀ s ∈ sources, s < m) :
    sources.mapM (gradientSlots m a).get =
      (.ok ((sources.map a).map List.ofFn) : Outcome ε (List (List α))) := by
  rw [List.map_map]
  exact Outcome.mapM_ok fun s hs => get_gradientSlots (h s hs)

namespace Tape

variable {t : NodeTable α} {p : Tape} {x : Matrix α} {y : Option (List α)}

/-- What the table holds for the node of a step: a primitive that admits the sources of the step, as
many parameters as it asks for over these, and a drop flag. -/
theorem Fits.exists_node (ht : t.WellFormed) (hp : p.Fits t) {step : Instruction}
    (hstep : step ∈ p.steps) :
    ∃ op ps dropped, t.ops[step.node]? = some op ∧ t.params[step.node]? = some ps ∧
      t.dropped[step.node]? = some dropped ∧ op.admits step.sources.length = true ∧
      ps.length = op.paramCount step.sources.length := by
  have hnode := hp.inside step hstep
  have hop := ht.ops_getElem? hnode
  obtain ⟨ps, hps⟩ := ht.params_getElem? hnode
  obtain ⟨dropped, hdropped⟩ := ht.dropped_getElem? hnode
  rw [hp.sources step hstep]
  exact ⟨_, ps, dropped, hop, hps, hdropped, ht.arity _ _ hop, ht.paramCount _ _ _ hop hps⟩

/-! ## The forward pass -/

/-- Every input of a tape finds its column among so many. -/
def Supplied (p : Tape) (t : NodeTable α) (nCols : Nat) : Prop :=
  ∀ step ∈ p.steps, ∀ column, t.ops[step.node]? = some (.input column) → column < nCols

theorem supplied_of_checkData (h : checkData t p x y = .ok ()) : p.Supplied t x.nCols := by
  intro step hstep column hop
  obtain ⟨_, hinputs⟩ := Outcome.check_bind_eq_ok.1 h
  have hinput := Outcome.forM_eq_ok_iff.1 hinputs step hstep
  rw [checkInput, Outcome.fetch_eq_ok.2 hop, Outcome.ok_bind] at hinput
  by_contra hmissing
  dsimp only at hinput
  rw [if_pos (Nat.le_of_not_lt hmissing)] at hinput
  obtain ⟨_, _, hinput⟩ := Outcome.bind_eq_ok.1 hinput
  cases hinput

theorem length_of_checkData (h : checkData t p x y = .ok ()) :
    ∀ ys, y = some ys → ys.length = x.nRows := by
  rintro ys rfl
  obtain ⟨htarget, _⟩ := Outcome.check_bind_eq_ok.1 h
  by_contra hlength
  rw [checkTarget, if_pos hlength] at htarget
  cases htarget

theorem yields_checkData (ht : t.WellFormed) (hp : p.Fits t) (x : Matrix α)
    (y : Option (List α)) : Yields (fun _ => checkData t p x y = .ok ()) (checkData t p x y) := by
  have hcheck : Yields (fun _ => True) (checkData t p x y) := by
    have htarget : Yields (fun _ => True) (checkTarget x y) := by
      unfold checkTarget
      split
      · split
        · exact yields_failure _
        · exact meets_ok trivial
      · exact meets_ok trivial
    refine htarget.bind fun _ _ => meets_forM trivial fun step hstep => ?_
    have hnode := hp.inside step hstep
    obtain ⟨label, hlabel⟩ := ht.labels_getElem? hnode
    rw [checkInput, Outcome.fetch_eq_ok.2 (ht.ops_getElem? hnode), Outcome.ok_bind]
    split
    · split
      · rw [Outcome.fetch_eq_ok.2 hlabel]
        exact yields_failure _
      · exact meets_ok trivial
    · exact meets_ok trivial
  exact hcheck.mono fun _ h _ => h

section Passes

variable [Arith α]

/-- One step of the pass fills one more slot. -/
theorem exists_forwardStep (ht : t.WellFormed) (hp : p.Fits t)
    (hdata : checkData t p x y = .ok ()) {i : Nat} (hi : i < p.size) (a : Nat → Fin x.nRows → α) :
    ∃ b : Nat → Fin x.nRows → α,
      forwardStep t x y (gradientSlots i a) p.steps[i] = .ok (gradientSlots (i + 1) b) := by
  have hmem : p.steps[i] ∈ p.steps := List.getElem_mem hi
  obtain ⟨op, ps, dropped, hop, hps, hdropped, hadmits, hcount⟩ := hp.exists_node ht hmem
  have hcolumn := NodeTable.stepColumn_eq (p.steps[i].sources.map a) hop hps
    (by simpa using hadmits) (by simpa using hcount) (length_of_checkData hdata)
    (fun column h => supplied_of_checkData hdata _ hmem column (h ▸ hop))
    (mapM_get_gradientSlots (hp.earlier i hi))
  rw [forwardStep]
  simp only [hcolumn, Outcome.fetch_eq_ok.2 hdropped, Outcome.ok_bind, Outcome.pure_eq_ok]
  cases dropped with
  | true =>
    refine ⟨Function.update a i fun _ => 0, ?_⟩
    rw [if_pos rfl, Column.zeros_eq_ofFn, push_gradientSlots]
  | false => exact ⟨_, by rw [if_neg Bool.false_ne_true, push_gradientSlots]⟩

/-- The forward pass fills all slots, or the data are refused. -/
theorem yields_forward (ht : t.WellFormed) (hp : p.Fits t) (x : Matrix α) (y : Option (List α)) :
    Yields (fun values => ∃ a : Nat → Fin x.nRows → α, values = gradientSlots p.size a)
      (p.forward t x y) := by
  refine (yields_checkData ht hp x y).bind fun _ hdata => ?_
  refine meets_foldlM (P := fun i (values : Slots α) =>
    ∃ a : Nat → Fin x.nRows → α, values = gradientSlots i a) ⟨fun _ _ => 0, rfl⟩ ?_
  rintro i hi _ ⟨a, rfl⟩
  obtain ⟨b, hb⟩ := exists_forwardStep ht hp hdata hi a
  rw [hb]
  exact meets_ok ⟨b, rfl⟩

/-! ## The backward pass -/

/-- Gradients of the shape of the tape: a column for each slot, with one entry for each row, and
a place for the parameters of each node. -/
structure Shaped (p : Tape) (t : NodeTable α) (nRows : Nat) (adj : Adjoint α) : Prop where
  slots : ∃ a : Nat → Fin nRows → α, adj.slots = gradientSlots p.size a
  params : adj.params.params.size = t.size

theorem exists_seed (p : Tape) (t : NodeTable α) (nRows : Nat) {slot : Nat}
    (hslot : slot < p.size) :
    ∃ adj, seed t p nRows slot = .ok adj ∧ p.Shaped t nRows adj := by
  have hcolumn : List.replicate nRows (1 / (nRows : α)) =
      List.ofFn fun _ : Fin nRows => 1 / (nRows : α) := List.ofFn_const _ _ |>.symm
  refine ⟨⟨gradientSlots p.size (Function.update (fun _ _ => 0) slot fun _ => 1 / (nRows : α)),
    ⟨Array.replicate t.size []⟩⟩, ?_, ⟨_, rfl⟩, Array.size_replicate⟩
  rw [seed, zeros_eq_gradientSlots, hcolumn, set_gradientSlots hslot, Outcome.ok_bind,
    Outcome.pure_eq_ok]

/-- One step of the pass succeeds and keeps the shape. -/
theorem Shaped.exists_backwardStep (ht : t.WellFormed) (hp : p.Fits t) {nRows : Nat}
    {adj : Adjoint α} (h : p.Shaped t nRows adj) (values : Nat → Fin nRows → α) {i : Nat}
    (hi : i < p.size) :
    ∃ adj', backwardStep t (gradientSlots p.size values) adj (p.steps[i], i) = .ok adj' ∧
      p.Shaped t nRows adj' := by
  obtain ⟨a, ha⟩ := h.slots
  have hmem : p.steps[i] ∈ p.steps := List.getElem_mem hi
  obtain ⟨op, ps, dropped, hop, hps, hdropped, hadmits, hcount⟩ := hp.exists_node ht hmem
  have hgrad : (adj.slots.get i : Outcome GraphError (List α)) = .ok (List.ofFn (a i)) := by
    rw [ha, get_gradientSlots hi]
  simp only [backwardStep, Outcome.fetch_eq_ok.2 hdropped, Outcome.ok_bind]
  split
  · exact ⟨adj, rfl, h⟩
  simp only [Outcome.fetch_eq_ok.2 hop, Outcome.fetch_eq_ok.2 hps, hgrad, Outcome.ok_bind]
  split
  · exact ⟨adj, rfl, h⟩
  split
  · exact ⟨adj, rfl, h⟩
  · have hearlier := hp.earlier i hi
    have hsrcs : p.steps[i].sources.mapM (gradientSlots p.size values).get = (.ok
        ((p.steps[i].sources.map values).map List.ofFn) : Outcome GraphError (List (List α))) :=
      mapM_get_gradientSlots fun s hs => Nat.lt_trans (hearlier s hs) hi
    set srcs := (p.steps[i].sources.map values).map List.ofFn with hcolumns
    have hlength : p.steps[i].sources.length = srcs.length := by simp [hcolumns]
    obtain ⟨pulled, hpulled⟩ := Primitive.exists_pulled (ε := GraphError) (hlength ▸ hadmits)
      (hlength ▸ hcount) (List.ofFn (values i)) (List.ofFn (a i)) (by simp [hcolumns])
    obtain ⟨b, hb⟩ := exists_foldlM_accumulate (a := a) (Nat.le_of_lt hi)
      (l := p.steps[i].sources.zip pulled.srcs) fun e he => hearlier _ (List.of_mem_zip he).1
    have hstore : (Outcome.store adj.params.params p.steps[i].node pulled.params :
        Outcome GraphError (Array (List α))) =
        .ok (adj.params.params.setIfInBounds p.steps[i].node pulled.params) :=
      Outcome.store_eq_ok.2 ⟨h.params ▸ hp.inside _ hmem, rfl⟩
    refine ⟨⟨gradientSlots p.size b,
      ⟨adj.params.params.setIfInBounds p.steps[i].node pulled.params⟩⟩, ?_, ⟨b, rfl⟩,
      Array.size_setIfInBounds.trans h.params⟩
    simp only [hsrcs, get_gradientSlots hi, hpulled, ha, hb, hstore, Outcome.ok_bind,
      Outcome.pure_eq_ok]

/-- From an objective with a slot, the backward pass succeeds. -/
theorem exists_backward (ht : t.WellFormed) (hp : p.Fits t) {nRows : Nat}
    (values : Nat → Fin nRows → α) {objective : NodeId} {slot : Nat}
    (hslot : p.slotOf? objective = some slot) :
    ∃ adj, p.backward t (gradientSlots p.size values) objective = .ok adj := by
  have hsize : (gradientSlots p.size values).size = p.size := by simp [gradientSlots, Slots.size]
  obtain ⟨start, hseed, hstart⟩ := exists_seed p t nRows (hp.slots objective slot hslot)
  have hstep : ∀ adj, ∀ entry ∈ (p.steps.zipIdx.take (slot + 1)).reverse, p.Shaped t nRows adj →
      ∃ adj', backwardStep t (gradientSlots p.size values) adj entry = .ok adj' ∧
        p.Shaped t nRows adj' := by
    intro adj entry hentry hadj
    have hmem := List.mem_of_mem_take (List.mem_reverse.1 hentry)
    obtain ⟨i, hi, rfl⟩ := List.getElem_of_mem hmem
    have hlt : i < p.steps.length := by simpa using hi
    have hentry : p.steps.zipIdx[i] = (p.steps[i], i) := by simp
    rw [hentry]
    exact hadj.exists_backwardStep ht hp values _
  obtain ⟨adj, hrun, _⟩ := Outcome.exists_foldlM hstart hstep
  refine ⟨adj, ?_⟩
  rw [backward, hslot]
  dsimp only
  rw [if_neg (not_not.2 hsize)]
  change (seed t p nRows slot >>= _) = _
  rw [hseed, Outcome.ok_bind, hrun]

end Passes

end Tape

end FeatureGraph
