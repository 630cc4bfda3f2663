import FeatureGraph.Proofs.Column
import FeatureGraph.Proofs.Table
import FeatureGraph.Matrix
import FeatureGraph.Primitive.Rule

/-!
# Values of nodes

What a node means for one row of the data, with no reference to tapes, slots or
columns: `NodeTable.valueAt` follows the parents of the node down to the inputs.

* `Sound.valueAt_eq` is the recursion that defines the values of a sound table.
* `Agree.valueAt` says that later nodes do not change the values of earlier ones.
* `Primitive.forward_ofFn` says that the column of a primitive is its scalar
  operation in every row.
-/

namespace FeatureGraph

/-- One row of the data: the entries of the matrix, and the target if there is one. -/
structure Sample (α : Type) where
  raw : List α
  target : Option α

/-- Row `r` of a matrix and of a target. -/
def Matrix.sample {α : Type} (x : Matrix α) (y : Option (List α)) (r : Fin x.nRows) :
    Sample α where
  raw := x.row r
  target := y.bind fun ys => ys[r.val]?

/-- A target with as many entries as there are rows has one for each row. -/
theorem Matrix.exists_target_sample {α : Type} {x : Matrix α} {ys : List α}
    (h : ys.length = x.nRows) (r : Fin x.nRows) :
    ∃ v, (x.sample (some ys) r).target = some v := by
  have hr : r.val < ys.length := by
    rw [h]
    exact r.isLt
  exact ⟨ys[r.val], List.getElem?_eq_getElem hr⟩

namespace Primitive

variable {ε α : Type} [Arith α]

/-- A primitive on scalars: what it makes of its parameters and of the values of the
parents. -/
def scalar : Primitive → List α → List α → α
  | linear, ps, args | output, ps, args =>
    (ps.zip args).foldl (fun v p => v + p.1 * p.2) (ps.getD args.length 0)
  | exp, _, [a] => Arith.exp a
  | log, _, [a] => Arith.log a
  | modulus, _, [a] => Arith.abs a
  | pow, [p], [a] => Arith.pow a p
  | div, _, [a, b] => a / b
  | mult, _, [a, b] => a * b
  | objective, _, [o, t] => (o - t) * (o - t)
  | _, _, _ => 0

/-- The value of a node in one row, from the values of its parents.  Inputs and
targets take theirs from the data, and without a target there is no error. -/
def value (s : Sample α) (op : Primitive) (ps args : List α) : α :=
  match op, s.target with
  | input column, _ => s.raw.getD column 0
  | target, y => y.getD 0
  | objective, none => 0
  | op, _ => op.scalar ps args

/-- With a target an objective is the squared error. -/
theorem value_objective {s : Sample α} {y : α} (h : s.target = some y) (ps args : List α) :
    objective.value s ps args = objective.scalar ps args := by
  simp only [value, h]

/-- Adding up scaled columns adds up the scaled entries of every row. -/
theorem foldl_addScaled_ofFn {n : Nat} (ps : List α) (vs : List (Fin n → α))
    (d : Fin n → α) :
    (ps.zip (vs.map List.ofFn)).foldl (fun d p => Column.addScaled p.1 d p.2) (List.ofFn d) =
      List.ofFn fun r =>
        (ps.zip (vs.map (· r))).foldl (fun v p => v + p.1 * p.2) (d r) := by
  induction ps generalizing vs d with
  | nil => rfl
  | cons p ps ih =>
    cases vs with
    | nil => rfl
    | cons v vs =>
      simp only [List.map_cons, List.zip_cons_cons, List.foldl_cons]
      rw [Column.addScaled_ofFn, ih]

/-- On columns that are made row by row a primitive makes its column row by row. -/
theorem forward_ofFn {n : Nat} {op : Primitive} {ps : List α} {vs : List (Fin n → α)}
    (hop : op.admits vs.length = true) (hps : ps.length = op.paramCount vs.length) :
    (op.forward ps (vs.map List.ofFn) n : Outcome ε (List α)) =
      .ok (List.ofFn fun r => op.scalar ps (vs.map (· r))) := by
  have hone : vs.length = 1 → ∃ v, vs = [v] := List.length_eq_one_iff.1
  have htwo : vs.length = 2 → ∃ v w, vs = [v, w] := List.length_eq_two.1
  cases op with
  | input column | target =>
    simp only [forward, scalar, Column.zeros_eq_ofFn]
  | linear | output =>
    simp only [paramCount] at hps
    have hbias : ps[vs.length]? = some (ps.getD vs.length 0) := by
      simp [List.getElem?_eq_getElem (show vs.length < ps.length by omega)]
    have hfetch : (Outcome.fetchList ps (vs.map List.ofFn).length : Outcome ε α) =
        .ok (ps.getD vs.length 0) := by
      rw [List.length_map, Outcome.fetchList_eq_ok, hbias]
    rw [forward, hfetch, Outcome.ok_bind, Outcome.pure_eq_ok, ← List.ofFn_const,
      foldl_addScaled_ofFn]
    simp only [scalar, List.length_map]
  | exp | log | modulus =>
    obtain ⟨v, rfl⟩ := hone (by simpa [admits, arity?] using hop)
    simp [forward, Outcome.fetchList, Outcome.ofOption, Column.overwrite_ofFn, scalar]
  | pow =>
    obtain ⟨v, rfl⟩ := hone (by simpa [admits, arity?] using hop)
    obtain ⟨p, rfl⟩ := List.length_eq_one_iff.1 hps
    simp [forward, Outcome.fetchList, Outcome.ofOption, Column.overwrite_ofFn, scalar]
  | div | mult | objective =>
    obtain ⟨v, w, rfl⟩ := htwo (by simpa [admits, arity?] using hop)
    simp [forward, Outcome.fetchList, Outcome.ofOption, Column.overwrite₂_ofFn, scalar]

end Primitive

namespace NodeTable

variable {α : Type} [Arith α] {t u : NodeTable α}

/-- The value of a node in one row: zero if the node is dropped, and else what its
primitive makes of the values of its parents.  A parent that does not come before its
child counts as zero; sound tables have none. -/
def valueAt (t : NodeTable α) (s : Sample α) (id : NodeId) : α :=
  if (t.dropped[id]?).getD false then 0
  else
    match t.ops[id]?, t.params[id]? with
    | some op, some ps =>
      op.value s ps ((t.parentList id).map fun p => if p < id then t.valueAt s p else 0)
    | _, _ => 0
termination_by id

/-- The values of a sound table by recursion on the parents. -/
theorem Sound.valueAt_eq (ht : t.Sound) (s : Sample α) {id : NodeId} {op : Primitive}
    {ps : List α} {dropped : Bool} (hop : t.ops[id]? = some op)
    (hps : t.params[id]? = some ps) (hdropped : t.dropped[id]? = some dropped) :
    t.valueAt s id =
      if dropped then 0 else op.value s ps ((t.parentList id).map (t.valueAt s)) := by
  have hparents : ((t.parentList id).map fun p => if p < id then t.valueAt s p else 0) =
      (t.parentList id).map (t.valueAt s) :=
    List.map_congr_left fun p hp => if_pos (ht.earlier id p hp)
  rw [valueAt, hop, hps, hdropped, hparents, Option.getD_some]

/-- A node that is not dropped computes its primitive. -/
theorem Holds.valueAt {id : NodeId} {op : Primitive} {ps : List NodeId} {params : List α}
    (h : t.Holds id op ps params) (ht : t.Sound) (s : Sample α) :
    t.valueAt s id = op.value s params (ps.map (t.valueAt s)) := by
  rw [ht.valueAt_eq s h.op h.params h.kept, h.parents]
  rfl

/-- Values depend on the nodes before only. -/
theorem Agree.valueAt {n : Nat} (h : Agree n t u) (s : Sample α) {id : NodeId} (hid : id < n) :
    u.valueAt s id = t.valueAt s id := by
  induction id using Nat.strongRecOn with
  | ind id ih =>
    have hparents : ((t.parentList id).map fun p => if p < id then u.valueAt s p else 0) =
        (t.parentList id).map fun p => if p < id then t.valueAt s p else 0 := by
      refine List.map_congr_left fun p _ => ?_
      split
      · rename_i hp
        exact ih p hp (Nat.lt_trans hp hid)
      · rfl
    rw [NodeTable.valueAt, NodeTable.valueAt, h.dropped id hid, h.ops id hid, h.params id hid,
      h.parents id hid, hparents]

end NodeTable

end FeatureGraph
