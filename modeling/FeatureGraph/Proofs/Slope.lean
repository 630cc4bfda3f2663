import FeatureGraph.Proofs.Exact
import FeatureGraph.Proofs.Value

/-!
# Slopes and tangents

The local partial derivatives of the primitives, and what they say about a node in one
row: `NodeTable.tangentAt` is the speed at which the value of a node moves when one
parameter of one node moves with speed one and everything else stands still.  It goes
from the parents to the children, as the values do.

* `Primitive.backward_ofFn` says that a primitive hands a gradient on by its slopes.
* `Sound.tangentAt_eq` is the recursion that defines the tangents of a sound table.
-/

namespace FeatureGraph

namespace Primitive

variable {ε α : Type}

section Slopes

variable [Arith α]

/-- The partial derivatives of a primitive in its parents, from the parameters, the values
of the parents and the value of the node. -/
def argSlopes : Primitive → List α → List α → α → List α
  | linear, ps, args, _ | output, ps, args, _ => ps.take args.length
  | exp, _, _, out => [out]
  | log, _, [a], _ => [1 / a]
  | modulus, _, [a], _ => [modulusSlope 1 a]
  | pow, [p], [a], _ => [p * Arith.pow a (p - 1)]
  | div, _, [a, b], _ => [1 / b, denominatorGradient 1 a b]
  | mult, _, [a, b], _ => [b, a]
  | objective, _, [o, t], _ => [2.0 * (o - t), -(2.0 * (o - t))]
  | _, _, _, _ => []

/-- The partial derivatives of a primitive in its parameters.  An exponent has one on the
positive half-line only. -/
def paramSlopes : Primitive → List α → α → List α
  | linear, args, _ | output, args, _ => args ++ [1]
  | pow, [a], out => [if Arith.lt 0 a then out * Arith.log a else 0]
  | _, _, _ => []

end Slopes

variable [ExactArith α] {n : Nat}

theorem dot_ofFn (f g : Fin n → α) :
    Column.dot (List.ofFn f) (List.ofFn g) = ∑ r, f r * g r := by
  rw [Column.dot, Column.zipWith_ofFn, Arith.sum_ofFn]

theorem sum_map_filter {β : Type} (p : β → Bool) (f : β → α) (l : List β) :
    ((l.filter p).map f).sum = (l.map fun b => if p b then f b else 0).sum := by
  induction l with
  | nil => rfl
  | cons b l ih =>
    rw [List.map_cons, List.sum_cons, ← ih]
    by_cases hb : p b
    · simp [hb]
    · simp [hb]

/-- The gradient of an exponent is a sum over all rows, of which those without a positive
base are zero. -/
theorem exponentGradient_ofFn (g a out : Fin n → α) :
    exponentGradient (List.ofFn g) (List.ofFn a) (List.ofFn out) =
      ∑ r, g r * if Arith.lt 0 (a r) then out r * Arith.log (a r) else 0 := by
  rw [exponentGradient, Arith.sum_eq_sum, sum_map_filter, List.zip, List.zip,
    Column.zipWith_ofFn, Column.zipWith_ofFn, List.map_ofFn, List.sum_ofFn]
  refine Finset.sum_congr rfl fun r _ => ?_
  show (if Arith.lt 0 (a r) then g r * out r * Arith.log (a r) else 0) = _
  rw [mul_ite, mul_zero, mul_assoc]

theorem modulusSlope_eq_mul (g x : α) : modulusSlope g x = g * modulusSlope 1 x := by
  unfold modulusSlope
  split
  · rw [mul_one]
  · split <;> simp

theorem denominatorGradient_eq_mul (g a b : α) :
    denominatorGradient g a b = g * denominatorGradient 1 a b := by
  rw [denominatorGradient, denominatorGradient, ExactArith.div_eq, ExactArith.div_eq (-1 * a)]
  ring

/-- A weighted sum hands a gradient on to its parents by the weights. -/
theorem zipWith_addScaled_zeros {ps : List α} {vs : List (Fin n → α)}
    (hps : ps.length = vs.length + 1) (g : Fin n → α) :
    List.zipWith (fun p (_ : List α) => Column.addScaled p (Column.zeros n) (List.ofFn g)) ps
        (vs.map List.ofFn) =
      (List.range vs.length).map fun k => List.ofFn fun r =>
        g r * (ps.take (vs.map (· r)).length).getD k 0 := by
  have hscaled : ∀ p : α, Column.addScaled p (Column.zeros n) (List.ofFn g) =
      List.ofFn fun r => g r * p := by
    intro p
    rw [Column.zeros_eq_ofFn, Column.addScaled_ofFn]
    simp [mul_comm]
  refine List.ext_getElem (by simp [hps]) fun k hk _ => ?_
  have hkv : k < vs.length := by simpa [hps] using hk
  have hkp : k < ps.length := by omega
  simp only [List.getElem_zipWith, hscaled, List.getElem_map, List.getElem_range]
  simp [hkv, hkp]

/-- A weighted sum hands a gradient on to its weights by the parents, and to its bias as
it is. -/
theorem map_dot_append_sum {ps : List α} {vs : List (Fin n → α)}
    (hps : ps.length = vs.length + 1) (g : Fin n → α) :
    (vs.map List.ofFn).map (Column.dot (List.ofFn g)) ++ Arith.sum (List.ofFn g) ::
        Column.zeros (ps.length - (vs.map List.ofFn).length - 1) =
      (List.range ps.length).map fun j => ∑ r, g r * (vs.map (· r) ++ [(1 : α)]).getD j 0 := by
  have hrest : ps.length - (vs.map List.ofFn).length - 1 = 0 := by simp [hps]
  rw [hrest, hps, List.range_succ, List.map_append, List.map_map]
  congr 1
  · refine List.ext_getElem (by simp) fun k hk _ => ?_
    have hkv : k < vs.length := by simpa using hk
    simp [dot_ofFn, List.getElem?_append_left, hkv]
  · simp [Column.zeros, Arith.sum_ofFn]

/-- On columns that are made row by row a primitive hands a gradient on by its slopes: to
a parent in every row, and to a parameter in all rows together. -/
theorem backward_ofFn {op : Primitive} {ps : List α} (vs : List (Fin n → α))
    (hop : op.admits vs.length = true) (hps : ps.length = op.paramCount vs.length)
    (out g : Fin n → α) :
    (op.backward ps (vs.map List.ofFn) (List.ofFn out) (List.ofFn g) :
        Outcome ε (Pullback α)) =
      .ok {
        srcs := (List.range vs.length).map fun k => List.ofFn fun r =>
          g r * (op.argSlopes ps (vs.map (· r)) (out r)).getD k 0
        params := (List.range ps.length).map fun j =>
          ∑ r, g r * (op.paramSlopes (vs.map (· r)) (out r)).getD j 0 } := by
  have hone : vs.length = 1 → ∃ v, vs = [v] := List.length_eq_one_iff.1
  have htwo : vs.length = 2 → ∃ v w, vs = [v, w] := List.length_eq_two.1
  cases op with
  | input column | target =>
    obtain rfl : vs = [] := by simpa [admits, arity?] using hop
    obtain rfl : ps = [] := List.length_eq_zero_iff.1 hps
    rfl
  | linear | output =>
    have hlength : ¬ps.length ≤ (vs.map List.ofFn).length := by
      simp only [paramCount] at hps
      simp [hps]
    rw [backward, if_neg hlength, List.length_ofFn, zipWith_addScaled_zeros hps,
      map_dot_append_sum hps]
    simp only [argSlopes, paramSlopes]
  | exp =>
    obtain ⟨v, rfl⟩ := hone (by simpa [admits, arity?] using hop)
    obtain rfl : ps = [] := List.length_eq_zero_iff.1 hps
    simp [backward, Outcome.fetchList, Outcome.ofOption, firstOnly, Column.overwrite₂_ofFn,
      argSlopes, Column.zeros]
  | log =>
    obtain ⟨v, rfl⟩ := hone (by simpa [admits, arity?] using hop)
    obtain rfl : ps = [] := List.length_eq_zero_iff.1 hps
    have hdiv : ∀ r, g r / v r = g r * (1 / v r) := fun r => ExactArith.div_eq _ _
    simp [backward, Outcome.fetchList, Outcome.ofOption, firstOnly, Column.overwrite₂_ofFn,
      argSlopes, Column.zeros, hdiv]
  | modulus =>
    obtain ⟨v, rfl⟩ := hone (by simpa [admits, arity?] using hop)
    obtain rfl : ps = [] := List.length_eq_zero_iff.1 hps
    have hslope : ∀ r, modulusSlope (g r) (v r) = g r * modulusSlope 1 (v r) :=
      fun r => modulusSlope_eq_mul _ _
    simp [backward, Outcome.fetchList, Outcome.ofOption, firstOnly, Column.overwrite₂_ofFn,
      argSlopes, Column.zeros, hslope]
  | pow =>
    obtain ⟨v, rfl⟩ := hone (by simpa [admits, arity?] using hop)
    obtain ⟨p, rfl⟩ := List.length_eq_one_iff.1 hps
    simp [backward, Outcome.fetchList, Outcome.ofOption, firstOnly, Column.overwrite₂_ofFn,
      argSlopes, paramSlopes, Column.zeros, exponentGradient_ofFn, mul_assoc]
  | div =>
    obtain ⟨v, w, rfl⟩ := htwo (by simpa [admits, arity?] using hop)
    obtain rfl : ps = [] := List.length_eq_zero_iff.1 hps
    have hdiv : ∀ r, g r / w r = g r * (1 / w r) := fun r => ExactArith.div_eq _ _
    have hslope : ∀ r, denominatorGradient (g r) (v r) (w r) =
        g r * denominatorGradient 1 (v r) (w r) := fun r => denominatorGradient_eq_mul _ _ _
    simp [backward, Outcome.fetchList, Outcome.ofOption, firstTwo, Column.overwrite₂_ofFn,
      argSlopes, Column.zeros, hdiv, hslope, List.range_succ, List.zip, Column.zipWith_ofFn]
  | mult =>
    obtain ⟨v, w, rfl⟩ := htwo (by simpa [admits, arity?] using hop)
    obtain rfl : ps = [] := List.length_eq_zero_iff.1 hps
    simp [backward, Outcome.fetchList, Outcome.ofOption, firstTwo, Column.overwrite₂_ofFn,
      argSlopes, Column.zeros, List.range_succ]
  | objective =>
    obtain ⟨v, w, rfl⟩ := htwo (by simpa [admits, arity?] using hop)
    obtain rfl : ps = [] := List.length_eq_zero_iff.1 hps
    simp [backward, Outcome.fetchList, Outcome.ofOption, firstTwo, Column.overwrite₂_ofFn,
      argSlopes, Column.zeros, List.range_succ, Column.zipWith_ofFn, mul_comm]

end Primitive

namespace NodeTable

variable {α : Type} [ExactArith α] {t : NodeTable α}

/-- The tangent of a node in one row when parameter `j` of node `moved` moves with speed
one, and all other parameters and the data stand still: zero if the node is dropped, and
else what the slopes make of the tangents of the parents and of that movement. -/
def tangentAt (t : NodeTable α) (s : Sample α) (moved : NodeId) (j : Nat) (id : NodeId) : α :=
  if (t.dropped[id]?).getD false then 0
  else
    match t.ops[id]?, t.params[id]? with
    | some op, some ps =>
      let args := (t.parentList id).map (t.valueAt s)
      let tangents := (t.parentList id).map fun p =>
        if p < id then t.tangentAt s moved j p else 0
      (List.zipWith (· * ·) (op.argSlopes ps args (t.valueAt s id)) tangents).sum +
        if id = moved then (op.paramSlopes args (t.valueAt s id)).getD j 0 else 0
    | _, _ => 0
termination_by id

/-- The tangents of a sound table by recursion on the parents. -/
theorem Sound.tangentAt_eq (ht : t.Sound) (s : Sample α) (moved : NodeId) (j : Nat) {id : NodeId}
    {op : Primitive} {ps : List α} {dropped : Bool} (hop : t.ops[id]? = some op)
    (hps : t.params[id]? = some ps) (hdropped : t.dropped[id]? = some dropped) :
    t.tangentAt s moved j id =
      if dropped then 0
      else
        (List.zipWith (· * ·)
          (op.argSlopes ps ((t.parentList id).map (t.valueAt s)) (t.valueAt s id))
          ((t.parentList id).map (t.tangentAt s moved j))).sum +
        if id = moved then
          (op.paramSlopes ((t.parentList id).map (t.valueAt s)) (t.valueAt s id)).getD j 0
        else 0 := by
  have hparents : ((t.parentList id).map fun p => if p < id then t.tangentAt s moved j p else 0) =
      (t.parentList id).map (t.tangentAt s moved j) :=
    List.map_congr_left fun p hp => if_pos (ht.earlier id p hp)
  rw [tangentAt, hop, hps, hdropped, Option.getD_some]
  simp only [hparents]

end NodeTable

end FeatureGraph
