import FeatureGraph.Proofs.Pairing

/-!
# Slopes are derivatives

Over the real numbers the slopes by which a primitive hands a gradient on are the partial
derivatives of the column that it computes.

* `SmoothInArgs` and `SmoothInParams` say where a primitive has partial derivatives, in its parents
  and in its parameters.
* `hasDerivAt_scalar_arg` and `hasDerivAt_scalar_param` are the derivatives of one row, one case per
  primitive.  A weighted sum is affine in each of its values and in each of its parameters, by
  `weightedSum_set_arg` and `weightedSum_set_param`.
* `backward_eq_derivatives` is the statement about columns.
-/

namespace FeatureGraph.Primitive

variable {ε : Type} {n : Nat}

/-! ## Where a primitive is smooth -/

/-- Where a primitive has partial derivatives in its parents.  A power of a negative number has one
for the exponents for which there is such a power, the integers, and so has a power of zero from the
exponent one on. -/
def SmoothInArgs : Primitive → List ℝ → List ℝ → Prop
  | log, _, [a] => 0 < a
  | modulus, _, [a] => a ≠ 0
  | pow, [p], [a] => 0 < a ∨ ∃ m : ℤ, p = m ∧ (a ≠ 0 ∨ 1 ≤ m)
  | div, _, [_, b] => b ≠ 0
  | _, _, _ => True

/-- Where a primitive has partial derivatives in its parameters. -/
def SmoothInParams : Primitive → List ℝ → Prop
  | pow, [a] => 0 < a
  | _, _ => True

/-- The number of parents is the one that the primitive requires, if it requires one. -/
def Takes (op : Primitive) (n : Nat) : Prop := ∀ k, op.arity? = some k → n = k

/-! ## Weighted sums -/

section WeightedSum

variable {ps args : List ℝ}

/-- A weighted sum is its bias and the products of weights and values. -/
theorem scalar_linear_eq (ps args : List ℝ) :
    linear.scalar ps args = ps.getD args.length 0 +
      ∑ q ∈ Finset.range args.length, ps.getD q 0 * args.getD q 0 := by
  have hfold : ∀ (l : List (ℝ × ℝ)) (b : ℝ),
      l.foldl (fun v p => v + p.1 * p.2) b = b + (l.map fun p => p.1 * p.2).sum := by
    intro l
    induction l with
    | nil => simp
    | cons p l ih => intro b; rw [List.foldl_cons, ih, List.map_cons, List.sum_cons, add_assoc]
  have hproducts : (ps.zip args).map (fun p => p.1 * p.2) = List.zipWith (· * ·) ps args := by
    rw [List.zip, List.map_zipWith]
  rw [scalar, hfold, hproducts, sum_zipWith_mul]

/-- The entries of a list one of which is replaced. -/
theorem getD_set {l : List ℝ} {k : Nat} (hk : k < l.length) (v : ℝ) (q : Nat) :
    (l.set k v).getD q 0 = l.getD q 0 + if q = k then v - l.getD k 0 else 0 := by
  by_cases hq : q = k
  · subst hq
    simp [hk]
  · simp [hq, Ne.symm hq]

/-- A weighted sum is affine in each of its values. -/
theorem weightedSum_set_arg {k : Nat} (hk : k < args.length) (v : ℝ) :
    linear.scalar ps (args.set k v) =
      linear.scalar ps args + ps.getD k 0 * (v - args.getD k 0) := by
  simp only [scalar_linear_eq, List.length_set, getD_set hk, mul_add, Finset.sum_add_distrib,
    mul_ite, mul_zero, Finset.sum_ite_eq', Finset.mem_range, if_pos hk, add_assoc]

/-- A weighted sum is affine in each of its weights and in its bias. -/
theorem weightedSum_set_param {j : Nat} (hj : j < ps.length) (hlength : ps.length = args.length + 1)
    (v : ℝ) :
    linear.scalar (ps.set j v) args =
      linear.scalar ps args + (args ++ [1]).getD j 0 * (v - ps.getD j 0) := by
  simp only [scalar_linear_eq, getD_set hj, add_mul, Finset.sum_add_distrib, ite_mul, zero_mul,
    Finset.sum_ite_eq', Finset.mem_range]
  by_cases hlast : j < args.length
  · have hbias : args.length ≠ j := Nat.ne_of_gt hlast
    have hslope : (args ++ [1]).getD j 0 = args.getD j 0 := by
      rw [List.getD_append _ _ _ _ hlast]
    rw [if_neg hbias, if_pos hlast, hslope]
    ring
  · obtain rfl : j = args.length := by omega
    have hslope : (args ++ [1]).getD args.length 0 = 1 := by simp
    rw [if_pos rfl, if_neg hlast, hslope]
    ring

end WeightedSum

/-- An affine function has its slope for derivative. -/
theorem hasDerivAt_affine {f : ℝ → ℝ} {b c a : ℝ} (h : ∀ v, f v = b + c * (v - a)) :
    HasDerivAt f c a := by
  obtain rfl : f = fun v => b + c * (v - a) := funext h
  have hslope := (((hasDerivAt_id a).sub_const a).const_mul c).const_add b
  simpa using hslope

/-- The magnitude has its slope for derivative, except at zero. -/
theorem hasDerivAt_modulus {a : ℝ} (ha : a ≠ 0) :
    HasDerivAt (Arith.abs : ℝ → ℝ) (modulusSlope 1 a) a := by
  unfold modulusSlope
  rcases lt_or_gt_of_ne ha with hneg | hpos
  · have hpositive : Arith.lt 0 a = false := decide_eq_false hneg.not_gt
    have hnegative : Arith.lt a 0 = true := decide_eq_true hneg
    rw [hpositive, hnegative]
    exact hasDerivAt_abs_neg hneg
  · have hpositive : Arith.lt 0 a = true := decide_eq_true hpos
    rw [hpositive]
    exact hasDerivAt_abs_pos hpos

/-! ## One row -/

/-- One row, as a function of the value of one parent. -/
theorem hasDerivAt_scalar_arg {op : Primitive} {ps args : List ℝ} (hop : op.Takes args.length)
    (hps : ps.length = op.paramCount args.length) (h : op.SmoothInArgs ps args) {k : Nat}
    (hk : k < args.length) :
    HasDerivAt (fun v => op.scalar ps (args.set k v))
      ((op.argSlopes ps args (op.scalar ps args)).getD k 0) args[k] := by
  have hget : args.getD k 0 = args[k] := by simp [hk]
  cases op with
  | linear | output =>
    have hslope : (ps.take args.length).getD k 0 = ps.getD k 0 := by
      simp [List.getD_eq_getElem?_getD, hk]
    refine hasDerivAt_affine (b := linear.scalar ps args) fun v => ?_
    simp only [argSlopes, hslope]
    exact hget ▸ weightedSum_set_arg hk v
  | input _ | target => exact absurd (hop 0 rfl ▸ hk) (Nat.not_lt_zero k)
  | exp =>
    obtain ⟨a, rfl⟩ := List.length_eq_one_iff.1 (hop 1 rfl)
    obtain rfl : k = 0 := Nat.lt_one_iff.1 hk
    exact Real.hasDerivAt_exp a
  | log =>
    obtain ⟨a, rfl⟩ := List.length_eq_one_iff.1 (hop 1 rfl)
    obtain rfl : k = 0 := Nat.lt_one_iff.1 hk
    have hpos : 0 < a := h
    exact (Real.hasDerivAt_log hpos.ne').congr_deriv (one_div a).symm
  | modulus =>
    obtain ⟨a, rfl⟩ := List.length_eq_one_iff.1 (hop 1 rfl)
    obtain rfl : k = 0 := Nat.lt_one_iff.1 hk
    exact hasDerivAt_modulus h
  | pow =>
    obtain ⟨a, rfl⟩ := List.length_eq_one_iff.1 (hop 1 rfl)
    obtain ⟨p, rfl⟩ := List.length_eq_one_iff.1 hps
    obtain rfl : k = 0 := Nat.lt_one_iff.1 hk
    have hbase : a ≠ 0 ∨ 1 ≤ p := by
      rcases h with hpos | ⟨m, rfl, hne | hone⟩
      · exact .inl hpos.ne'
      · exact .inl hne
      · exact .inr (by exact_mod_cast hone)
    exact Real.hasDerivAt_rpow_const hbase
  | div =>
    obtain ⟨a, b, rfl⟩ := List.length_eq_two.1 (hop 2 rfl)
    have hb : b ≠ 0 := h
    obtain rfl | rfl : k = 0 ∨ k = 1 := by simp at hk; omega
    · exact (hasDerivAt_id a).div_const b
    · refine ((hasDerivAt_const b a).div (hasDerivAt_id b) hb).congr_deriv ?_
      simp [argSlopes, denominatorGradient]
      ring
  | mult =>
    obtain ⟨a, b, rfl⟩ := List.length_eq_two.1 (hop 2 rfl)
    obtain rfl | rfl : k = 0 ∨ k = 1 := by simp at hk; omega
    · exact ((hasDerivAt_id a).mul_const b).congr_deriv (one_mul b)
    · exact ((hasDerivAt_id b).const_mul a).congr_deriv (mul_one a)
  | objective =>
    obtain ⟨o, t, rfl⟩ := List.length_eq_two.1 (hop 2 rfl)
    obtain rfl | rfl : k = 0 ∨ k = 1 := by simp at hk; omega
    · have hresidual : HasDerivAt (fun v => v - t) 1 o := (hasDerivAt_id o).sub_const t
      refine (hresidual.mul hresidual).congr_deriv ?_
      show 1 * (o - t) + (o - t) * 1 = (2.0 : ℝ) * (o - t)
      norm_num
      ring
    · have hresidual : HasDerivAt (fun v => o - v) (-1) t := (hasDerivAt_id t).const_sub o
      refine (hresidual.mul hresidual).congr_deriv ?_
      show -1 * (o - t) + (o - t) * -1 = -((2.0 : ℝ) * (o - t))
      norm_num
      ring

/-- One row, as a function of one parameter. -/
theorem hasDerivAt_scalar_param {op : Primitive} {ps args : List ℝ} (hop : op.Takes args.length)
    (hps : ps.length = op.paramCount args.length) (h : op.SmoothInParams args) {j : Nat}
    (hj : j < ps.length) :
    HasDerivAt (fun p => op.scalar (ps.set j p) args)
      ((op.paramSlopes args (op.scalar ps args)).getD j 0) ps[j] := by
  cases op with
  | linear | output =>
    have hget : ps.getD j 0 = ps[j] := by simp [hj]
    refine hasDerivAt_affine (b := linear.scalar ps args) fun v => ?_
    exact hget ▸ weightedSum_set_param hj hps v
  | pow =>
    obtain ⟨a, rfl⟩ := List.length_eq_one_iff.1 (hop 1 rfl)
    obtain ⟨p, rfl⟩ := List.length_eq_one_iff.1 hps
    obtain rfl : j = 0 := Nat.lt_one_iff.1 hj
    have hpos : 0 < a := h
    have hslope : ([if Arith.lt 0 a then a ^ p * Real.log a else 0] : List ℝ).getD 0 0 =
        a ^ p * Real.log a := if_pos (decide_eq_true hpos)
    exact (Real.hasStrictDerivAt_const_rpow hpos p).hasDerivAt.congr_deriv hslope.symm
  | _ => exact absurd (hj.trans_eq hps) (Nat.not_lt_zero j)

/-! ## Columns -/

section Columns

variable {op : Primitive} {ps : List ℝ} {vs : List (Fin n → ℝ)}

/-- The only number of parents that a primitive takes and a graph does not admit is none at all, for
a weighted sum. -/
theorem Takes.cases (hop : op.Takes vs.length) :
    op.admits vs.length = true ∨ vs = [] ∧ (op = linear ∨ op = output) := by
  cases op with
  | linear | output =>
    rcases vs.eq_nil_or_concat with rfl | ⟨_, _, rfl⟩
    · exact .inr ⟨rfl, by simp⟩
    · exact .inl (by simp [admits, arity?])
  | input _ | target | exp | log | modulus | pow | div | mult | objective =>
    exact .inl (by simp [admits, arity?, hop _ rfl])

/-- A weighted sum of nothing is its bias, in every row. -/
theorem Takes.forward_ofFn (hop : op.Takes vs.length) (hps : ps.length = op.paramCount vs.length) :
    (op.forward ps (vs.map List.ofFn) n : Outcome ε (List ℝ)) =
      .ok (List.ofFn fun r => op.scalar ps (vs.map (· r))) := by
  rcases hop.cases with hadmits | ⟨rfl, rfl | rfl⟩
  · exact Primitive.forward_ofFn hadmits hps
  all_goals
    obtain ⟨b, rfl⟩ := List.length_eq_one_iff.1 hps
    simp [forward, scalar, Outcome.fetchList, Outcome.ofOption]

theorem Takes.backward_ofFn (hop : op.Takes vs.length) (hps : ps.length = op.paramCount vs.length)
    (out grad : Fin n → ℝ) :
    (op.backward ps (vs.map List.ofFn) (List.ofFn out) (List.ofFn grad) :
        Outcome ε (Pullback ℝ)) =
      .ok {
        srcs := (List.range vs.length).map fun k => List.ofFn fun r =>
          grad r * (op.argSlopes ps (vs.map (· r)) (out r)).getD k 0
        params := (List.range ps.length).map fun j =>
          ∑ r, grad r * (op.paramSlopes (vs.map (· r)) (out r)).getD j 0 } := by
  rcases hop.cases with hadmits | ⟨rfl, rfl | rfl⟩
  · exact Primitive.backward_ofFn vs hadmits hps out grad
  all_goals
    obtain ⟨b, rfl⟩ := List.length_eq_one_iff.1 hps
    simp [backward, paramSlopes, Arith.sum_ofFn, Column.zeros]

/-- In one row, the column that `f` computes has the derivative `d` at `a`. -/
def HasDerivInRow (f : ℝ → Outcome ε (List ℝ)) (r : Fin n) (d a : ℝ) : Prop :=
  ∃ column : ℝ → Fin n → ℝ, (∀ v, f v = .ok (List.ofFn (column v))) ∧
    HasDerivAt (fun v => column v r) d a

/-- The rows of the parents when one value of one of them is replaced. -/
theorem map_row_set_update {k : Nat} (hk : k < vs.length) (r : Fin n) (v : ℝ) :
    (vs.set k (Function.update vs[k] r v)).map (· r) = (vs.map (· r)).set k v := by
  rw [List.map_set, Function.update_self]

/-- A column, as a function of one value of one parent. -/
theorem hasDerivInRow_arg (hop : op.Takes vs.length) (hps : ps.length = op.paramCount vs.length)
    {k : Nat} (hk : k < vs.length) {r : Fin n} (h : op.SmoothInArgs ps (vs.map (· r))) :
    HasDerivInRow (ε := ε)
      (fun v => op.forward ps ((vs.set k (Function.update vs[k] r v)).map List.ofFn) n) r
      ((op.argSlopes ps (vs.map (· r)) (op.scalar ps (vs.map (· r)))).getD k 0) (vs[k] r) := by
  refine ⟨fun v r' => op.scalar ps ((vs.set k (Function.update vs[k] r v)).map (· r')),
    fun v => Takes.forward_ofFn (by simpa using hop) (by simpa using hps), ?_⟩
  simp only [map_row_set_update hk]
  have hlength : (vs.map (· r)).length = vs.length := List.length_map _
  have hrow := hasDerivAt_scalar_arg (hlength.symm ▸ hop) (hlength.symm ▸ hps) h
    (hlength.symm ▸ hk)
  simpa only [List.getElem_map] using hrow

/-- A column, as a function of one parameter. -/
theorem hasDerivInRow_param (hop : op.Takes vs.length) (hps : ps.length = op.paramCount vs.length)
    {j : Nat} (hj : j < ps.length) {r : Fin n} (h : op.SmoothInParams (vs.map (· r))) :
    HasDerivInRow (ε := ε) (fun p => op.forward (ps.set j p) (vs.map List.ofFn) n) r
      ((op.paramSlopes (vs.map (· r)) (op.scalar ps (vs.map (· r)))).getD j 0) ps[j] :=
  ⟨fun p r' => op.scalar (ps.set j p) (vs.map (· r')),
    fun p => Takes.forward_ofFn hop (by simpa using hps),
    hasDerivAt_scalar_param (by simpa using hop) (by simpa using hps) h hj⟩

/-- Where a primitive has no derivative in a parameter it hands nothing on to it. -/
theorem paramSlopes_eq_zero {op : Primitive} {args : List ℝ} (h : ¬op.SmoothInParams args) (y : ℝ)
    (j : Nat) : (op.paramSlopes args y).getD j 0 = 0 := by
  cases op with
  | pow =>
    match args, h with
    | [a], h =>
      have hnot : Arith.lt 0 a = false := decide_eq_false h
      cases j <;> simp [paramSlopes, hnot]
    | [], h => exact absurd trivial h
    | _ :: _ :: _, h => exact absurd trivial h
  | _ => exact absurd trivial h

/-- **The local rules are the derivatives.**  From columns of `n` rows, as many as a primitive
takes, and as many parameters as it then has, it computes a column, and hands the gradient `grad` of
that column on.

* Each value of a parent gets the gradient of its row, times the partial derivative of that row in
  that value, where there is one.
* Each parameter gets the sum of the gradients of the rows, times the partial derivatives of the
  rows in the parameter.  A row that has none, of a base that is not positive, does not count.
* A value at which the magnitude has no derivative, zero, gets zero. -/
theorem backward_eq_derivatives (hop : op.Takes vs.length)
    (hps : ps.length = op.paramCount vs.length) (grad : Fin n → ℝ) :
    ∃ (out : Fin n → ℝ) (dsrcs : List (Fin n → ℝ)) (dparams : List ℝ)
      (hsrcs : dsrcs.length = vs.length) (hparams : dparams.length = ps.length),
      (op.forward ps (vs.map List.ofFn) n : Outcome ε (List ℝ)) = .ok (List.ofFn out) ∧
      (op.backward ps (vs.map List.ofFn) (List.ofFn out) (List.ofFn grad) :
          Outcome ε (Pullback ℝ)) = .ok ⟨dsrcs.map List.ofFn, dparams⟩ ∧
      (∀ (k : Nat) (hk : k < vs.length) (r : Fin n), op.SmoothInArgs ps (vs.map (· r)) →
        ∃ d, HasDerivInRow (ε := ε)
            (fun v => op.forward ps ((vs.set k (Function.update vs[k] r v)).map List.ofFn) n) r d
            (vs[k] r) ∧
          dsrcs[k] r = grad r * d) ∧
      (∀ (j : Nat) (hj : j < ps.length), ∃ d : Fin n → ℝ, dparams[j] = ∑ r, grad r * d r ∧
        ∀ r, (op.SmoothInParams (vs.map (· r)) → HasDerivInRow (ε := ε)
            (fun p => op.forward (ps.set j p) (vs.map List.ofFn) n) r (d r) ps[j]) ∧
          (¬op.SmoothInParams (vs.map (· r)) → d r = 0)) ∧
      (op = modulus → ∀ (k : Nat) (hk : k < vs.length) (r : Fin n), vs[k] r = 0 →
        dsrcs[k] r = 0) := by
  let out : Fin n → ℝ := fun r => op.scalar ps (vs.map (· r))
  let argSlope : Nat → Fin n → ℝ := fun k r =>
    (op.argSlopes ps (vs.map (· r)) (out r)).getD k 0
  let paramSlope : Nat → Fin n → ℝ := fun j r => (op.paramSlopes (vs.map (· r)) (out r)).getD j 0
  refine ⟨out, (List.range vs.length).map fun k r => grad r * argSlope k r,
    (List.range ps.length).map fun j => ∑ r, grad r * paramSlope j r, by simp, by simp,
    hop.forward_ofFn hps, ?_, ?_, ?_, ?_⟩
  · rw [hop.backward_ofFn hps, List.map_map]
    rfl
  · intro k hk r hsmooth
    exact ⟨argSlope k r, hasDerivInRow_arg hop hps hk hsmooth, by simp⟩
  · intro j hj
    refine ⟨paramSlope j, by simp, fun r => ⟨fun hsmooth => ?_, fun hrough => ?_⟩⟩
    · exact hasDerivInRow_param hop hps hj hsmooth
    · exact paramSlopes_eq_zero hrough _ j
  · rintro rfl k hk r hzero
    obtain ⟨v, rfl⟩ := List.length_eq_one_iff.1 (hop 1 rfl)
    obtain rfl : k = 0 := Nat.lt_one_iff.1 hk
    have hvalue : v r = 0 := hzero
    have hslope : modulusSlope 1 (v r) = 0 := by
      have hnot : Arith.lt (0 : ℝ) 0 = false := decide_eq_false (lt_irrefl 0)
      simp [hvalue, modulusSlope, hnot]
    show grad r * modulusSlope 1 (v r) = 0
    rw [hslope, mul_zero]

/-- A reciprocal, as a power, of a negative and of a positive value. -/
theorem backward_eq_derivatives_reciprocal :
    pow.Takes 1 ∧ [(-1 : ℝ)].length = pow.paramCount 1 ∧
    (∀ r, pow.SmoothInArgs [-1] [(![-2, 4] : Fin 2 → ℝ) r]) ∧
    ∃ (out dsrc : Fin 2 → ℝ) (dparams : List ℝ),
      (pow.forward [-1] [List.ofFn ![-2, 4]] 2 : Outcome Empty (List ℝ)) = .ok (List.ofFn out) ∧
      (pow.backward [-1] [List.ofFn ![-2, 4]] (List.ofFn out) (List.ofFn ![3, 5]) :
          Outcome Empty (Pullback ℝ)) = .ok ⟨[List.ofFn dsrc], dparams⟩ ∧
      ∀ r, ∃ d, HasDerivInRow (ε := Empty)
          (fun v => pow.forward [-1] [List.ofFn (Function.update ![-2, 4] r v)] 2) r d
          (![-2, 4] r) ∧
        dsrc r = ![3, 5] r * d := by
  have htakes : pow.Takes 1 := fun k hk => Option.some.inj hk
  have hsmooth : ∀ r, pow.SmoothInArgs [-1] [(![-2, 4] : Fin 2 → ℝ) r] := by
    refine Fin.forall_fin_two.2 ⟨.inr ⟨-1, by simp, .inl ?_⟩, .inr ⟨-1, by simp, .inl ?_⟩⟩ <;> simp
  refine ⟨htakes, rfl, hsmooth, ?_⟩
  obtain ⟨out, dsrcs, dparams, hsrcs, -, hforward, hbackward, hargs, -, -⟩ :=
    @backward_eq_derivatives Empty 2 pow [-1] [![-2, 4]] htakes rfl ![3, 5]
  obtain ⟨dsrc, rfl⟩ := List.length_eq_one_iff.1 hsrcs
  exact ⟨out, dsrc, dparams, hforward, hbackward, fun r => hargs 0 Nat.one_pos r (hsmooth r)⟩

end Columns

end FeatureGraph.Primitive
