import FeatureGraph.Graph.Error
import FeatureGraph.Proofs.Exact
import FeatureGraph.Proofs.Value

/-!
# Accumulation in blocks

`Column.addScaled` works on blocks of four and then on what is left over of each column.  On columns
of one length that is the plain loop: it comes to every entry once, in order, and finds the entry of
the other column at the same place.

* `Column.meetings` are the places that come together, and `Column.touch` is what happens there.
* `Column.foldl_touch_meetings` says that this is what `addScaled` does, on columns of any lengths,
  and `Column.meetings_self` that on columns of one length each place meets itself.
* `Primitive.forward_linear` adds up the scaled columns of a linear node row by row, and
  `Primitive.forward_accumulates_in_order` is the statement.
-/

namespace FeatureGraph

variable {ε α : Type}

namespace Column

/-! ## Places -/

/-- The places of two columns of `n` and `m` entries that come together, in the order in which they
do, for columns that start at place `k`.  What is left over after the last full block of one column
meets what is left over of the other. -/
def meetings : Nat → Nat → Nat → List (Nat × Nat)
  | k, n + 4, m + 4 =>
    (k, k) :: (k + 1, k + 1) :: (k + 2, k + 2) :: (k + 3, k + 3) :: meetings (k + 4) n m
  | k, n, m =>
    (List.range (min (n % 4) (m % 4))).map fun j =>
      (k + (n - n % 4) + j, k + (m - m % 4) + j)

/-- On columns of one length every place meets itself, and each once. -/
theorem meetings_self (k n : Nat) : meetings k n n = (List.range n).map fun i => (k + i, k + i) := by
  induction n using Nat.strongRecOn generalizing k with
  | ind n ih =>
    match n with
    | 0 | 1 | 2 | 3 => rfl
    | n + 4 =>
      have hrange : List.range (n + 4) = 0 :: 1 :: 2 :: 3 :: (List.range n).map (4 + ·) := by
        rw [Nat.add_comm, List.range_add]
        rfl
      rw [meetings, ih n (by omega), hrange]
      simp [Nat.add_assoc]

variable [Arith α]

/-- Adds a multiple of one entry of a column to one entry of another. -/
def touch (a : α) (src dest : List α) (p : Nat × Nat) : List α :=
  match src[p.2]? with
  | some s => dest.modify p.1 fun d => d + a * s
  | none => dest

/-- Where two columns have been worked on so far, their next entries meet. -/
theorem touch_next (a d s : α) (done ds past ss : List α) :
    touch a (past ++ s :: ss) (done ++ d :: ds) (done.length, past.length) =
      done ++ (d + a * s) :: ds := by
  have hinside : done.length < (done ++ d :: ds).length := by simp
  simp [touch, List.modify_eq_take_cons_drop hinside]

/-- What is left over is worked on entry by entry, until one of the columns ends. -/
theorem foldl_touch_rest (a : α) (done ds past ss : List α) :
    ((List.range (min ds.length ss.length)).map fun j =>
        (done.length + j, past.length + j)).foldl (touch a (past ++ ss)) (done ++ ds) =
      done ++ update (fun d s => d + a * s) ds ss := by
  induction ds generalizing done past ss with
  | nil => simp [update]
  | cons d ds ih =>
    cases ss with
    | nil => simp [update]
    | cons s ss =>
      have hnext := ih (done ++ [d + a * s]) (past ++ [s]) ss
      simp only [List.append_assoc, List.singleton_append, List.length_append, List.length_cons,
        List.length_nil, Nat.zero_add, Nat.add_assoc] at hnext
      rw [List.length_cons, List.length_cons, Nat.add_min_add_right, List.range_succ_eq_map,
        List.map_cons, List.foldl_cons, Nat.add_zero, Nat.add_zero, touch_next, List.map_map, update,
        ← hnext]
      simp only [Function.comp_def, Nat.succ_eq_add_one, Nat.add_comm 1]

/-- One more entry of both columns is worked on. -/
theorem foldl_touch_next (a d s : α) {k : Nat} {done past : List α} (hdone : done.length = k)
    (hpast : past.length = k) (ds ss : List α) (rest : List (Nat × Nat)) :
    ((k, k) :: rest).foldl (touch a (past ++ s :: ss)) (done ++ d :: ds) =
      rest.foldl (touch a (past ++ [s] ++ ss)) (done ++ [d + a * s] ++ ds) := by
  have hnext := touch_next a d s done ds past ss
  rw [hdone, hpast] at hnext
  rw [List.foldl_cons, hnext, List.append_assoc, List.append_assoc]
  rfl

/-- Whatever the lengths of two columns, `addScaled` is what happens where they meet. -/
theorem foldl_touch_meetings (a : α) {k : Nat} (done ds past ss : List α) (hdone : done.length = k)
    (hpast : past.length = k) :
    (meetings k ds.length ss.length).foldl (touch a (past ++ ss)) (done ++ ds) =
      done ++ addScaled a ds ss := by
  fun_induction addScaled a ds ss generalizing k done past with
  | case1 d₀ d₁ d₂ d₃ ds s₀ s₁ s₂ s₃ ss ih =>
    simp only [List.length_cons, meetings]
    rw [foldl_touch_next a d₀ s₀ hdone hpast, foldl_touch_next a d₁ s₁ (by simp [hdone])
      (by simp [hpast]), foldl_touch_next a d₂ s₂ (by simp [hdone]) (by simp [hpast]),
      foldl_touch_next a d₃ s₃ (by simp [hdone]) (by simp [hpast]),
      ih _ _ (by simp [hdone]) (by simp [hpast])]
    simp
  | case2 ds ss hblock =>
    have hshort := short_of_no_block hblock
    have hleft : ∀ l : List α, (l.drop (l.length - l.length % 4)).length = l.length % 4 := by
      intro l
      have hle := Nat.mod_le l.length 4
      rw [List.length_drop]
      omega
    have hfull : ∀ l : List α, (l.take (l.length - l.length % 4)).length =
        l.length - l.length % 4 := fun l => by simp
    have hrest := foldl_touch_rest a (done ++ ds.take (ds.length - ds.length % 4))
      (ds.drop (ds.length - ds.length % 4)) (past ++ ss.take (ss.length - ss.length % 4))
      (ss.drop (ss.length - ss.length % 4))
    simp only [List.length_append, hleft, hfull, hdone, hpast, List.append_assoc,
      List.take_append_drop] at hrest
    rw [meetings, hrest, addScaledRest]
    omega

theorem getElem?_addScaled (a : α) {ds ss : List α} (h : ds.length = ss.length) {i : Nat} {d s : α}
    (hd : ds[i]? = some d) (hs : ss[i]? = some s) : (addScaled a ds ss)[i]? = some (d + a * s) := by
  rw [addScaled_eq_zipWith a h, List.getElem?_zipWith, hd, hs]

/-- A column as a function of the row. -/
theorem eq_ofFn_getD {n : Nat} {column : List α} (h : column.length = n) :
    column = List.ofFn fun r : Fin n => column.getD r 0 := by
  refine List.ext_getElem (by simp [h]) fun r hr _ => ?_
  simp [hr]

end Column

/-! ## Linear nodes -/

section Linear

variable [Arith α]

/-- Over columns of one length a linear node or an output adds up, in every row, its bias and then
the entries of its parents times their weights, from the first parent to the last. -/
theorem Primitive.forward_linear {op : Primitive} (hop : op = .linear ∨ op = .output) {n : Nat}
    {params : List α} {srcs : List (List α)} (hparams : params.length = srcs.length + 1)
    (hsrcs : ∀ src ∈ srcs, src.length = n) :
    (op.forward params srcs n : Outcome ε (List α)) = .ok (List.ofFn fun r : Fin n =>
      (params.zip (srcs.map (·.getD r 0))).foldl (fun v p => v + p.1 * p.2)
        (params.getD srcs.length 0)) := by
  have hcolumns : srcs = (srcs.map fun src => fun r : Fin n => src.getD r 0).map List.ofFn := by
    rw [List.map_map]
    refine (List.map_id srcs).symm.trans (List.map_congr_left fun src hsrc => ?_)
    exact Column.eq_ofFn_getD (hsrcs src hsrc)
  have hbias : (Outcome.fetchList params srcs.length : Outcome ε α) =
      .ok (params.getD srcs.length 0) := by
    rw [Outcome.fetchList_eq_ok]
    simp [List.getElem?_eq_getElem (show srcs.length < params.length by omega)]
  have hfold := foldl_addScaled_ofFn params (srcs.map fun src => fun r : Fin n => src.getD r 0)
    fun _ => params.getD srcs.length 0
  rw [← hcolumns, List.ofFn_const] at hfold
  rcases hop with rfl | rfl <;>
  · rw [forward, hbias, Outcome.ok_bind, Outcome.pure_eq_ok, hfold]
    simp only [List.map_map, Function.comp_def]

/-- On columns of one length, whatever that is, `addScaled` turns each entry `d` into `d + a * s`, and
it comes to each place once, in order, and meets the same place of the other column there.  So a
linear node or an output with a weight for each parent and a bias has in each row the bias and the
weighted entries of that row, added up from left to right. -/
theorem Primitive.forward_accumulates_in_order :
    (∀ (a : α) (dest src : List α), dest.length = src.length →
      (Column.addScaled a dest src).length = dest.length ∧
      (∀ (i : Nat) (d s : α), dest[i]? = some d → src[i]? = some s →
        (Column.addScaled a dest src)[i]? = some (d + a * s)) ∧
      Column.addScaled a dest src =
        (Column.meetings 0 dest.length src.length).foldl (Column.touch a src) dest ∧
      Column.meetings 0 dest.length src.length = (List.range dest.length).map fun i => (i, i)) ∧
    ∀ op : Primitive, op = .linear ∨ op = .output →
      ∀ (params : List α) (srcs : List (List α)) (n : Nat), params.length = srcs.length + 1 →
      (∀ src ∈ srcs, src.length = n) → ∃ column,
        (op.forward params srcs n : Outcome ε (List α)) = .ok column ∧ column.length = n ∧
        ∀ r < n, column[r]? = some ((params.zip (srcs.map (·.getD r 0))).foldl
          (fun v p => v + p.1 * p.2) (params.getD srcs.length 0)) := by
  constructor
  · intro a dest src h
    refine ⟨Column.length_addScaled a dest src, fun i d s => Column.getElem?_addScaled a h, ?_, ?_⟩
    · exact (Column.foldl_touch_meetings a [] dest [] src rfl rfl).symm
    · rw [← h, Column.meetings_self]
      simp only [Nat.zero_add]
  · intro op hop params srcs n hparams hsrcs
    refine ⟨_, Primitive.forward_linear hop hparams hsrcs, by simp, fun r hr => ?_⟩
    simp [hr]

end Linear

/-- Seven rows are a block of four and three that are left over. -/
theorem Primitive.forward_accumulates_in_order_sevenRows :
    (Column.addScaled (2 : ℝ) [1, 1, 1, 1, 1, 1, 1] [0, 1, 2, 3, 4, 5, 6])[6]? = some 13 ∧
    ∃ column, (Primitive.linear.forward [2, 3, 1]
        [[0, 1, 2, 3, 4, 5, 6], [6, 5, 4, 3, 2, 1, 0]] 7 : Outcome GraphError (List ℝ)) =
          .ok column ∧ column.length = 7 ∧ column[5]? = some 14 := by
  obtain ⟨hentry, hlinear⟩ := Primitive.forward_accumulates_in_order (ε := GraphError) (α := ℝ)
  obtain ⟨_, hadd, _⟩ := hentry 2 [1, 1, 1, 1, 1, 1, 1] [0, 1, 2, 3, 4, 5, 6] rfl
  obtain ⟨column, hrun, hlength, hrow⟩ := hlinear .linear (.inl rfl) [2, 3, 1]
    [[0, 1, 2, 3, 4, 5, 6], [6, 5, 4, 3, 2, 1, 0]] 7 rfl (by simp)
  refine ⟨?_, column, hrun, hlength, ?_⟩
  · rw [hadd 6 1 6 rfl rfl]
    norm_num
  · rw [hrow 5 (by decide)]
    norm_num

end FeatureGraph
