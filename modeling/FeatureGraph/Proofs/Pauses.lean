import Mathlib
import FeatureGraph.Proofs.Adam
import FeatureGraph.Proofs.Averages
import FeatureGraph.Proofs.PerfectFit

/-!
# Where Adam pauses

A training is a run of Adam that pauses at the nodes without an entry in the gradient pass.  The
slopes of such a node are zero, but its running means need not be: Adam would let them decay and
move the node on along them.

* `seenWeight_eq` says how long the weights of the running means are exact.
* `advance_congr` says that a node at rest without slopes may pause, and
  `pausingAfter_eq_textbookAfter` is the induction on the lessons.
* `trained_pauses` is the statement about trainings.
* `trained_differs_lineFit` is a line that overshoots and then meets its target: it stops there, and
  Adam moves it on.
-/

namespace FeatureGraph

variable {α : Type}

open Optimizer (decay₁ decay₂ seenWeight)

/-! ## Weights -/

section Weights

variable [ExactArith α]

/-- Repeated squaring answers the power. -/
theorem Arith.powNatFrom_eq (r a : α) (n : Nat) : Arith.powNatFrom r a n = r * a ^ n := by
  induction n using Nat.strongRecOn generalizing r a with
  | ind n ih =>
    have hdigits := Nat.div_add_mod n 2
    have hdigit : (if n % 2 = 1 then r * a else r) * (a * a) ^ (n / 2) = r * a ^ n := by
      rw [← sq, ← pow_mul]
      split
      · rename_i hodd
        conv_rhs => rw [← hdigits, hodd, pow_succ]
        ring
      · conv_rhs => rw [← hdigits, show n % 2 = 0 by omega, Nat.add_zero]
    rw [Arith.powNatFrom]
    split
    · rename_i hlast
      rw [← hdigit, hlast, pow_zero, mul_one]
    · rw [ih _ (by omega), hdigit]

namespace Adam

/-- As long as the step number fits in the exponent, the weight is one minus a power. -/
theorem seenWeight_eq {t : Nat} (ht : t < 2 ^ 31) (decay : α) :
    seenWeight decay t = exactWeight decay t := by
  have hword : Optimizer.biasExponent t = Int.bmod t (2 ^ 32) :=
    congrArg (Int.bmod t) (Nat.one_shiftLeft 32)
  have hfits : Int.bmod t (2 ^ 32) = t := by
    refine Int.bmod_eq_of_le (by norm_num) ?_
    norm_num at ht ⊢
    omega
  rw [seenWeight, hword, hfits, Arith.powInt, if_neg (by omega), Int.natAbs_natCast,
    Arith.powNatFrom_eq, one_mul, exactWeight]

theorem change_seenWeight {t : Nat} (ht : t < 2 ^ 31) (rate first second : α) :
    change seenWeight rate t first second = change exactWeight rate t first second := by
  rw [change, change, seenWeight_eq ht, seenWeight_eq ht]

end Adam

end Weights

/-! ## Rest -/

namespace Adam

section Pauses

variable [ExactArith α] {g : Graph α} {nodes : List NodeId} {p : Graph α × Optimizer α} {s : Adam α}
  {l : Lesson α}

/-- The running means of a node are zero. -/
def AtRest (s : Adam α) (id : NodeId) : Prop := ∀ j, s.first id j = 0 ∧ s.second id j = 0

/-- Without running means and without a slope nothing changes. -/
theorem change_zero (weight : α → Nat → α) (rate : α) (t : Nat) (second : α) :
    change weight rate t 0 second = 0 := by
  rw [change, ExactArith.div_eq 0, zero_mul, mul_zero, ExactArith.div_eq, zero_mul]

section Rest

variable {slope : NodeId → Nat → α} {id : NodeId}

theorem AtRest.nextFirst (h : s.AtRest id) (hslope : ∀ j, slope id j = 0) (j : Nat) :
    s.nextFirst slope id j = 0 := by
  rw [Adam.nextFirst, (h j).1, hslope, mul_zero, mul_zero, add_zero]

theorem AtRest.nextSecond (h : s.AtRest id) (hslope : ∀ j, slope id j = 0) (j : Nat) :
    s.nextSecond slope id j = 0 := by
  rw [Adam.nextSecond, (h j).2, hslope, sq, mul_zero, mul_zero, mul_zero, add_zero]

end Rest

/-- Two steps that agree on where a node moves, unless it is at rest on level ground. -/
theorem advance_congr {weight weight' : α → Nat → α} {moves moves' : NodeId → Bool}
    {slope : NodeId → Nat → α} {rate : α}
    (hweight : ∀ a b, change weight rate (s.steps + 1) a b = change weight' rate (s.steps + 1) a b)
    (hmoves : ∀ id, moves id = moves' id ∨ s.AtRest id ∧ ∀ j, slope id j = 0) :
    s.advance weight moves slope rate = s.advance weight' moves' slope rate := by
  refine Adam.ext (Array.ext_getElem? fun id => ?_) ?_ ?_ ?_
  · rw [getElem?_params_advance, getElem?_params_advance]
    refine congrArg (Option.map · _) (funext fun ps => ?_)
    rcases hmoves id with hsame | ⟨hstill, hzero⟩
    · simp only [hsame, hweight]
    · -- nothing is subtracted, wherever the node moves
      have hstays : ps.mapIdx (fun _ p => p) = ps := by simp [List.mapIdx_eq_zipIdx_map]
      simp only [hstill.nextFirst hzero, change_zero, sub_zero, hstays, ite_self]
  · funext id j
    rw [first_advance, first_advance]
    rcases hmoves id with hsame | ⟨hstill, hzero⟩
    · rw [hsame]
    · rw [hstill.nextFirst hzero, (hstill j).1, ite_self, ite_self]
  · funext id j
    rw [second_advance, second_advance]
    rcases hmoves id with hsame | ⟨hstill, hzero⟩
    · rw [hsame]
    · rw [hstill.nextSecond hzero, (hstill j).2, ite_self, ite_self]
  · rw [steps_advance, steps_advance]

/-- A step that pauses at nodes at rest only is a step of Adam. -/
theorem pausing_eq_textbook (hsound : (s.graph g).Sound)
    (hpass : ∃ grads, ((s.graph g).gradients l.x l.y).1 = .ok grads)
    (hsteps : s.steps + 1 < 2 ^ 31)
    (hrest : ∀ id ∈ nodes, (s.graph g).silent l.x l.y id = true → s.AtRest id) :
    s.pausing g nodes l = s.textbook g nodes l := by
  obtain ⟨grads, hgrads⟩ := hpass
  refine advance_congr (change_seenWeight hsteps l.rate) fun id => ?_
  by_cases hid : id ∈ nodes
  · cases hsilent : (s.graph g).silent l.x l.y id with
    | true => exact .inr ⟨hrest id hid hsilent, Graph.lossSlope_of_silent hsound hgrads hsilent⟩
    | false => exact .inl (by simp)
  · exact .inl (by simp [hid])

/-- As long as only nodes at rest are silent, the recursion that pauses is Adam. -/
theorem pausingAfter_eq_textbookAfter (hg : g.Sound) (hnodup : nodes.Nodup)
    {lessons : List (Lesson α)}
    (haccepts : ∀ l ∈ lessons, ∃ grads, (g.gradients l.x l.y).1 = .ok grads)
    (hshort : lessons.length < 2 ^ 31)
    (hrest : ∀ earlier l later, lessons = earlier ++ l :: later → ∀ id ∈ nodes,
      ((textbookAfter g nodes earlier).graph g).silent l.x l.y id = true →
        (textbookAfter g nodes earlier).AtRest id) :
    pausingAfter g nodes lessons = textbookAfter g nodes lessons := by
  induction lessons using List.reverseRecOn with
  | nil => rw [pausingAfter, textbookAfter, List.foldl_nil, List.foldl_nil]
  | append_singleton lessons l ih =>
    rw [List.length_append, List.length_singleton] at hshort
    have hearlier : ∀ l' ∈ lessons, ∃ grads, (g.gradients l'.x l'.y).1 = .ok grads :=
      fun l' hl' => haccepts l' (List.mem_append_left _ hl')
    have hbefore := ih hearlier (by omega)
      fun earlier l' later hsplit => hrest earlier l' (later ++ [l]) (by simp [hsplit])
    obtain ⟨p, h⟩ : ∃ p, Follows g p (pausingAfter g nodes lessons) :=
      exists_follows hg hnodup hearlier
    have hpass := (h.accepts_iff hg).2 (haccepts l (by simp))
    rw [← h.gradients_graph] at hpass
    rw [hbefore] at h hpass
    rw [pausingAfter_concat, textbookAfter_concat, hbefore]
    refine pausing_eq_textbook h.sound_graph hpass ?_ (hrest lessons l [] rfl)
    rw [steps_textbookAfter]
    exact hshort

/-- A training of a graph that actions lead to, in any number of calls of any number of steps, is a
run of the recursion that pauses, along the true slopes of the loss: at a node without an entry in
the gradient pass neither the parameters nor the running means change in this step.  All slopes of
such a node are zero.  The training is Adam's, as long as the step number fits in the exponent and
no trainable node pauses whose running means are not all zero. -/
theorem trained_pauses (hg : g.Reachable) :
    ∃ nodes, (g.table.trainable : Outcome GraphError (List NodeId)) = .ok nodes ∧
      ∀ calls : List (Lesson α × Nat),
        (trained g calls).1.table.params = (pausingAfter g nodes (lessons g calls)).params ∧
        (∀ earlier l later, lessons g calls = earlier ++ l :: later → ∀ id,
          ((pausingAfter g nodes earlier).graph g).silent l.x l.y id = true →
            ∀ j, ((pausingAfter g nodes earlier).graph g).lossSlope l.x l.y id j = 0) ∧
        ((lessons g calls).length < 2 ^ 31 →
          (∀ earlier l later, lessons g calls = earlier ++ l :: later → ∀ id ∈ nodes,
            ((textbookAfter g nodes earlier).graph g).silent l.x l.y id = true →
              (textbookAfter g nodes earlier).AtRest id) →
          (trained g calls).1.table.params = (textbookAfter g nodes (lessons g calls)).params) := by
  have hsound := hg.sound
  obtain ⟨nodes, hnodes⟩ := hsound.wellFormed.table.exists_trainable (ε := GraphError)
  have hnodup : nodes.Nodup := (Outcome.sublist_of_filterM hnodes).nodup List.nodup_range
  refine ⟨nodes, hnodes, fun calls => ?_⟩
  have haccepts : ∀ l ∈ lessons g calls, ∃ grads, (g.gradients l.x l.y).1 = .ok grads := by
    intro l hl
    obtain ⟨call, _, hl⟩ := List.mem_flatMap.1 hl
    exact exists_of_mem_lessonsOf hl
  have hparams := (Follows.trained hsound hnodup hnodes calls).params
  refine ⟨hparams, fun earlier l later hsplit id hsilent => ?_, fun hshort hrest => ?_⟩
  · rw [hsplit] at haccepts
    obtain ⟨p, h⟩ : ∃ p, Follows g p (pausingAfter g nodes earlier) :=
      exists_follows hsound hnodup fun l' hl' => haccepts l' (List.mem_append_left _ hl')
    obtain ⟨grads, hgrads⟩ := (h.accepts_iff hsound).2 (haccepts l (by simp))
    exact Graph.lossSlope_of_silent h.sound_graph ((h.gradients_graph _ _).trans hgrads) hsilent
  · exact hparams.trans
      (congrArg params (pausingAfter_eq_textbookAfter hsound hnodup haccepts hshort hrest))

end Pauses

/-! ## The line -/

/-- One row of a one with the given target, at the rate one half. -/
noncomputable def atOne (y : ℝ) : Lesson ℝ := ⟨.ofFn 1 1 fun _ _ => 1, [y], 1 / 2⟩

theorem accepts_atOne (y : ℝ) :
    ∃ grads, ((Graph.lineFit : Graph ℝ).gradients (atOne y).x (atOne y).y).1 = .ok grads := by
  have hforward : ((Graph.lineFit : Graph ℝ).evaluate (atOne y).x none).1 = .ok () := by rfl
  exact Graph.exists_gradients_of_evaluate Graph.reachable_lineFit.sound hforward rfl rfl rfl

/-- At the start all nodes are at rest. -/
theorem atRest_of_singleton {g : Graph ℝ} {nodes : List NodeId} {first : Lesson ℝ} :
    ∀ earlier l later, [first] = earlier ++ l :: later → ∀ id ∈ nodes,
      ((textbookAfter g nodes earlier).graph g).silent l.x l.y id = true →
        (textbookAfter g nodes earlier).AtRest id := by
  rintro (_ | ⟨_, earlier⟩) l later hsplit id _ _
  · exact fun j => ⟨rfl, rfl⟩
  · simp at hsplit

/-- The first step of the line is Adam's. -/
theorem trained_pauses_lineFit :
    (Graph.lineFit : Graph ℝ).Reachable ∧
    ∃ nodes, ((Graph.lineFit : Graph ℝ).table.trainable : Outcome GraphError (List NodeId)) =
        .ok nodes ∧
      (trained Graph.lineFit [(atOne 0, 1)]).1.table.params =
        (textbookAfter Graph.lineFit nodes [atOne 0]).params := by
  obtain ⟨nodes, hnodes, hall⟩ := trained_pauses (Graph.reachable_lineFit (α := ℝ))
  obtain ⟨-, -, hadam⟩ := hall [(atOne 0, 1)]
  have hlessons : lessons Graph.lineFit [(atOne 0, 1)] = [atOne 0] := by
    rw [lessons, List.flatMap_singleton, lessonsOf_eq (accepts_atOne 0), List.replicate_one]
  rw [hlessons] at hadam
  exact ⟨Graph.reachable_lineFit, nodes, hnodes, hadam (by norm_num) atRest_of_singleton⟩

end Adam

/-- The tangent of a node that is not dropped. -/
theorem NodeTable.Holds.tangentAt [ExactArith α] {t : NodeTable α} {id : NodeId} {op : Primitive}
    {ps : List NodeId} {params : List α} (h : t.Holds id op ps params) (ht : t.Sound) (s : Sample α)
    (moved : NodeId) (j : Nat) :
    t.tangentAt s moved j id =
      (List.zipWith (· * ·) (op.argSlopes params (ps.map (t.valueAt s)) (t.valueAt s id))
        (ps.map (t.tangentAt s moved j))).sum +
      if id = moved then (op.paramSlopes (ps.map (t.valueAt s)) (t.valueAt s id)).getD j 0
      else 0 := by
  rw [ht.tangentAt_eq s moved j h.op h.params h.kept, h.parents]
  rfl

namespace Graph

variable [ExactArith α] {w b : α}

/-- The line with the given slope and offset. -/
def lineWith (w b : α) : Graph α := lineFit.replaceParams 1 [w, b]

theorem sound_lineWith (w b : α) : (lineWith w b).Sound :=
  reachable_lineFit.sound.of_change (.params 1 (.inr ⟨[1, 0], rfl, rfl⟩))

theorem holds_lineWith (w b : α) : (lineWith w b).table.Holds 0 (.input 0) [] [] ∧
    (lineWith w b).table.Holds 1 .output [0] [w, b] ∧ (lineWith w b).table.Holds 2 .target [] [] ∧
    (lineWith w b).table.Holds 3 .objective [1, 2] [] := by
  have hops : (lineWith w b).table.ops = #[.input 0, .output, .target, .objective] := rfl
  have hparams : (lineWith w b).table.params = #[[], [w, b], [], []] := rfl
  have hdropped : (lineWith w b).table.dropped = #[false, false, false, false] := rfl
  refine ⟨⟨?_, rfl, ?_, ?_⟩, ⟨?_, rfl, ?_, ?_⟩, ⟨?_, rfl, ?_, ?_⟩, ⟨?_, rfl, ?_, ?_⟩⟩ <;>
    simp [hops, hparams, hdropped]

theorem valueAt_lineWith (s : Sample α) :
    (lineWith w b).table.valueAt s 0 = s.raw.getD 0 0 ∧
      (lineWith w b).table.valueAt s 1 = b + w * s.raw.getD 0 0 ∧
      (lineWith w b).table.valueAt s 2 = s.target.getD 0 := by
  have ht := (sound_lineWith w b).table
  obtain ⟨hinput, houtput, htarget, -⟩ := holds_lineWith w b
  have hcolumn : (lineWith w b).table.valueAt s 0 = s.raw.getD 0 0 := hinput.valueAt ht s
  refine ⟨hcolumn, ?_, htarget.valueAt ht s⟩
  rw [houtput.valueAt ht s, List.map_singleton, hcolumn]
  rcases s with ⟨raw, _ | y⟩ <;> rfl

/-- The slope of the squared error in the slope and in the offset of the line. -/
theorem tangentAt_lineWith (s : Sample α) (j : Nat) :
    (lineWith w b).table.tangentAt s 1 j 3 =
      2.0 * (b + w * s.raw.getD 0 0 - s.target.getD 0) * [s.raw.getD 0 0, 1].getD j 0 := by
  have ht := (sound_lineWith w b).table
  obtain ⟨hinput, houtput, htarget, hobjective⟩ := holds_lineWith w b
  obtain ⟨hcolumn, hline, hgoal⟩ := valueAt_lineWith (w := w) (b := b) s
  have hinput' : (lineWith w b).table.tangentAt s 1 j 0 = 0 := by
    simpa using hinput.tangentAt ht s 1 j
  have htarget' : (lineWith w b).table.tangentAt s 1 j 2 = 0 := by
    simpa using htarget.tangentAt ht s 1 j
  have houtput' : (lineWith w b).table.tangentAt s 1 j 1 = [s.raw.getD 0 0, 1].getD j 0 := by
    rw [houtput.tangentAt ht s 1 j]
    simp [Primitive.argSlopes, Primitive.paramSlopes, hinput', hcolumn]
  rw [hobjective.tangentAt ht s 1 j]
  simp [Primitive.argSlopes, hline, hgoal, houtput', htarget']

end Graph

namespace Adam

section Line

variable {s : Adam ℝ} {w b : ℝ}

theorem table_line (hs : s.params = (Graph.lineWith w b).table.params) :
    (s.graph Graph.lineFit).table = (Graph.lineWith w b).table := by
  rw [graph, hs]
  rfl

theorem sample_atOne (y : ℝ) : ∀ r, (atOne y).x.sample (some (atOne y).y) r = ⟨[1], some y⟩ :=
  Fin.forall_fin_one.2 rfl

theorem lossSlope_line (hs : s.params = (Graph.lineWith w b).table.params) (y : ℝ) (j : Nat) :
    (s.graph Graph.lineFit).lossSlope (atOne y).x (atOne y).y 1 j =
      2 * (b + w - y) * [1, 1].getD j 0 := by
  have hobjectives : (s.graph Graph.lineFit).objectives = [3] := rfl
  have htwo : (2.0 : ℝ) = 2 := by norm_num
  rw [Graph.lossSlope, table_line hs, hobjectives, List.headD_cons]
  simp only [sample_atOne, Graph.tangentAt_lineWith]
  change Arith.mean [2.0 * (b + w * 1 - y) * [1, 1].getD j 0] = _
  rw [mul_one, Arith.mean_singleton (div_one 1)]
  exact congrArg (· * (b + w - y) * [1, 1].getD j 0) htwo

/-- A line on target is passed over. -/
theorem silent_line (hs : s.params = (Graph.lineWith w b).table.params) {y : ℝ} (hfit : b + w = y)
    (id : NodeId) : (s.graph Graph.lineFit).silent (atOne y).x (atOne y).y id = true := by
  have htable := table_line hs
  have hsound : (s.graph Graph.lineFit).Sound :=
    .of_table (htable ▸ (Graph.sound_lineWith w b).table) rfl
  have hfirst : (s.graph Graph.lineFit).objectives.head? = some 3 := rfl
  obtain ⟨-, -, -, hobjective⟩ := Graph.holds_lineWith w b
  rw [← htable] at hobjective
  have hvalues : ∀ r, (s.graph Graph.lineFit).table.valueAt
        ((atOne y).x.sample (some (atOne y).y) r) 1 =
      (s.graph Graph.lineFit).table.valueAt ((atOne y).x.sample (some (atOne y).y) r) 2 := by
    intro r
    obtain ⟨-, hline, htarget⟩ := Graph.valueAt_lineWith (w := w) (b := b) ⟨[1], some y⟩
    rw [htable, sample_atOne, hline, htarget]
    simpa using hfit
  unfold Graph.silent
  split
  · rename_i grads hgrads
    rw [List.isEmpty_iff]
    exact Graph.get_gradients_of_fit hsound hgrads hfirst hobjective.op hobjective.parents
      hvalues id
  · rfl

end Line

theorem decay₁_real : (decay₁ : ℝ) = 9 / 10 := by
  show (0.9 : ℝ) = 9 / 10
  norm_num

theorem decay₂_real : (decay₂ : ℝ) = 999 / 1000 := by
  show (0.999 : ℝ) = 999 / 1000
  norm_num

/-- The first change of a parameter, along a slope of two. -/
noncomputable def firstChange : ℝ := 1 / (2 + 1e-8)

theorem change_eq_firstChange : change exactWeight (1 / 2 : ℝ) 1 ((1 - decay₁) * 2)
    ((1 - decay₂) * 2 ^ 2) = firstChange := by
  have hroot : Arith.sqrt (4 : ℝ) = 2 := by
    show Real.sqrt 4 = 2
    rw [show (4 : ℝ) = 2 ^ 2 by norm_num, Real.sqrt_sq (by norm_num)]
  have hguard : (Optimizer.guard : ℝ) = 1e-8 := rfl
  rw [change, exactWeight, exactWeight, decay₁_real, decay₂_real, hguard, firstChange]
  norm_num [hroot]

/-- What is left of the first slope still moves a parameter in the second step. -/
theorem change_later_ne_zero (second : ℝ) : change exactWeight (1 / 2 : ℝ) 2
    (decay₁ * ((1 - decay₁) * 2) + (1 - decay₁) * 0) second ≠ 0 := by
  have hguard : (Optimizer.guard : ℝ) = 1e-8 := rfl
  rw [change, exactWeight, decay₁_real, hguard]
  refine div_ne_zero (by norm_num) (ne_of_gt ?_)
  exact add_pos_of_nonneg_of_pos (Real.sqrt_nonneg _) (by norm_num)

/-- Adam on the line after one row that the line overshoots. -/
noncomputable def overshot : Adam ℝ := textbookAfter Graph.lineFit [1] [atOne 0]

theorem means_overshot {j : Nat} (hj : j < 2) :
    overshot.first 1 j = (1 - decay₁) * 2 ∧ overshot.second 1 j = (1 - decay₂) * 2 ^ 2 := by
  have hline : (Adam.start (Graph.lineFit : Graph ℝ).table.params).params =
      (Graph.lineWith 1 0).table.params := rfl
  have hslope : ((Adam.start (Graph.lineFit : Graph ℝ).table.params).graph Graph.lineFit).lossSlope
      (atOne 0).x (atOne 0).y 1 j = 2 := by
    rw [lossSlope_line hline]
    interval_cases j <;> norm_num
  have hzero₁ : (Adam.start (Graph.lineFit : Graph ℝ).table.params).first 1 j = 0 := rfl
  have hzero₂ : (Adam.start (Graph.lineFit : Graph ℝ).table.params).second 1 j = 0 := rfl
  constructor
  · show nextFirst _ _ 1 j = _
    rw [nextFirst, hslope, hzero₁, mul_zero, zero_add]
  · show nextSecond _ _ 1 j = _
    rw [nextSecond, hslope, hzero₂, mul_zero, zero_add]

theorem params_overshot : overshot.params =
    (Graph.lineWith (1 - firstChange) (0 - firstChange)).table.params := by
  have hchange : ∀ j < 2, change exactWeight (1 / 2 : ℝ) 1 (overshot.first 1 j)
      (overshot.second 1 j) = firstChange := by
    intro j hj
    rw [(means_overshot hj).1, (means_overshot hj).2, change_eq_firstChange]
  refine Array.ext_getElem? fun id => ?_
  match id with
  | 1 =>
    show some [1 - change exactWeight (1 / 2 : ℝ) 1 (overshot.first 1 0) (overshot.second 1 0),
      0 - change exactWeight (1 / 2 : ℝ) 1 (overshot.first 1 1) (overshot.second 1 1)] =
        some [1 - firstChange, 0 - firstChange]
    rw [hchange 0 (by decide), hchange 1 (by decide)]
  | 0 | 2 | 3 => rfl
  | n + 4 => rfl

/-- The target that the line meets after its first step. -/
noncomputable def onTarget : Lesson ℝ := atOne (1 - 2 / (2 + 1e-8))

/-- A call of one step that the line overshoots, and one of a step in which it is on target.  The
second step leaves the line where it is, and Adam moves it on. -/
theorem trained_differs_lineFit :
    (Graph.lineFit : Graph ℝ).Reachable ∧ (∀ id, (Graph.lineFit : Graph ℝ).isDropped id = false) ∧
    ((Graph.lineFit : Graph ℝ).table.trainable : Outcome GraphError (List NodeId)) = .ok [1] ∧
    lessons Graph.lineFit [(atOne 0, 1), (onTarget, 1)] = [atOne 0, onTarget] ∧
    (trained Graph.lineFit [(atOne 0, 1), (onTarget, 1)]).1.table.params[1]? ≠
      (textbookAfter Graph.lineFit [1] [atOne 0, onTarget]).params[1]? := by
  have hsound := (Graph.reachable_lineFit (α := ℝ)).sound
  have hnodes : ((Graph.lineFit : Graph ℝ).table.trainable : Outcome GraphError (List NodeId)) =
      .ok [1] := by rfl
  have hlessons : lessons Graph.lineFit [(atOne 0, 1), (onTarget, 1)] = [atOne 0, onTarget] := by
    rw [lessons, List.flatMap_cons, List.flatMap_singleton, lessonsOf_eq (accepts_atOne 0),
      lessonsOf_eq (l := onTarget) (accepts_atOne _)]
    rfl
  refine ⟨Graph.reachable_lineFit, fun id => ?_, hnodes, hlessons, fun heq => ?_⟩
  · match id with
    | 0 | 1 | 2 | 3 => rfl
    | n + 4 => rfl
  have hfirst : pausingAfter (Graph.lineFit : Graph ℝ) [1] [atOne 0] = overshot :=
    pausingAfter_eq_textbookAfter hsound (List.nodup_singleton 1) (by simpa using accepts_atOne 0)
      (by norm_num) atRest_of_singleton
  have hfit : 0 - firstChange + (1 - firstChange) = 1 - 2 / (2 + 1e-8) := by
    rw [firstChange]
    ring
  have hstart : overshot.params[1]? = some [1 - firstChange, 0 - firstChange] := by
    rw [params_overshot]
    rfl
  -- the second step passes over the line
  have hpaused : (trained (Graph.lineFit : Graph ℝ)
      [(atOne 0, 1), (onTarget, 1)]).1.table.params[1]? = overshot.params[1]? := by
    have hparams := (Follows.trained hsound (List.nodup_singleton 1) hnodes
      [(atOne 0, 1), (onTarget, 1)]).params
    have hlast : pausingAfter Graph.lineFit [1] [atOne 0, onTarget] =
        overshot.pausing Graph.lineFit [1] onTarget := by
      rw [← hfirst]
      rfl
    rw [hparams, hlessons, hlast, pausing, getElem?_params_advance, onTarget,
      silent_line params_overshot hfit]
    simp
  -- in Adam's second step what is left of the first slope moves it
  have hmoved : 1 - firstChange - change exactWeight (1 / 2 : ℝ) 2
      (overshot.nextFirst ((overshot.graph Graph.lineFit).lossSlope onTarget.x onTarget.y) 1 0)
      (overshot.nextSecond ((overshot.graph Graph.lineFit).lossSlope onTarget.x onTarget.y) 1 0) =
        1 - firstChange := by
    have hlast : textbookAfter Graph.lineFit [1] [atOne 0, onTarget] =
        overshot.textbook Graph.lineFit [1] onTarget := rfl
    rw [hpaused, hlast, textbook, getElem?_params_advance, hstart] at heq
    have hhead := congrArg (fun ps : Option (List ℝ) => (ps.getD []).getD 0 0) heq
    exact hhead.symm
  have hslope : (overshot.graph Graph.lineFit).lossSlope onTarget.x onTarget.y 1 0 = 0 := by
    rw [onTarget, lossSlope_line params_overshot, hfit, sub_self, mul_zero, zero_mul]
  rw [nextFirst, (means_overshot (by decide)).1, hslope] at hmoved
  exact change_later_ne_zero _ (sub_eq_self.1 hmoved)

end Adam

end FeatureGraph
