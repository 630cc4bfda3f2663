import FeatureGraph.Proofs.ExtendedReal
import FeatureGraph.Proofs.ForwardPass
import FeatureGraph.Proofs.Lowering
import FeatureGraph.Model.Agreement

/-!
# Agreement of a forest and its graph

The check that compares a forest with the graph it has been lowered to accepts exactly if
no feature takes the square root of a negative argument.

There are four groups.

* The discrepancy of two columns.  It vanishes if the columns are one, and it is infinite
  if only the symbolic side is not a number in some row.
* One comparison.  A graph that has grown from nothing can be evaluated, and
  `compare_eq` says which two columns are compared.
* The run.  `checkFrom_agreed` carries the check past the features that agree, and
  `of_checkFrom_eq_ok` says what a check that succeeds has seen.
* The check of a lowered forest, in any arithmetic where its columns agree up to the first
  feature that differs (`check_finds_out`), and then where that is a square root.
  `Forest.lower_agrees` is about the forest, its columns and nothing else.
-/

namespace FeatureGraph

/-! ## Discrepancies -/

namespace Agreement

variable {α : Type} [Arith α] [LoweringLaws α]

/-- A row in which both sides are the same value does not raise the difference. -/
theorem Spread.row?_self {w : Spread α} (hw : w.difference = 0) (a : α) :
    ∃ w', w.row? (a, a) = some w' ∧ w'.difference = 0 := by
  have hwiden : (w.widen a).difference = 0 := by simpa using hw
  by_cases hspecial : sameSpecial a a = true
  · exact ⟨w.widen a, by simp [row?, hspecial], hwiden⟩
  -- a value that is neither infinite nor undefined is finite
  have hfinite : Arith.isFinite a = true := by
    rcases SpecialValues.isNaN_or_isInfinite_or_isFinite a with hnan | hinf | hfinite
    · simp [sameSpecial, hnan] at hspecial
    · cases hnan : Arith.isNaN a with
      | true => simp [sameSpecial, hnan] at hspecial
      | false => simp [sameSpecial, hinf, SpecialValues.eqv_self hnan] at hspecial
    · exact hfinite
  have hzero : Arith.abs (a - a) = 0 := by
    rw [LoweringLaws.sub_self a hfinite, SpecialValues.abs_zero]
  have hmax : Arith.max (0 : α) 0 = 0 := by
    unfold Arith.max
    split_ifs <;> rfl
  refine ⟨{ w.widen a with difference := Arith.max (w.widen a).difference 0 }, ?_, ?_⟩
  · simp [row?, hspecial, hzero, SpecialValues.isFinite_zero]
  · rw [hwiden, hmax]

theorem exists_foldlM_self (column : List α) {w : Spread α} (hw : w.difference = 0) :
    ∃ w', (column.zip column).foldlM Spread.row? w = some w' ∧ w'.difference = 0 := by
  induction column generalizing w with
  | nil => exact ⟨w, rfl, hw⟩
  | cons a column ih =>
    obtain ⟨v, hrow, hv⟩ := Spread.row?_self hw a
    obtain ⟨w', hrun, hw'⟩ := ih hv
    refine ⟨w', ?_, hw'⟩
    rw [List.zip_cons_cons, List.foldlM_cons, hrow]
    exact hrun

/-- A column does not differ from itself. -/
theorem discrepancy_self (column : List α) : discrepancy column column = 0 := by
  obtain ⟨w, hrun, hw⟩ :=
    exists_foldlM_self column (w := ⟨0, Arith.inf, -Arith.inf⟩) rfl
  have hzero : Arith.eqv (0 : α) 0 = true :=
    SpecialValues.eqv_self (SpecialValues.isNaN_of_isFinite SpecialValues.isFinite_zero)
  simp [discrepancy, hrun, Spread.normalized, hw, hzero]

/-- A row in which only the symbolic side is not a number ends the comparison. -/
theorem Spread.row?_eq_none (w : Spread α) {s c : α} (hs : Arith.isNaN s = true)
    (hc : Arith.isNaN c = false) : w.row? (s, c) = none := by
  have hinf : Arith.isInfinite s = false := by
    simp [Arith.isInfinite, SpecialValues.eqv_of_isNaN s _ hs]
  have hspecial : sameSpecial s c = false := by simp [sameSpecial, hc, hinf]
  have hdifference : Arith.isFinite (Arith.abs (s - c)) = false :=
    SpecialValues.isFinite_of_isNaN (SpecialValues.isNaN_abs _ (SpecialValues.isNaN_sub s c hs))
  simp [row?, hspecial, hdifference]

/-- The discrepancy is infinite if in some row only the symbolic side is not a number. -/
theorem discrepancy_eq_inf {n : Nat} {s c : Fin n → α} (r : Fin n)
    (hs : Arith.isNaN (s r) = true) (hc : Arith.isNaN (c r) = false) :
    discrepancy (List.ofFn s) (List.ofFn c) = Arith.inf := by
  have hrow : (s r, c r) ∈ (List.ofFn s).zip (List.ofFn c) := by
    rw [List.mem_iff_getElem]
    exact ⟨r, by simp, by simp⟩
  simp [discrepancy, foldlM_row?_eq_none hrow fun w => w.row?_eq_none hs hc]

end Agreement

/-! ## One comparison -/

namespace Graph.Intact

variable {α : Type} [Arith α] {g : Graph α} {x : Matrix α}

omit [Arith α] in
theorem isActive (hg : g.Intact) {id : NodeId} (hid : id < g.size) : g.isActive id = true := by
  simp [Graph.isActive, hg.active id hid]

omit [Arith α] in
theorem closed (hg : g.Intact) : g.table.Closed := by
  intro id _ p hp
  have hinside : p < g.size := hg.sound.table.parent_lt_size hp
  exact (isActive_iff_mem_activeIds hg.sound).1 (hg.isActive hinside)

/-- An intact graph can be evaluated on rows that have a column for each of its inputs. -/
theorem evaluate_eq_ok (hg : g.Intact) (hx : g.nextColumn ≤ x.nCols) :
    (g.evaluate x none).1 = .ok () := by
  refine (evaluate_eq_ok_iff hg.sound).2 ⟨hg.closed, by simp, ?_⟩
  intro id _ column hop
  have hcolumn := hg.inputs id column hop
  omega

theorem isActive_evaluate (hg : g.Intact) (hpass : (g.evaluate x none).1 = .ok ())
    {id : NodeId} (hid : id < g.size) : (g.evaluate x none).2.isActive id = true := by
  rw [evaluate_snd hg.sound hpass]
  exact hg.isActive hid

/-- The column that an evaluation leaves at a node. -/
theorem vals?_evaluate (hg : g.Intact) (hx : g.nextColumn ≤ x.nCols) {id : NodeId}
    (hid : id < g.size) : (g.evaluate x none).2.vals? id = some (g.table.columnAt x none id) := by
  rw [Graph.vals?_evaluate hg.sound (hg.evaluate_eq_ok hx), if_pos (hg.isActive hid)]

end Graph.Intact

namespace Agreement

open Lowering

variable {α : Type} [Arith α] {f : Forest α} {g : Graph α} {m : NodeMapping}
  {node : Nat → NodeId} {x : Matrix α} {tolerance : α}

/-- The columns of a feature that are compared. -/
def columnsAt (f : Forest α) (g : Graph α) (x : Matrix α) (node : Nat → NodeId) (i : Nat) :
    Comparison α :=
  ⟨node i, f.columnAt x i, g.table.columnAt x none (node i)⟩

/-- On a graph that a forest has been lowered to every feature is compared. -/
theorem compare_eq (h : Lowered f f.size g m node) (hf : f.Sound) (hx : f.rootCount ≤ x.nCols)
    {i : Nat} {feature : Feature α} (hi : i < f.size) :
    compare f (g.evaluate x none).2 m x i feature = .ok (some (columnsAt f g x node i)) := by
  have hcolumns : g.nextColumn ≤ x.nCols := h.nextColumn ▸ hx
  have hinside := h.inside i hi
  have hactive : (g.evaluate x none).2.isActive (node i) = true :=
    h.intact.isActive_evaluate (h.intact.evaluate_eq_ok hcolumns) hinside
  unfold compare
  simp only [h.bound i hi, hactive, Forest.evaluateAt_eq_ok hf hx hi,
    h.intact.vals?_evaluate hcolumns hinside]
  rfl

variable [LoweringLaws α]

/-- A feature agrees with its node, as long as no feature up to it takes the square root of a
negative argument in any row. -/
theorem discrepancy_columnsAt (h : Lowered f f.size g m node) (hf : f.Sound) {i : Nat}
    (hi : i < f.size) (hnone : ∀ j ≤ i, ∀ r : Fin x.nRows, ¬f.SqrtOfNegative (x.row r) j) :
    (columnsAt f g x node i).discrepancy = 0 := by
  have hcolumn : g.table.columnAt x none (node i) = f.columnAt x i := by
    refine List.ofFn_inj.2 (funext fun r => ?_)
    exact h.valueAt_eq hf (x.sample none r) hi fun j hj => hnone j hj r
  rw [Comparison.discrepancy, columnsAt, hcolumn]
  exact discrepancy_self _

/-- The first feature that does differs from its node. -/
theorem discrepancy_columnsAt_eq_inf (h : Lowered f f.size g m node) (hf : f.Sound) {i : Nat}
    (hi : i < f.size) (hfirst : ∀ j < i, ∀ r : Fin x.nRows, ¬f.SqrtOfNegative (x.row r) j)
    {r : Fin x.nRows} (hneg : f.SqrtOfNegative (x.row r) i) :
    (columnsAt f g x node i).discrepancy = Arith.inf := by
  obtain ⟨hsymbolic, hcompiled⟩ := h.isNaN_of_sqrtOfNegative hf (x.sample none r) hi
    (fun j hj => hfirst j hj r) hneg
  exact discrepancy_eq_inf r hsymbolic hcompiled

/-! ## The run -/

omit [LoweringLaws α]

/-- What is recorded when the first `k` features have been compared, if all of them agree. -/
def agreedBefore (f : Forest α) (k : Nat) : Agreement α where
  discrepancies := (f.entries.take k).map fun entry => (entry.2.expr, 0)

theorem discrepancies_agreedBefore_size (f : Forest α) :
    (agreedBefore f f.size).discrepancies =
      f.features.toList.map fun feature => (feature.expr, 0) := by
  have hall : f.entries.take f.size = f.entries := List.take_of_length_le (by simp)
  rw [agreedBefore, hall, ← Forest.map_snd_entries, List.map_map]
  rfl

/-- The check goes on after a feature that agrees. -/
theorem checkFrom_step {k : Nat} (hk : k < f.entries.length) {c : Comparison α}
    (hcompare : compare f g m x k (f.entries[k]).2 = .ok (some c)) (hagree : c.discrepancy = 0)
    (htolerance : Arith.lt tolerance 0 = false) :
    (checkFrom f g m x tolerance (f.entries.drop k) (agreedBefore f k)).outcome =
      (checkFrom f g m x tolerance (f.entries.drop (k + 1)) (agreedBefore f (k + 1))).outcome := by
  have hnext : agreedBefore f (k + 1) = { agreedBefore f k with
      discrepancies := (agreedBefore f k).discrepancies ++ [((f.entries[k]).2.expr, 0)] } := by
    simp only [agreedBefore, List.take_succ_eq_append_getElem hk, List.map_append, List.map_cons,
      List.map_nil]
  have hposition := (Forest.get?_of_getElem_entries hk).1
  rw [List.drop_eq_getElem_cons hk, checkFrom, hposition, hcompare, hnext]
  simp only [hagree, htolerance, Bool.false_eq_true, if_false]
  rfl

/-- The check goes on after features that agree. -/
theorem checkFrom_agreed {k : Nat} (hk : k ≤ f.entries.length)
    (hcompare : ∀ i < k, ∀ feature, ∃ c, compare f g m x i feature = .ok (some c) ∧
      c.discrepancy = 0)
    (htolerance : Arith.lt tolerance 0 = false) :
    (checkFrom f g m x tolerance f.entries {}).outcome =
      (checkFrom f g m x tolerance (f.entries.drop k) (agreedBefore f k)).outcome := by
  induction k with
  | zero => rfl
  | succ k ih =>
    obtain ⟨c, hc, hagree⟩ := hcompare k (by omega) (f.entries[k]).2
    rw [ih (by omega) fun i hi => hcompare i (by omega), checkFrom_step hk hc hagree htolerance]

/-- A check that succeeds has compared every feature whose node is active, and has found no
discrepancy above the tolerance. -/
theorem of_checkFrom_eq_ok {rest : List (Nat × Feature α)} {a a' : Agreement α}
    (hrun : (checkFrom f g m x tolerance rest a).outcome = .ok a') :
    ∀ entry ∈ rest, ∃ c?, compare f g m x entry.1 entry.2 = .ok c? ∧
      ∀ c ∈ c?, Arith.lt tolerance c.discrepancy = false := by
  induction rest generalizing a with
  | nil => simp
  | cons entry rest ih =>
    rw [checkFrom] at hrun
    rw [List.forall_mem_cons]
    cases hcompare : compare f g m x entry.1 entry.2 with
    | error fault =>
      rw [hcompare] at hrun
      cases hrun
    | ok c? =>
      rw [hcompare] at hrun
      cases c? with
      | none => exact ⟨⟨none, rfl, by simp⟩, ih hrun⟩
      | some c =>
        by_cases hlt : Arith.lt tolerance c.discrepancy = true
        · simp only [hlt, if_true] at hrun
          cases hrun
        · simp only [hlt] at hrun
          exact ⟨⟨some c, rfl, by simpa using hlt⟩, ih hrun⟩

/-! ## The check -/

/-- Once the graph has been evaluated, a check is a run over the features. -/
theorem outcome_check (hpass : (g.evaluate x none).1 = .ok ()) :
    (check f g m x tolerance).1.outcome =
      (checkFrom f (g.evaluate x none).2 m x tolerance f.entries {}).outcome := by
  rcases hrun : g.evaluate x none with ⟨result, g'⟩
  have hresult : result = .ok () := by rw [← hpass, hrun]
  rw [check, hrun, hresult]
  rfl

/-- A check that succeeds has evaluated the graph. -/
theorem evaluate_of_check_eq_ok {a : Agreement α}
    (hcheck : (check f g m x tolerance).1.outcome = .ok a) : (g.evaluate x none).1 = .ok () := by
  rcases hrun : g.evaluate x none with ⟨fault | ⟨⟩, g'⟩
  · rw [check, hrun] at hcheck
    cases fault <;> cases hcheck
  · rfl

/-- A check that succeeds has found a column for each root. -/
theorem rootCount_le_of_check_eq_ok (h : Lowered f f.size g m node) (hsize : 0 < f.size)
    {a : Agreement α} (hcheck : (check f g m x tolerance).1.outcome = .ok a) :
    f.rootCount ≤ x.nCols := by
  have hpass := evaluate_of_check_eq_ok hcheck
  have hentry : 0 < f.entries.length := by simpa using hsize
  rw [outcome_check hpass] at hcheck
  obtain ⟨c?, hcompare, _⟩ := of_checkFrom_eq_ok hcheck _ (List.getElem_mem hentry)
  have hactive := h.intact.isActive_evaluate hpass (h.inside 0 hsize)
  by_contra hx
  -- the evaluator of the first feature has asked for the columns
  have hrefused : f.evaluateAt 0 x = Outcome.fail (.columnMismatch f.rootCount x.nCols) := by
    rw [Forest.evaluateAt, if_neg (by omega), Forest.checkColumns,
      if_pos (by omega)]
    rfl
  rw [(Forest.get?_of_getElem_entries hentry).1, compare] at hcompare
  simp only [h.bound 0 hsize, hactive, hrefused] at hcompare
  cases hcompare

/-- A lowered forest passes the check if no column differs from its node's. -/
theorem check_eq_ok_of_agree (h : Lowered f f.size g m node) (hf : f.Sound)
    (hx : f.rootCount ≤ x.nCols) (htolerance : Arith.lt tolerance 0 = false)
    (hagree : ∀ i < f.size, (columnsAt f g x node i).discrepancy = 0) :
    (check f g m x tolerance).1.outcome = .ok (agreedBefore f f.size) := by
  have hlength := Forest.length_entries f
  rw [outcome_check (h.intact.evaluate_eq_ok (h.nextColumn ▸ hx)),
    checkFrom_agreed (k := f.size) (by omega) ?_ htolerance]
  · rw [List.drop_eq_nil_of_le (by omega)]
    rfl
  · exact fun i hi feature => ⟨_, compare_eq h hf hx hi, hagree i hi⟩

/-- It is refused at the first column that differs by more than the tolerance. -/
theorem check_eq_disagreement_of_lt (h : Lowered f f.size g m node) (hf : f.Sound)
    (hx : f.rootCount ≤ x.nCols) (htolerance : Arith.lt tolerance 0 = false) {i : Nat}
    {feature : Feature α} (hget : f.get? i = some feature)
    (hagree : ∀ j < i, (columnsAt f g x node j).discrepancy = 0)
    (habove : Arith.lt tolerance (columnsAt f g x node i).discrepancy = true) :
    (check f g m x tolerance).1.outcome =
      Outcome.fail (.disagreement feature.expr (columnsAt f g x node i).discrepancy) := by
  have hi : i < f.size := Forest.lt_size_of_get? hget
  have hentry : i < f.entries.length := by simpa using hi
  obtain ⟨hposition, hget'⟩ := Forest.get?_of_getElem_entries hentry
  have hfeature : (f.entries[i]).2 = feature := Option.some.inj (hget'.symm.trans hget)
  rw [outcome_check (h.intact.evaluate_eq_ok (h.nextColumn ▸ hx)),
    checkFrom_agreed (k := i) (by omega) ?_ htolerance]
  · rw [List.drop_eq_getElem_cons hentry, checkFrom, hposition, compare_eq h hf hx hi, hfeature]
    simp only [habove, if_true]
    rfl
  · exact fun j hj feature => ⟨_, compare_eq h hf hx (by omega), hagree j hj⟩

/-- A check that succeeds has found no column that differs by more than the tolerance. -/
theorem not_lt_of_check_eq_ok (h : Lowered f f.size g m node) (hf : f.Sound)
    (hx : f.rootCount ≤ x.nCols) {a : Agreement α}
    (hcheck : (check f g m x tolerance).1.outcome = .ok a) {i : Nat} (hi : i < f.size) :
    Arith.lt tolerance (columnsAt f g x node i).discrepancy = false := by
  have hentry : i < f.entries.length := by simpa using hi
  rw [outcome_check (h.intact.evaluate_eq_ok (h.nextColumn ▸ hx))] at hcheck
  obtain ⟨c?, hcompare, hbelow⟩ := of_checkFrom_eq_ok hcheck _ (List.getElem_mem hentry)
  rw [(Forest.get?_of_getElem_entries hentry).1, compare_eq h hf hx hi,
    Outcome.ok_eq_iff] at hcompare
  exact hbelow _ hcompare

/-- If the columns agree up to the first feature of some kind, and differ by infinity there, then
the check finds out whether there is one. -/
theorem check_finds_out (h : Lowered f f.size g m node) (hf : f.Sound) (hx : f.rootCount ≤ x.nCols)
    (htolerance : Arith.lt tolerance 0 = false) (hinf : Arith.lt tolerance Arith.inf = true)
    (Differs : Nat → Prop) (hinside : ∀ i, Differs i → i < f.size)
    (hagree : ∀ i < f.size, (∀ j ≤ i, ¬Differs j) → (columnsAt f g x node i).discrepancy = 0)
    (hdiffer : ∀ i, Differs i → (∀ j < i, ¬Differs j) →
      (columnsAt f g x node i).discrepancy = Arith.inf) :
    ((∃ a, (check f g m x tolerance).1.outcome = .ok a) ↔ ∀ i, ¬Differs i) ∧
      (∀ a, (check f g m x tolerance).1.outcome = .ok a →
        a.discrepancies = f.features.toList.map (fun feature => (feature.expr, 0)) ∧
          a.skipped = 0) ∧
      ∀ i feature, f.get? i = some feature → Differs i → (∀ j < i, ¬Differs j) →
        (check f g m x tolerance).1.outcome =
          Outcome.fail (.disagreement feature.expr Arith.inf) := by
  have hpass : (∀ i, ¬Differs i) →
      (check f g m x tolerance).1.outcome = .ok (agreedBefore f f.size) :=
    fun hnone => check_eq_ok_of_agree h hf hx htolerance fun i hi =>
      hagree i hi fun j _ => hnone j
  have hrefute : ∀ a, (check f g m x tolerance).1.outcome = .ok a → ∀ i, ¬Differs i := by
    intro a hcheck i
    induction i using Nat.strong_induction_on with
    | _ i ih =>
      intro hi
      have hbelow := not_lt_of_check_eq_ok h hf hx hcheck (hinside i hi)
      rw [hdiffer i hi ih, hinf] at hbelow
      cases hbelow
  refine ⟨⟨fun ⟨a, hcheck⟩ => hrefute a hcheck, fun hnone => ⟨_, hpass hnone⟩⟩, ?_, ?_⟩
  · intro a hcheck
    rw [hpass (hrefute a hcheck), Outcome.ok_eq_iff] at hcheck
    rw [hcheck]
    exact ⟨discrepancies_agreedBefore_size f, rfl⟩
  · intro i feature hget hi hfirst
    have hdifference := hdiffer i hi hfirst
    have hbefore : ∀ j < i, (columnsAt f g x node j).discrepancy = 0 := fun j hj =>
      hagree j (Nat.lt_trans hj (hinside i hi)) fun p hp => hfirst p (by omega)
    rw [check_eq_disagreement_of_lt h hf hx htolerance hget hbefore (by rw [hdifference, hinf]),
      hdifference]

variable [LoweringLaws α]

/-- A lowered forest passes the check if no feature takes the square root of a negative
argument. -/
theorem check_eq_ok (h : Lowered f f.size g m node) (hf : f.Sound) (hx : f.rootCount ≤ x.nCols)
    (htolerance : Arith.lt tolerance 0 = false)
    (hnone : ∀ i, ∀ r : Fin x.nRows, ¬f.SqrtOfNegative (x.row r) i) :
    (check f g m x tolerance).1.outcome = .ok (agreedBefore f f.size) :=
  check_eq_ok_of_agree h hf hx htolerance fun _ hi =>
    discrepancy_columnsAt h hf hi fun j _ r => hnone j r

/-- It is refused at the first feature that does. -/
theorem check_eq_disagreement (h : Lowered f f.size g m node) (hf : f.Sound)
    (hx : f.rootCount ≤ x.nCols) (hfinite : Arith.isFinite tolerance = true)
    (htolerance : Arith.lt tolerance 0 = false) {i : Nat} {feature : Feature α}
    (hget : f.get? i = some feature)
    (hfirst : ∀ j < i, ∀ r : Fin x.nRows, ¬f.SqrtOfNegative (x.row r) j)
    {r : Fin x.nRows} (hneg : f.SqrtOfNegative (x.row r) i) :
    (check f g m x tolerance).1.outcome =
      Outcome.fail (.disagreement feature.expr Arith.inf) := by
  have hi : i < f.size := Forest.lt_size_of_get? hget
  have hdiscrepancy : (columnsAt f g x node i).discrepancy = Arith.inf :=
    discrepancy_columnsAt_eq_inf h hf hi hfirst hneg
  have hbefore : ∀ j < i, (columnsAt f g x node j).discrepancy = 0 := fun j hj =>
    discrepancy_columnsAt h hf (by omega) fun p hp r => hfirst p (by omega) r
  rw [check_eq_disagreement_of_lt h hf hx htolerance hget hbefore
    (by rw [hdiscrepancy, SpecialValues.lt_inf tolerance hfinite]), hdiscrepancy]

/-- With a finite tolerance, a check that succeeds rules out square roots of negative
arguments. -/
theorem not_sqrtOfNegative_of_check_eq_ok (h : Lowered f f.size g m node) (hf : f.Sound)
    (hx : f.rootCount ≤ x.nCols) (hfinite : Arith.isFinite tolerance = true) {a : Agreement α}
    (hcheck : (check f g m x tolerance).1.outcome = .ok a) (i : Nat) (r : Fin x.nRows) :
    ¬f.SqrtOfNegative (x.row r) i := by
  induction i using Nat.strong_induction_on generalizing r with
  | _ i ih =>
    intro hneg
    have hi : i < f.size := by
      obtain ⟨_, hget, _⟩ := hneg
      exact Forest.lt_size_of_get? hget
    have hlt := not_lt_of_check_eq_ok h hf hx hcheck hi
    rw [discrepancy_columnsAt_eq_inf h hf hi (fun j hj => ih j hj) hneg,
      SpecialValues.lt_inf tolerance hfinite] at hlt
    cases hlt

end Agreement

/-! ## Forests -/

namespace Forest

section Columns

variable {α : Type} [Arith α] {f : Forest α} {x : Matrix α}

/-- The feature at a position is a square root, and the column of its argument, among the
given ones, has a negative entry. -/
def NegativeRadicand (f : Forest α) (columns : List (List α)) (i : Nat) : Prop :=
  ∃ feature, f.get? i = some feature ∧ feature.op = .sqrt ∧
    ∃ p ∈ feature.parents, ∃ column, columns[p]? = some column ∧
      ∃ v ∈ column, Arith.lt v 0 = true

theorem getElem?_columnsOf {i : Nat} (hi : i < f.size) :
    (f.columnsOf x)[i]? = some (f.columnAt x i) := by
  simp [columnsOf, hi]

theorem negativeRadicand_iff (hf : f.Sound) {i : Nat} :
    f.NegativeRadicand (f.columnsOf x) i ↔ ∃ r : Fin x.nRows, f.SqrtOfNegative (x.row r) i := by
  constructor
  · rintro ⟨feature, hget, hop, p, hp, column, hcolumn, v, hv, hlt⟩
    have hpi : p < i := hf.earlier i feature hget p hp
    have hi : i < f.size := lt_size_of_get? hget
    rw [getElem?_columnsOf (by omega), Option.some.injEq] at hcolumn
    rw [← hcolumn, columnAt, List.mem_ofFn] at hv
    obtain ⟨r, rfl⟩ := hv
    exact ⟨r, feature, hget, hop, _, List.mem_map_of_mem hp, hlt⟩
  · rintro ⟨r, feature, hget, hop, v, hv, hlt⟩
    obtain ⟨p, hp, rfl⟩ := List.mem_map.1 hv
    have hpi : p < i := hf.earlier i feature hget p hp
    have hi : i < f.size := lt_size_of_get? hget
    exact ⟨feature, hget, hop, p, hp, _, getElem?_columnsOf (by omega), _,
      List.mem_ofFn.2 ⟨r, rfl⟩, hlt⟩

end Columns

variable {α : Type} [Arith α] [LoweringLaws α] {f : Forest α} {x : Matrix α}

/-- A forest and the graph it is lowered to agree exactly where no square root has a
negative argument, and the check finds out.  Lowering cannot fail, and the graph can be
evaluated on rows with a column for each root.  If no radicand is negative, then the node of
each feature has the feature's column, and the check passes every feature with discrepancy
zero.  Otherwise it is refused at the first square root of a negative argument. -/
theorem lower_agrees (hf : f.Built) (hx : f.rootCount ≤ x.nCols) :
    ∃ g m columns, f.lower.outcome = .ok (g, m) ∧ f.evaluate x = .ok columns ∧
      (g.evaluate x none).1 = .ok () ∧
      ((∀ i, ¬f.NegativeRadicand columns i) → ∀ i < f.size, ∃ node column,
        m.getIndex? i = some node ∧ columns[i]? = some column ∧
          (g.evaluate x none).2.vals? node = some column) ∧
      ∀ tolerance, Arith.isFinite tolerance = true → Arith.le 0 tolerance = true →
        ((∃ a, (Agreement.check f g m x tolerance).1.outcome = .ok a) ↔
          ∀ i, ¬f.NegativeRadicand columns i) ∧
        (∀ a, (Agreement.check f g m x tolerance).1.outcome = .ok a →
          a.discrepancies = f.features.toList.map (fun feature => (feature.expr, 0)) ∧
            a.skipped = 0) ∧
        ∀ i feature, f.get? i = some feature → f.NegativeRadicand columns i →
          (∀ j < i, ¬f.NegativeRadicand columns j) →
          (Agreement.check f g m x tolerance).1.outcome =
            Outcome.fail (.disagreement feature.expr Arith.inf) := by
  have hsound := hf.sound
  obtain ⟨g, m, node, hlower, h⟩ := hsound.exists_lower
  have hcolumns : g.nextColumn ≤ x.nCols := h.nextColumn ▸ hx
  -- a negative radicand stands in some row
  have hrows : ∀ i, ¬f.NegativeRadicand (f.columnsOf x) i ↔
      ∀ r : Fin x.nRows, ¬f.SqrtOfNegative (x.row r) i := by
    intro i
    rw [negativeRadicand_iff hsound, not_exists]
  refine ⟨g, m, f.columnsOf x, hlower, (evaluate_eq_ok_iff hsound).2 ⟨hx, rfl⟩,
    h.intact.evaluate_eq_ok hcolumns, ?_, ?_⟩
  · intro hnone i hi
    refine ⟨node i, f.columnAt x i, h.bound i hi, getElem?_columnsOf hi, ?_⟩
    rw [h.intact.vals?_evaluate hcolumns (h.inside i hi), Option.some.injEq]
    refine List.ofFn_inj.2 (funext fun r => ?_)
    exact h.valueAt_eq hsound (x.sample none r) hi fun j _ => (hrows j).1 (hnone j) r
  · intro tolerance hfinite hnonneg
    have htolerance := SpecialValues.lt_of_le 0 tolerance hnonneg
    have hpass : (∀ i, ¬f.NegativeRadicand (f.columnsOf x) i) →
        (Agreement.check f g m x tolerance).1.outcome =
          .ok (Agreement.agreedBefore f f.size) :=
      fun hnone => Agreement.check_eq_ok h hsound hx htolerance fun i => (hrows i).1 (hnone i)
    have hrefute : ∀ a, (Agreement.check f g m x tolerance).1.outcome = .ok a →
        ∀ i, ¬f.NegativeRadicand (f.columnsOf x) i :=
      fun a ha i => (hrows i).2
        (Agreement.not_sqrtOfNegative_of_check_eq_ok h hsound hx hfinite ha i)
    refine ⟨⟨fun ⟨a, ha⟩ => hrefute a ha, fun hnone => ⟨_, hpass hnone⟩⟩, ?_, ?_⟩
    · intro a ha
      rw [hpass (hrefute a ha), Outcome.ok_eq_iff] at ha
      rw [ha]
      exact ⟨Agreement.discrepancies_agreedBefore_size f, rfl⟩
    · intro i feature hget hneg hfirst
      obtain ⟨r, hrow⟩ := (negativeRadicand_iff hsound).1 hneg
      exact Agreement.check_eq_disagreement h hsound hx hfinite htolerance hget
        (fun j hj => (hrows j).1 (hfirst j hj)) hrow

section Example

variable {α : Type} [Arith α]

/-- A column and its square root. -/
def columnAndRoot : Forest α :=
  let f : Forest α := Forest.empty.push ⟨"a", .identity, [], true, 1, 1, 0, 0⟩
  (f.push ⟨"sqrt(a)", .sqrt, [0], false, 1, 1, 0, 0⟩).withScores 1 1 1

theorem built_columnAndRoot : (columnAndRoot : Forest α).Built := by
  have hcolumn : (Forest.empty.push (⟨"a", .identity, [], true, 1, 1, 0, 0⟩ : Feature α)).Built :=
    Built.empty.pushRoot (by simp [Forest.empty])
  refine (hcolumn.pushOperator ?_ ⟨by decide, rfl⟩ ?_).withScores ?_ 1 1
  · simp [Forest.push, Forest.empty]
  · simp [Forest.push, Forest.empty, size]
  · simp [Forest.push, Forest.empty, size]

theorem sqrtOfNegative_columnAndRoot {raw : List α} {i : Nat} :
    (columnAndRoot : Forest α).SqrtOfNegative raw i ↔
      i = 1 ∧ Arith.lt (1 * 1 * raw.getD 0 0) 0 = true := by
  have hvalue : (columnAndRoot : Forest α).valueAt raw 0 = 1 * 1 * raw.getD 0 0 := by
    rw [valueAt_root rfl rfl]
    rfl
  rw [← hvalue]
  constructor
  · rintro ⟨feature, hget, hop, v, hv, hlt⟩
    rcases i with _ | _ | i
    · rw [← Option.some.inj hget] at hop
      cases hop
    · rw [← Option.some.inj hget] at hv
      rw [List.mem_singleton.1 hv] at hlt
      exact ⟨rfl, hlt⟩
    · cases hget
  · rintro ⟨rfl, hlt⟩
    exact ⟨_, rfl, rfl, _, List.mem_singleton.2 rfl, hlt⟩

end Example

/-- Over a row with a negative entry the square root is refused. -/
theorem lower_agrees_columnAndRoot :
    (columnAndRoot : Forest ExtendedReal).Built ∧
      (columnAndRoot : Forest ExtendedReal).rootCount ≤ 1 ∧
      ∃ g m, (columnAndRoot : Forest ExtendedReal).lower.outcome = .ok (g, m) ∧
        (Agreement.check columnAndRoot g m (.ofFn 1 1 fun _ _ => -1) 0).1.outcome =
          Outcome.fail (.disagreement "sqrt(a)" Arith.inf) := by
  have hbuilt : (columnAndRoot : Forest ExtendedReal).Built := built_columnAndRoot
  have hx : (columnAndRoot : Forest ExtendedReal).rootCount ≤ 1 := by decide
  obtain ⟨g, m, columns, hlower, hcolumns, _, _, hcheck⟩ :=
    lower_agrees hbuilt (x := .ofFn 1 1 fun _ _ => -1) hx
  refine ⟨hbuilt, hx, g, m, hlower, ?_⟩
  obtain ⟨_, rfl⟩ := (evaluate_eq_ok_iff hbuilt.sound).1 hcolumns
  have hfinite : Arith.isFinite (0 : ExtendedReal) = true := SpecialValues.isFinite_zero
  have hnonneg : Arith.le (0 : ExtendedReal) 0 = true := by
    show (decide ((0 : ℝ) < 0) || decide ((0 : ℝ) = 0)) = true
    simp
  refine (hcheck 0 hfinite hnonneg).2.2 1 _ rfl ?_ ?_
  · refine (negativeRadicand_iff hbuilt.sound).2
      ⟨⟨0, by decide⟩, sqrtOfNegative_columnAndRoot.2 ⟨rfl, ?_⟩⟩
    show decide ((1 : ℝ) * 1 * -1 < 0) = true
    norm_num
  · intro j hj hneg
    obtain ⟨_, hrow⟩ := (negativeRadicand_iff hbuilt.sound).1 hneg
    have hposition := (sqrtOfNegative_columnAndRoot.1 hrow).1
    omega

end Forest

end FeatureGraph
