import FeatureGraph.Proofs.Column
import FeatureGraph.Proofs.Forest
import FeatureGraph.Forest.Columns

/-!
# Values of symbolic features, row by row

`Forest.valueAt` is the value of a feature in one row, by recursion on the features that
it is built from.  Both evaluators of a forest compute it.

* `evaluate_eq_ok_iff` is the evaluator of all features: it asks for a column for each
  root, and for nothing else.
* `closure_spec` says what the evaluator of one feature visits, `foldlM_enterColumn` is a visit of
  any such list, and `evaluateAt_eq_ok` says what it answers.
-/

namespace FeatureGraph

/-- An operator as a function of its arguments. -/
def Operator.value {α : Type} [Arith α] : Operator → List α → α
  | exp, [a] => Arith.exp a
  | log, [a] => Arith.log a
  | abs, [a] => Arith.abs a
  | sqrt, [a] => Arith.sqrt a
  | reciprocal, [a] => 1 / a
  | square, [a] => a * a
  | add, [a, b] => a + b
  | subtract, [a, b] => a - b
  | divide, [a, b] => a / b
  | multiply, [a, b] => a * b
  | _, _ => Arith.nan

theorem Operator.apply_eq {ε α : Type} [Arith α] {op : Operator} {args : List α}
    (hop : op ≠ .identity) (hargs : args.length = op.arity) :
    (op.apply args : Outcome ε α) = .ok (op.value args) := by
  have hone : args.length = 1 → ∃ a, args = [a] := List.length_eq_one_iff.1
  have htwo : args.length = 2 → ∃ a b, args = [a, b] := List.length_eq_two.1
  cases op with
  | identity => exact absurd rfl hop
  | exp | log | abs | sqrt | reciprocal | square =>
    obtain ⟨a, rfl⟩ := hone hargs
    rfl
  | add | subtract | divide | multiply =>
    obtain ⟨a, b, rfl⟩ := htwo hargs
    rfl

/-- A proper operator takes one argument or two. -/
theorem Operator.exists_args {β : Type} {op : Operator} {args : List β} (hop : op ≠ .identity)
    (hargs : args.length = op.arity) : (∃ a, args = [a]) ∨ ∃ a b, args = [a, b] := by
  cases op with
  | identity => exact absurd rfl hop
  | exp | log | abs | sqrt | reciprocal | square => exact .inl (List.length_eq_one_iff.1 hargs)
  | add | subtract | divide | multiply => exact .inr (List.length_eq_two.1 hargs)

namespace Forest

variable {α : Type} [Arith α] {f : Forest α} {x : Matrix α}

/-- The value of a feature in one row.  A parent that does not stand before its child
counts as zero; sound forests have none. -/
def valueAt (f : Forest α) (raw : List α) (i : Nat) : α :=
  match f.get? i with
  | none => 0
  | some feature =>
    if feature.isRoot then feature.scale * raw.getD (f.rootsBefore i) 0
    else feature.op.value (feature.parents.map fun p => if p < i then f.valueAt raw p else 0)
termination_by i

/-- The column of a feature: its value in every row. -/
def columnAt (f : Forest α) (x : Matrix α) (i : Nat) : List α :=
  List.ofFn fun r => f.valueAt (x.row r) i

theorem valueAt_root {i : Nat} {feature : Feature α} (hi : f.get? i = some feature)
    (hroot : feature.isRoot = true) (raw : List α) :
    f.valueAt raw i = feature.scale * raw.getD (f.rootsBefore i) 0 := by
  rw [valueAt, hi]
  exact if_pos hroot

theorem Sound.valueAt_operator (hf : f.Sound) {i : Nat} {feature : Feature α}
    (hi : f.get? i = some feature) (hroot : feature.isRoot = false) (raw : List α) :
    f.valueAt raw i = feature.op.value (feature.parents.map (f.valueAt raw)) := by
  have hparents : (feature.parents.map fun p => if p < i then f.valueAt raw p else 0) =
      feature.parents.map (f.valueAt raw) :=
    List.map_congr_left fun p hp => if_pos (hf.earlier i feature hi p hp)
  rw [valueAt, hi]
  simp only [hroot, Bool.false_eq_true, if_false, hparents]

/-! ## One column -/

omit [Arith α] in
/-- A root reads one of the first columns. -/
theorem rootsBefore_lt_rootCount {i : Nat} {feature : Feature α} (hi : f.get? i = some feature)
    (hroot : feature.isRoot = true) : f.rootsBefore i < f.rootCount := by
  have hlt := lt_size_of_get? hi
  calc f.rootsBefore i < f.rootsBefore (i + 1) := by
        rw [rootsBefore_succ hi, if_pos hroot]
        omega
    _ ≤ f.rootCount := (List.take_sublist_take_left hlt).countP_le

/-- The column of a feature, from the columns of the features that it is built from. -/
theorem column_eq (hf : f.Sound) (hx : f.rootCount ≤ x.nCols) {i : Nat} {feature : Feature α}
    (hi : f.get? i = some feature) {lookup : Nat → Outcome ForestError (List α)}
    (hlookup : ∀ p ∈ feature.parents, lookup p = .ok (f.columnAt x p)) :
    f.column x lookup i feature = .ok (f.columnAt x i) := by
  unfold column
  cases hroot : feature.isRoot with
  | true =>
    have hcolumn : f.rootsBefore i < x.nCols :=
      Nat.lt_of_lt_of_le (rootsBefore_lt_rootCount hi hroot) hx
    simp [rootColumn?, hi, hroot, Matrix.column?, hcolumn, Outcome.ofOption, columnAt,
      valueAt_root hi hroot, Matrix.row, Function.comp_def]
  | false =>
    obtain ⟨hop, harity⟩ := hf.operator i feature hi hroot
    have hvalue := fun raw => hf.valueAt_operator hi hroot raw
    have happly : ∀ args : List α, args.length = feature.op.arity →
        (feature.op.apply args : Outcome ForestError α) = .ok (feature.op.value args) :=
      fun args hargs => Operator.apply_eq hop hargs
    simp only [Bool.false_eq_true, if_false]
    rcases Operator.exists_args hop harity with ⟨p, hps⟩ | ⟨p, q, hps⟩
    · rw [hps] at harity hlookup
      simp only [hps, hlookup p (by simp), Outcome.ok_bind]
      rw [Outcome.mapM_ok fun v _ => happly [v] harity]
      simp [columnAt, hvalue, hps, Function.comp_def]
    · rw [hps] at harity hlookup
      simp only [hps, hlookup p (by simp), hlookup q (by simp), Outcome.ok_bind]
      rw [Outcome.mapM_ok fun v _ => happly [v.1, v.2] harity]
      simp [columnAt, hvalue, hps, List.zip, Column.zipWith_ofFn, Function.comp_def]

/-! ## All columns -/

/-- The columns of all features. -/
def columnsOf (f : Forest α) (x : Matrix α) : List (List α) :=
  (List.range f.size).map (f.columnAt x)

theorem evaluate_eq_ok_iff (hf : f.Sound) {columns : List (List α)} :
    f.evaluate x = .ok columns ↔ f.rootCount ≤ x.nCols ∧ columns = f.columnsOf x := by
  unfold evaluate checkColumns
  by_cases hx : x.nCols < f.rootCount
  · simp [hx, Outcome.fail, Nat.not_le.2 hx]
  · have hcols : f.rootCount ≤ x.nCols := by omega
    have hrun : f.entries.foldlM (f.pushColumn x) #[] =
        .ok ((List.range f.entries.length).map (f.columnAt x)).toArray := by
      refine Outcome.foldlM_eq_ok (fun k => ((List.range k).map (f.columnAt x)).toArray)
        fun k hk => ?_
      obtain ⟨hposition, hget⟩ := get?_of_getElem_entries hk
      have hparents : ∀ p ∈ (f.entries[k]).2.parents,
          (Outcome.fetch ((List.range k).map (f.columnAt x)).toArray p :
            Outcome ForestError (List α)) = .ok (f.columnAt x p) := by
        intro p hp
        have hpk : p < k := hf.earlier k _ hget p hp
        rw [Outcome.fetch_eq_ok]
        simp [hpk]
      rw [pushColumn, hposition, column_eq hf hcols hget hparents, Outcome.ok_bind,
        Outcome.pure_eq_ok, List.range_succ, List.map_append]
      simp
    rw [if_neg hx, Outcome.ok_bind, hrun, Outcome.ok_bind, Outcome.pure_eq_ok, length_entries,
      Outcome.ok_eq_iff]
    simp [columnsOf, hcols]

/-! ## The column of one feature -/

omit [Arith α] in
theorem Sound.lt_of_mem_parents (hf : f.Sound) {i p : Nat} (hp : p ∈ f.parents i) : p < i := by
  unfold Forest.parents at hp
  split at hp
  · rename_i feature hi
    exact hf.earlier i feature hi p hp
  · simp at hp

omit [Arith α] in
/-- What a walk from position `n` down collects, in front of what had been found: positions
in ascending order, among them the wanted ones, and with each position its parents. -/
theorem exists_collectWanted (hf : f.Sound) (n : Nat) (wanted found : List Nat) :
    ∃ before, f.collectWanted n wanted found = before ++ found ∧ before.Pairwise (· < ·) ∧
      (∀ i ∈ before, i < n) ∧ (∀ i ∈ wanted, i < n → i ∈ before) ∧
      ∀ i ∈ before, ∀ p ∈ f.parents i, p ∈ before := by
  induction n generalizing wanted found with
  | zero => exact ⟨[], rfl, by simp, by simp, by simp, by simp⟩
  | succ n ih =>
    rw [collectWanted]
    by_cases hn : n ∈ wanted
    · obtain ⟨before, heq, hsorted, hlt, hwanted, hclosed⟩ :=
        ih (f.parents n ++ wanted) (n :: found)
      refine ⟨before ++ [n], by simp [hn, heq], ?_, ?_, ?_, ?_⟩
      · rw [List.pairwise_append]
        exact ⟨hsorted, by simp, fun a ha b hb => List.mem_singleton.1 hb ▸ hlt a ha⟩
      · intro i hi
        rcases List.mem_append.1 hi with hi | hi
        · exact Nat.lt_succ_of_lt (hlt i hi)
        · exact List.mem_singleton.1 hi ▸ Nat.lt_succ_self n
      · intro i hi hin
        rcases Nat.lt_succ_iff_lt_or_eq.1 hin with hin | rfl
        · exact List.mem_append_left _ (hwanted i (List.mem_append_right _ hi) hin)
        · simp
      · intro i hi p hp
        rcases List.mem_append.1 hi with hi | hi
        · exact List.mem_append_left _ (hclosed i hi p hp)
        · rw [List.mem_singleton.1 hi] at hp
          exact List.mem_append_left _
            (hwanted p (List.mem_append_left _ hp) (hf.lt_of_mem_parents hp))
    · obtain ⟨before, heq, hsorted, hlt, hwanted, hclosed⟩ := ih wanted found
      refine ⟨before, by simp [hn, heq], hsorted, fun i hi => Nat.lt_succ_of_lt (hlt i hi),
        fun i hi hin => ?_, hclosed⟩
      rcases Nat.lt_succ_iff_lt_or_eq.1 hin with hin | rfl
      · exact hwanted i hi hin
      · exact absurd hi hn

omit [Arith α] in
/-- A closure holds the feature and with each feature its parents, in ascending order. -/
theorem closure_spec (hf : f.Sound) (i : Nat) :
    (f.closure i).Pairwise (· < ·) ∧ (∀ q ∈ f.closure i, q ≤ i) ∧ i ∈ f.closure i ∧
      ∀ q ∈ f.closure i, ∀ p ∈ f.parents q, p ∈ f.closure i := by
  obtain ⟨before, heq, hsorted, hlt, hwanted, hclosed⟩ := exists_collectWanted hf (i + 1) [i] []
  rw [closure, heq, List.append_nil]
  exact ⟨hsorted, fun q hq => Nat.le_of_lt_succ (hlt q hq),
    hwanted i (by simp) (by omega), hclosed⟩

omit [Arith α] in
theorem lookup_map_mem {β : Type} {l : List Nat} (g : Nat → β) {i : Nat} (hi : i ∈ l) :
    (l.map fun j => (j, g j)).lookup i = some (g i) := by
  induction l with
  | nil => simp at hi
  | cons j l ih =>
    rw [List.map_cons, List.lookup_cons]
    by_cases hij : i = j
    · simp [hij]
    · have hne : (i == j) = false := by simpa using hij
      rw [hne]
      exact ih (by simpa [hij] using hi)

omit [Arith α] in
/-- In an ascending list the smaller entries come first. -/
theorem mem_take_of_lt {l : List Nat} (hsorted : l.Pairwise (· < ·)) {k p : Nat}
    (hk : k < l.length) (hp : p ∈ l) (hlt : p < l[k]) : p ∈ l.take k := by
  obtain ⟨m, hm, rfl⟩ := List.getElem_of_mem hp
  have hmk : m < k := by
    by_contra hge
    rcases Nat.lt_or_eq_of_le (Nat.le_of_not_lt hge) with hkm | rfl
    · have hgt := List.pairwise_iff_getElem.1 hsorted k m hk hm hkm
      omega
    · exact absurd hlt (Nat.lt_irrefl _)
  exact List.mem_take_iff_getElem.2 ⟨m, by omega, rfl⟩

/-- Evaluating a list of features in their order, with each feature its parents, enters their
columns, the last one first. -/
theorem foldlM_enterColumn (hf : f.Sound) (hx : f.rootCount ≤ x.nCols) {l : List Nat}
    (hsorted : l.Pairwise (· < ·)) (hinside : ∀ q ∈ l, q < f.size)
    (hclosed : ∀ q ∈ l, ∀ p ∈ f.parents q, p ∈ l) :
    l.foldlM (f.enterColumn x) [] = .ok (l.reverse.map fun j => (j, f.columnAt x j)) := by
  let entered (k : Nat) : List (Nat × List α) :=
    (l.take k).reverse.map fun j => (j, f.columnAt x j)
  have hrun : l.foldlM (f.enterColumn x) [] = .ok (entered l.length) := by
    refine Outcome.foldlM_eq_ok entered fun k hk => ?_
    have hmem : l[k] ∈ l := List.getElem_mem hk
    obtain ⟨feature, hget⟩ : ∃ feature, f.get? l[k] = some feature :=
      ⟨_, Array.getElem?_eq_getElem (hinside _ hmem)⟩
    have hparents : ∀ p ∈ feature.parents,
        (Outcome.ofOption ((entered k).lookup p) : Outcome ForestError (List α)) =
          .ok (f.columnAt x p) := by
      intro p hp
      have hpk : p < l[k] := hf.earlier _ _ hget p hp
      have hpc : p ∈ l := hclosed _ hmem p (by simpa [Forest.parents, hget] using hp)
      rw [Outcome.ofOption_eq_ok]
      exact lookup_map_mem _ (List.mem_reverse.2 (mem_take_of_lt hsorted hk hpc hpk))
    rw [enterColumn, Outcome.ofOption_eq_ok.2 hget, Outcome.ok_bind,
      column_eq hf hx hget hparents, Outcome.ok_bind, Outcome.pure_eq_ok, Except.ok.injEq]
    simp only [entered]
    rw [List.take_succ_eq_append_getElem hk, List.reverse_append]
    rfl
  simp only [hrun, entered, List.take_length]

/-- The evaluator of one feature computes its column. -/
theorem evaluateAt_eq_ok (hf : f.Sound) (hx : f.rootCount ≤ x.nCols) {i : Nat} (hi : i < f.size) :
    f.evaluateAt i x = .ok (f.columnAt x i) := by
  obtain ⟨hsorted, hle, hself, hclosed⟩ := closure_spec hf i
  have hrun := foldlM_enterColumn hf hx hsorted
    (fun q hq => Nat.lt_of_le_of_lt (hle q hq) hi) hclosed
  rw [evaluateAt, if_neg (by omega), checkColumns, if_neg (by omega),
    Outcome.ok_bind, hrun, Outcome.ok_bind, lookup_map_mem _ (List.mem_reverse.2 hself)]
  rfl

end Forest

end FeatureGraph
