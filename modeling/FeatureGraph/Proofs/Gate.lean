import FeatureGraph.Proofs.Agreement
import FeatureGraph.Proofs.Edit

/-!
# The check as a gate

What the check of a graph against its forest has seen when it answers, and when it refuses, for any
forest, any graph and any mapping.

* `isNaN_discrepancy` says that a discrepancy is a number, so that no comparison with it passes for
  want of one.
* `Passes` is a run over features none of which is refused.  `checkFrom_eq_ok_iff` and
  `of_checkFrom_eq_disagreement` say that a check is such a run, up to its end or up to the first
  feature above the tolerance.
* `exists_check_eq_ok_iff` says when a check answers, `recorded_of_check_eq_ok` what it has recorded
  then, and `first_of_check_eq_disagreement` what it refuses.  `check_gate` puts them together.
-/

namespace FeatureGraph

namespace Arith

variable {α : Type} [Arith α]

theorem max_eq_or (a b : α) : max a b = a ∨ max a b = b := by
  unfold max
  split_ifs <;> simp

theorem le_self {a : α} (ha : isNaN a = false) : le a a = true := by
  rw [le, SpecialValues.eqv_self ha, Bool.or_true]

variable [ComparisonLaws α]

theorem isNaN_zero : isNaN (0 : α) = false :=
  SpecialValues.isNaN_of_isFinite SpecialValues.isFinite_zero

theorem isNaN_one : isNaN (1 : α) = false :=
  ComparisonLaws.isNaN_right_of_le 0 1 ComparisonLaws.zero_le_one

/-- The larger of two numbers is at least as large as each of them. -/
theorem le_max {a b : α} (ha : isNaN a = false) (hb : isNaN b = false) :
    le a (max a b) = true ∧ le b (max a b) = true := by
  rw [max, ha, hb]
  cases hlt : lt a b with
  | true => exact ⟨by simp [le, hlt], by simpa using le_self hb⟩
  | false =>
    have hle : le b a = true := ComparisonLaws.le_of_not_lt a b ha hb hlt
    exact ⟨by simpa using le_self ha, by simpa using hle⟩

/-- The larger of anything and one is not negative. -/
theorem zero_le_max_one (a : α) : le 0 (max a 1) = true := by
  cases ha : isNaN a with
  | true =>
    rw [max, ha]
    exact ComparisonLaws.zero_le_one
  | false =>
    exact ComparisonLaws.le_trans 0 1 _ ComparisonLaws.zero_le_one (le_max ha isNaN_one).2

end Arith

namespace Agreement

variable {α : Type} [Arith α]

/-! ## Discrepancies are numbers -/

section Discrepancies

/-- The largest difference stays finite. -/
theorem Spread.isFinite_row? {w w' : Spread α} {row : α × α}
    (hw : Arith.isFinite w.difference = true) (hrow : w.row? row = some w') :
    Arith.isFinite w'.difference = true := by
  rw [row?] at hrow
  dsimp only at hrow
  split at hrow
  · obtain rfl := Option.some.inj hrow
    simpa using hw
  · split at hrow
    · rename_i hfinite
      obtain rfl := Option.some.inj hrow
      change Arith.isFinite
        (Arith.max (w.widen row.1).difference (Arith.abs (row.1 - row.2))) = true
      rcases Arith.max_eq_or (w.widen row.1).difference (Arith.abs (row.1 - row.2)) with h | h
      · rw [h, difference_widen, hw]
      · rw [h, hfinite]
    · cases hrow

variable [ComparisonLaws α]

theorem Spread.isNaN_normalized {w : Spread α} (hw : Arith.isFinite w.difference = true) :
    Arith.isNaN w.normalized = false := by
  rw [normalized]
  split
  · exact Arith.isNaN_zero
  · dsimp only
    split
    · rename_i hrange
      set bound := Arith.epsilon * Arith.max (Arith.abs w.highest) 1 with hbound
      -- what is not a number is not below the range
      have hnumber : Arith.isNaN bound = false := by
        by_contra hnan
        rw [SpecialValues.lt_of_isNaN bound _ (by simpa using hnan)] at hrange
        cases hrange
      have hnonneg : Arith.le 0 bound = true := ComparisonLaws.mul_nonneg _ _
        ComparisonLaws.zero_le_epsilon (Arith.zero_le_max_one _) hnumber
      exact ComparisonLaws.isNaN_div _ _ hw (ComparisonLaws.lt_of_le_of_lt _ _ _ hnonneg hrange)
    · exact SpecialValues.isNaN_of_isFinite hw

/-- A discrepancy is a number. -/
theorem isNaN_discrepancy (symbolic compiled : List α) :
    Arith.isNaN (discrepancy symbolic compiled) = false := by
  rw [discrepancy]
  split
  · exact ComparisonLaws.isNaN_inf
  · split
    · rename_i w hrun
      refine Spread.isNaN_normalized ?_
      have hkeep : ∀ (rows : List (α × α)) (v : Spread α), Arith.isFinite v.difference = true →
          rows.foldlM Spread.row? v = some w → Arith.isFinite w.difference = true := by
        intro rows
        induction rows with
        | nil => exact fun v hv hrun => Option.some.inj hrun ▸ hv
        | cons row rows ih =>
          intro v hv hrun
          obtain ⟨u, hu, hrest⟩ := Option.bind_eq_some_iff.1 hrun
          exact ih u (Spread.isFinite_row? hv hu) hrest
      exact hkeep _ _ SpecialValues.isFinite_zero hrun
    · exact ComparisonLaws.isNaN_inf

end Discrepancies

/-! ## The largest discrepancy -/

/-- Discrepancies within a tolerance do not exceed it, nor zero if it is negative. -/
theorem largest_le [ComparisonLaws α] {tolerance : α} (htolerance : Arith.isNaN tolerance = false)
    {a : Agreement α} (ha : ∀ d ∈ a.discrepancies, Arith.le d.2 tolerance = true) :
    Arith.le a.largest (Arith.max 0 tolerance) = true := by
  obtain ⟨hzero, htop⟩ := Arith.le_max Arith.isNaN_zero htolerance
  have hrun : ∀ (ds : List (String × α)) (m : α), (∀ d ∈ ds, Arith.le d.2 tolerance = true) →
      Arith.le m (Arith.max 0 tolerance) = true →
        Arith.le (ds.foldl (fun m d => Arith.max m d.2) m) (Arith.max 0 tolerance) = true := by
    intro ds
    induction ds with
    | nil => exact fun _ _ hm => hm
    | cons d ds ih =>
      intro m hds hm
      obtain ⟨hd, hds⟩ := List.forall_mem_cons.1 hds
      refine ih _ hds ?_
      dsimp only
      rcases Arith.max_eq_or m d.2 with h | h
      · rw [h, hm]
      · rw [h, ComparisonLaws.le_trans _ _ _ hd htop]
  exact hrun _ _ ha hzero

/-! ## One comparison -/

variable {f : Forest α} {g : Graph α} {m : NodeMapping} {x : Matrix α} {tolerance : α}

/-- The forest's own column of a feature, and the one that the graph holds at the feature's active
node, have the discrepancy `d`. -/
def Compares (f : Forest α) (g : Graph α) (m : NodeMapping) (x : Matrix α) (i : Nat) (d : α) :
    Prop :=
  ∃ node symbolic compiled, m.getIndex? i = some node ∧ g.isActive node = true ∧
    f.evaluateAt i x = .ok symbolic ∧ g.vals? node = some compiled ∧
      d = discrepancy symbolic compiled

/-- The node of the feature is inactive. -/
def Idle (g : Graph α) (m : NodeMapping) (i : Nat) : Prop :=
  ∃ node, m.getIndex? i = some node ∧ g.isActive node = false

/-- A comparison fails without refusing the feature, or it skips the feature, or it finds the
discrepancy. -/
theorem compare_cases (f : Forest α) (g : Graph α) (m : NodeMapping) (x : Matrix α) (i : Nat)
    (feature : Feature α) :
    (∃ fault, compare f g m x i feature = .error fault ∧
      (∀ expr d, fault ≠ .failure (.disagreement expr d)) ∧ ¬Idle g m i ∧
        ∀ d, ¬Compares f g m x i d) ∨
    (compare f g m x i feature = .ok none ∧ Idle g m i ∧ ∀ d, ¬Compares f g m x i d) ∨
    ∃ c, compare f g m x i feature = .ok (some c) ∧ ¬Idle g m i ∧
      ∀ d, Compares f g m x i d ↔ d = c.discrepancy := by
  unfold compare Compares Idle
  cases hbound : m.getIndex? i with
  | none => exact .inl ⟨_, rfl, by simp, by simp, by simp⟩
  | some node =>
    cases hactive : g.isActive node with
    | false => exact .inr (.inl ⟨by simp [hactive], by simp [hactive], by simp [hactive]⟩)
    | true =>
      cases hsymbolic : f.evaluateAt i x with
      | error fault =>
        rcases fault with reason | _
        · exact .inl ⟨.failure (.forest reason), by simp [hactive, Outcome.mapFailure], by simp,
            by simp [hactive], by simp⟩
        · exact .inl ⟨.outOfRange, by simp [hactive, Outcome.mapFailure], by simp,
            by simp [hactive], by simp⟩
      | ok symbolic =>
        cases hcompiled : g.vals? node with
        | none =>
          exact .inl ⟨.failure (.graph (.mismatch (.noValues feature.expr))),
            by simp [hactive, hcompiled, Outcome.fail], by simp, by simp [hactive],
            by simp [hcompiled]⟩
        | some compiled =>
          refine .inr (.inr ⟨⟨node, symbolic, compiled⟩, by simp [hactive, hcompiled],
            by simp [hactive], fun d => ?_⟩)
          simp [hactive, hcompiled, Comparison.discrepancy]

/-! ## The run -/

/-- A run over features of which none is refused, and the discrepancies that it records. -/
inductive Passes (f : Forest α) (g : Graph α) (m : NodeMapping) (x : Matrix α) (tolerance : α) :
    List (Nat × Feature α) → List (String × α) → Prop
  | nil : Passes f g m x tolerance [] []
  | skip {e : Nat × Feature α} {rest : List (Nat × Feature α)} {ds : List (String × α)}
      (hidle : Idle g m e.1) (h : Passes f g m x tolerance rest ds) :
      Passes f g m x tolerance (e :: rest) ds
  | compare {e : Nat × Feature α} {rest : List (Nat × Feature α)} {ds : List (String × α)} {d : α}
      (hd : Compares f g m x e.1 d) (hbelow : Arith.lt tolerance d = false)
      (h : Passes f g m x tolerance rest ds) :
      Passes f g m x tolerance (e :: rest) ((e.2.expr, d) :: ds)

theorem Passes.length_le {rest : List (Nat × Feature α)} {ds : List (String × α)}
    (h : Passes f g m x tolerance rest ds) : ds.length ≤ rest.length := by
  induction h with
  | nil => simp
  | skip _ _ ih => simpa using Nat.le_succ_of_le ih
  | compare _ _ _ ih => simpa using ih

theorem passes_cons_iff {e : Nat × Feature α} {rest : List (Nat × Feature α)}
    {ds : List (String × α)} :
    Passes f g m x tolerance (e :: rest) ds ↔
      (Idle g m e.1 ∧ Passes f g m x tolerance rest ds) ∨
        ∃ d ds', ds = (e.2.expr, d) :: ds' ∧ Compares f g m x e.1 d ∧
          Arith.lt tolerance d = false ∧ Passes f g m x tolerance rest ds' := by
  constructor
  · intro h
    cases h with
    | skip hidle hds => exact .inl ⟨hidle, hds⟩
    | compare hd hbelow hds => exact .inr ⟨_, _, rfl, hd, hbelow, hds⟩
  · rintro (⟨hidle, hds⟩ | ⟨d, ds', rfl, hd, hbelow, hds⟩)
    · exact .skip hidle hds
    · exact .compare hd hbelow hds

/-- A feature that is skipped is not among the discrepancies. -/
theorem Idle.passes_cons_iff {e : Nat × Feature α} (hidle : Idle g m e.1)
    (hnone : ∀ d, ¬Compares f g m x e.1 d) {rest : List (Nat × Feature α)}
    {ds : List (String × α)} :
    Passes f g m x tolerance (e :: rest) ds ↔ Passes f g m x tolerance rest ds := by
  simp [Agreement.passes_cons_iff, hidle, hnone]

/-- The check answers if and only if none of the features is refused. -/
theorem checkFrom_eq_ok_iff {rest : List (Nat × Feature α)} {a a' : Agreement α} :
    (checkFrom f g m x tolerance rest a).outcome = .ok a' ↔
      ∃ ds, Passes f g m x tolerance rest ds ∧
        a' = ⟨a.discrepancies ++ ds, a.skipped + (rest.length - ds.length)⟩ := by
  induction rest generalizing a with
  | nil =>
    rw [checkFrom, Outcome.ok_eq_iff]
    constructor
    · rintro rfl
      exact ⟨[], .nil, by simp⟩
    · rintro ⟨ds, hds, rfl⟩
      cases hds
      simp
  | cons e rest ih =>
    rw [checkFrom]
    rcases compare_cases f g m x e.1 e.2 with
      ⟨fault, hcompare, _, hidle, hnone⟩ | ⟨hcompare, hidle, hnone⟩ | ⟨c, hcompare, hidle, honly⟩
    · rw [hcompare]
      exact iff_of_false (by simp) (by simp [passes_cons_iff, hidle, hnone])
    · rw [hcompare]
      dsimp only
      rw [ih]
      simp only [hidle.passes_cons_iff hnone]
      refine exists_congr fun ds => and_congr_right fun hds => ?_
      have hlength := hds.length_le
      rw [List.length_cons, Nat.add_assoc, Nat.add_comm 1, Nat.sub_add_comm hlength]
    · rw [hcompare]
      dsimp only [Report.after]
      simp only [passes_cons_iff, hidle, honly, false_and, false_or]
      cases hlt : Arith.lt tolerance c.discrepancy with
      | true => exact iff_of_false (by simp [refuse, Outcome.fail]) (by simp [hlt])
      | false =>
        rw [if_neg Bool.false_ne_true, ih]
        constructor
        · rintro ⟨ds, hds, rfl⟩
          exact ⟨_, ⟨_, ds, rfl, rfl, hlt, hds⟩, by simp⟩
        · rintro ⟨_, ⟨_, ds, rfl, rfl, _, hds⟩, rfl⟩
          exact ⟨ds, hds, by simp⟩

/-- The check refuses the first feature whose discrepancy is above the tolerance. -/
theorem of_checkFrom_eq_disagreement {rest : List (Nat × Feature α)} {a : Agreement α}
    {expr : String} {d : α}
    (hrun : (checkFrom f g m x tolerance rest a).outcome = Outcome.fail (.disagreement expr d)) :
    ∃ before e after ds, rest = before ++ e :: after ∧ Passes f g m x tolerance before ds ∧
      e.2.expr = expr ∧ Compares f g m x e.1 d ∧ Arith.lt tolerance d = true := by
  induction rest generalizing a with
  | nil => cases hrun
  | cons e rest ih =>
    rw [checkFrom] at hrun
    rcases compare_cases f g m x e.1 e.2 with
      ⟨fault, hcompare, hfault, _, _⟩ | ⟨hcompare, hidle, _⟩ | ⟨c, hcompare, _, honly⟩
    · rw [hcompare] at hrun
      exact absurd (Except.error.inj hrun) (hfault expr d)
    · rw [hcompare] at hrun
      obtain ⟨before, e', after, ds, rfl, hbefore, hrest⟩ := ih hrun
      exact ⟨e :: before, e', after, ds, rfl, .skip hidle hbefore, hrest⟩
    · rw [hcompare] at hrun
      dsimp only [Report.after] at hrun
      cases hlt : Arith.lt tolerance c.discrepancy with
      | true =>
        rw [hlt, if_pos rfl] at hrun
        cases hrun
        exact ⟨[], e, rest, [], rfl, .nil, rfl, (honly _).2 rfl, hlt⟩
      | false =>
        rw [hlt, if_neg Bool.false_ne_true] at hrun
        obtain ⟨before, e', after, ds, rfl, hbefore, hrest⟩ := ih hrun
        exact ⟨e :: before, e', after, _, rfl, .compare ((honly _).2 rfl) hlt hbefore, hrest⟩

/-! ## What a run has seen -/

/-- Whether the node of a feature is active. -/
def isCompared (g : Graph α) (m : NodeMapping) (e : Nat × Feature α) : Bool :=
  (m.getIndex? e.1).any g.isActive

theorem Compares.isCompared {e : Nat × Feature α} {d : α} (h : Compares f g m x e.1 d) :
    isCompared g m e = true := by
  obtain ⟨node, _, _, hbound, hactive, _⟩ := h
  simp [Agreement.isCompared, hbound, hactive]

omit [Arith α] in
theorem Idle.isCompared {e : Nat × Feature α} (h : Idle g m e.1) : isCompared g m e = false := by
  obtain ⟨node, hbound, hactive⟩ := h
  simp [Agreement.isCompared, hbound, hactive]

/-- The features whose nodes are active are those whose discrepancies are recorded. -/
theorem Passes.forall₂ {rest : List (Nat × Feature α)} {ds : List (String × α)}
    (h : Passes f g m x tolerance rest ds) :
    List.Forall₂ (fun e d => d.1 = e.2.expr ∧ Compares f g m x e.1 d.2 ∧
      Arith.lt tolerance d.2 = false) (rest.filter (isCompared g m)) ds := by
  induction h with
  | nil => exact .nil
  | skip hidle _ ih =>
    rw [List.filter_cons_of_neg (by simp [hidle.isCompared])]
    exact ih
  | compare hd hbelow _ ih =>
    rw [List.filter_cons_of_pos hd.isCompared]
    exact .cons ⟨rfl, hd, hbelow⟩ ih

theorem Passes.of_mem {rest : List (Nat × Feature α)} {ds : List (String × α)}
    (h : Passes f g m x tolerance rest ds) {d : String × α} (hd : d ∈ ds) :
    ∃ i, Compares f g m x i d.2 ∧ Arith.lt tolerance d.2 = false := by
  induction h with
  | nil => cases hd
  | skip _ _ ih => exact ih hd
  | compare hcompares hbelow _ ih =>
    rcases List.mem_cons.1 hd with rfl | hd
    · exact ⟨_, hcompares, hbelow⟩
    · exact ih hd

theorem exists_passes_iff {rest : List (Nat × Feature α)} :
    (∃ ds, Passes f g m x tolerance rest ds) ↔
      ∀ e ∈ rest, Idle g m e.1 ∨ ∃ d, Compares f g m x e.1 d ∧ Arith.lt tolerance d = false := by
  induction rest with
  | nil => exact iff_of_true ⟨[], .nil⟩ (by simp)
  | cons e rest ih =>
    rw [List.forall_mem_cons, ← ih]
    constructor
    · rintro ⟨ds, hds⟩
      rcases passes_cons_iff.1 hds with ⟨hidle, hds⟩ | ⟨d, ds', _, hd, hbelow, hds⟩
      · exact ⟨.inl hidle, _, hds⟩
      · exact ⟨.inr ⟨d, hd, hbelow⟩, _, hds⟩
    · rintro ⟨hidle | ⟨d, hd, hbelow⟩, ds, hds⟩
      · exact ⟨_, .skip hidle hds⟩
      · exact ⟨_, .compare hd hbelow hds⟩

/-! ## The check -/

theorem isActive_evaluate (g : Graph α) (x : Matrix α) (id : NodeId) :
    (g.evaluate x none).2.isActive id = g.isActive id := by
  rw [Graph.evaluate]
  cases g.runForward x none <;> rfl

theorem snd_check (f : Forest α) (g : Graph α) (m : NodeMapping) (x : Matrix α) (tolerance : α) :
    (check f g m x tolerance).2 = (g.evaluate x none).2 := rfl

/-- A check that refuses a feature has evaluated the graph. -/
theorem evaluate_of_check_eq_disagreement {expr : String} {d : α}
    (hcheck : (check f g m x tolerance).1.outcome = Outcome.fail (.disagreement expr d)) :
    (g.evaluate x none).1 = .ok () := by
  rcases hrun : g.evaluate x none with ⟨fault | ⟨⟩, g'⟩
  · rw [check, hrun] at hcheck
    rcases fault with reason | _ <;> cases hcheck
  · rfl

theorem isCompared_evaluate (g : Graph α) (m : NodeMapping) (x : Matrix α) :
    isCompared (g.evaluate x none).2 m = isCompared g m := by
  funext e
  rw [isCompared, isCompared, funext (isActive_evaluate g x)]

section Verdicts

variable [ComparisonLaws α]

/-- A discrepancy is a number, so it is within the tolerance if it is not above it. -/
theorem Compares.below_iff {i : Nat} {d : α} (h : Compares f g m x i d)
    (htolerance : Arith.isNaN tolerance = false) :
    Arith.lt tolerance d = false ↔ Arith.le d tolerance = true := by
  obtain ⟨_, symbolic, compiled, _, _, _, _, rfl⟩ := h
  exact ⟨ComparisonLaws.le_of_not_lt _ _ htolerance (isNaN_discrepancy symbolic compiled),
    SpecialValues.lt_of_le _ _⟩

/-- A check answers if the graph can be evaluated, each feature has a node, and each feature whose
node is active can be compared and is within the tolerance, and else it does not. -/
theorem exists_check_eq_ok_iff (htolerance : Arith.isNaN tolerance = false) :
    (∃ a, (check f g m x tolerance).1.outcome = .ok a) ↔ (g.evaluate x none).1 = .ok () ∧
      ∀ e ∈ f.entries, ∃ node, m.getIndex? e.1 = some node ∧ (g.isActive node = true →
        ∃ d, Compares f (g.evaluate x none).2 m x e.1 d ∧ Arith.le d tolerance = true) := by
  constructor
  · rintro ⟨a, ha⟩
    have hpass := evaluate_of_check_eq_ok ha
    rw [outcome_check hpass] at ha
    obtain ⟨ds, hds, _⟩ := checkFrom_eq_ok_iff.1 ha
    refine ⟨hpass, fun e he => ?_⟩
    rcases exists_passes_iff.1 ⟨ds, hds⟩ e he with ⟨node, hbound, hidle⟩ | ⟨d, hd, hbelow⟩
    · refine ⟨node, hbound, fun hnode => ?_⟩
      rw [isActive_evaluate, hnode] at hidle
      cases hidle
    · obtain ⟨node, _, _, hbound, _⟩ := id hd
      exact ⟨node, hbound, fun _ => ⟨d, hd, (hd.below_iff htolerance).1 hbelow⟩⟩
  · rintro ⟨hpass, hall⟩
    obtain ⟨ds, hds⟩ : ∃ ds, Passes f (g.evaluate x none).2 m x tolerance f.entries ds := by
      refine exists_passes_iff.2 fun e he => ?_
      obtain ⟨node, hbound, hnode⟩ := hall e he
      cases hidle : g.isActive node with
      | false => exact .inl ⟨node, hbound, (isActive_evaluate g x node).trans hidle⟩
      | true =>
        obtain ⟨d, hd, hle⟩ := hnode hidle
        exact .inr ⟨d, hd, (hd.below_iff htolerance).2 hle⟩
    exact ⟨_, (outcome_check hpass).trans (checkFrom_eq_ok_iff.2 ⟨ds, hds, rfl⟩)⟩

/-- A check that answers has recorded the discrepancies of the features whose nodes are active, in
the order of the forest, and has counted the others. -/
theorem recorded_of_check_eq_ok (htolerance : Arith.isNaN tolerance = false) {a : Agreement α}
    (ha : (check f g m x tolerance).1.outcome = .ok a) :
    List.Forall₂ (fun e d => d.1 = e.2.expr ∧ Compares f (g.evaluate x none).2 m x e.1 d.2 ∧
        Arith.le d.2 tolerance = true) (f.entries.filter (isCompared g m)) a.discrepancies ∧
      Arith.le a.largest (Arith.max 0 tolerance) = true ∧ a.checked + a.skipped = f.size := by
  rw [outcome_check (evaluate_of_check_eq_ok ha)] at ha
  obtain ⟨ds, hds, rfl⟩ := checkFrom_eq_ok_iff.1 ha
  have hrecorded := hds.forall₂
  rw [isCompared_evaluate] at hrecorded
  refine ⟨hrecorded.imp fun e d h => ?_, largest_le htolerance fun d hd => ?_, ?_⟩
  · obtain ⟨hexpr, hcompares, hbelow⟩ := h
    exact ⟨hexpr, hcompares, (hcompares.below_iff htolerance).1 hbelow⟩
  · obtain ⟨i, hcompares, hbelow⟩ := hds.of_mem hd
    exact (hcompares.below_iff htolerance).1 hbelow
  · have hlength := hds.length_le
    rw [Forest.length_entries] at hlength
    simp only [checked, List.nil_append, Forest.length_entries]
    omega

/-- A check that refuses a feature refuses the first one above the tolerance. -/
theorem first_of_check_eq_disagreement (htolerance : Arith.isNaN tolerance = false)
    {expr : String} {d : α}
    (hcheck : (check f g m x tolerance).1.outcome = Outcome.fail (.disagreement expr d)) :
    ∃ before e after, f.entries.filter (isCompared g m) = before ++ e :: after ∧
      e.2.expr = expr ∧ Compares f (g.evaluate x none).2 m x e.1 d ∧
      Arith.lt tolerance d = true ∧ ∀ e' ∈ before,
        ∃ d', Compares f (g.evaluate x none).2 m x e'.1 d' ∧ Arith.le d' tolerance = true := by
  rw [outcome_check (evaluate_of_check_eq_disagreement hcheck)] at hcheck
  obtain ⟨before, e, after, ds, hentries, hbefore, hexpr, hcompares, habove⟩ :=
    of_checkFrom_eq_disagreement hcheck
  refine ⟨before.filter (isCompared g m), e, after.filter (isCompared g m), ?_, hexpr, hcompares,
    habove, fun e' he' => ?_⟩
  · have hcompared : isCompared g m e = true :=
      isCompared_evaluate g m x ▸ hcompares.isCompared
    rw [← List.filter_cons_of_pos hcompared, ← List.filter_append, ← hentries]
  · obtain ⟨hmem, hcompared⟩ := List.mem_filter.1 he'
    rcases exists_passes_iff.1 ⟨ds, hbefore⟩ e' hmem with hidle | ⟨d', hd', hbelow⟩
    · rw [← isCompared_evaluate g m x, hidle.isCompared] at hcompared
      cases hcompared
    · exact ⟨d', hd', (hd'.below_iff htolerance).1 hbelow⟩

end Verdicts

/-- What a check says, for any forest, graph and mapping and any tolerance that is a number.  It
answers if and only if the graph can be evaluated, each feature has a node, and each feature whose
node is active can be compared and is within the tolerance.  It records the discrepancies of these
features in the order of the forest, and counts the others.  If it refuses a feature, then this is
the first one above the tolerance.  In either case it leaves the evaluated graph behind, in which
nothing but the caches is new. -/
theorem check_gate [ComparisonLaws α] (f : Forest α) (g : Graph α) (m : NodeMapping) (x : Matrix α)
    {tolerance : α} (htolerance : Arith.isNaN tolerance = false) :
    let run := check f g m x tolerance
    let compared := f.entries.filter (isCompared g m)
    ((∃ a, run.1.outcome = .ok a) ↔ (g.evaluate x none).1 = .ok () ∧
      ∀ e ∈ f.entries, ∃ node, m.getIndex? e.1 = some node ∧ (g.isActive node = true →
        ∃ d, Compares f run.2 m x e.1 d ∧ Arith.le d tolerance = true)) ∧
    (∀ a, run.1.outcome = .ok a →
      List.Forall₂ (fun e d => d.1 = e.2.expr ∧ Compares f run.2 m x e.1 d.2 ∧
        Arith.le d.2 tolerance = true) compared a.discrepancies ∧
      Arith.le a.largest (Arith.max 0 tolerance) = true ∧ a.checked + a.skipped = f.size) ∧
    (∀ expr d, run.1.outcome = Outcome.fail (.disagreement expr d) →
      ∃ before e after, compared = before ++ e :: after ∧ e.2.expr = expr ∧
        Compares f run.2 m x e.1 d ∧ Arith.lt tolerance d = true ∧
        ∀ e' ∈ before, ∃ d', Compares f run.2 m x e'.1 d' ∧ Arith.le d' tolerance = true) ∧
    run.2 = ((Edit.evaluate x none).on g).2 ∧ ∃ tape values, run.2 = { g with tape, values } := by
  intro run compared
  refine ⟨exists_check_eq_ok_iff htolerance, fun a => recorded_of_check_eq_ok htolerance,
    fun expr d => first_of_check_eq_disagreement htolerance, ?_, ?_⟩
  · rw [Edit.on_evaluate]
    exact snd_check f g m x tolerance
  · rw [snd_check, Graph.evaluate]
    cases g.runForward x none <;> exact ⟨_, _, rfl⟩

/-- The square root of a negative entry is refused, after the column itself has been compared. -/
theorem check_gate_columnAndRoot :
    Arith.isNaN (0 : ExtendedReal) = false ∧
      ∃ g m, (Forest.columnAndRoot : Forest ExtendedReal).lower.outcome = .ok (g, m) ∧
        let run := check Forest.columnAndRoot g m (.ofFn 1 1 fun _ _ => -1) 0
        run.1.outcome = Outcome.fail (.disagreement "sqrt(a)" Arith.inf) ∧
          ∃ before e after, Forest.columnAndRoot.entries.filter (isCompared g m) =
            before ++ e :: after ∧ e.2.expr = "sqrt(a)" ∧
              Compares Forest.columnAndRoot run.2 m (.ofFn 1 1 fun _ _ => -1) e.1 Arith.inf := by
  have hsound : (Forest.columnAndRoot : Forest ExtendedReal).Sound :=
    Forest.built_columnAndRoot.sound
  obtain ⟨g, m, node, hlower, h⟩ := hsound.exists_lower
  have hx : (Forest.columnAndRoot : Forest ExtendedReal).rootCount ≤ 1 := by decide
  have hrefused : (check Forest.columnAndRoot g m (.ofFn 1 1 fun _ _ => (-1 : ExtendedReal))
      0).1.outcome = Outcome.fail (.disagreement "sqrt(a)" Arith.inf) := by
    refine check_eq_disagreement h hsound hx SpecialValues.isFinite_zero
      ExtendedReal.not_zero_lt_zero (i := 1) (r := ⟨0, by decide⟩) rfl (fun j hj r hneg => ?_)
      (Forest.sqrtOfNegative_columnAndRoot.2 ⟨rfl, ?_⟩)
    · exact Nat.ne_of_lt hj (Forest.sqrtOfNegative_columnAndRoot.1 hneg).1
    · show decide ((1 : ℝ) * 1 * -1 < 0) = true
      norm_num
  refine ⟨Arith.isNaN_zero, g, m, hlower, hrefused, ?_⟩
  obtain ⟨before, e, after, hcompared, hexpr, hd, _⟩ := (check_gate Forest.columnAndRoot g m
    (.ofFn 1 1 fun _ _ => (-1 : ExtendedReal)) Arith.isNaN_zero).2.2.1 _ _ hrefused
  exact ⟨before, e, after, hcompared, hexpr, hd⟩

end Agreement

end FeatureGraph
