import FeatureGraph.Arith.Double
import FeatureGraph.Proofs.Confinement
import FeatureGraph.Proofs.DecimalText
import FeatureGraph.Proofs.Document

/-!
# Loaded graphs

A document is read column by column, and nobody checks that the columns fit together.  If they do,
nothing that is done with the loaded graph leaves the stored data.  If they do not, an evaluation
may read a parent that is not there.

* `tape_of_ofText` says that a loaded graph has no tape, so that its table decides alone.
* `loaded_confined_of_wellFormed` is the statement: what a well-formed table guarantees, and that
  every table comes through.
-/

namespace FeatureGraph

variable {α : Type}

/-- The names in use have nothing to do with the columns. -/
theorem NodeTable.WellFormed.refreshNames {t : NodeTable α} (ht : t.WellFormed) :
    t.refreshNames.WellFormed :=
  { ht with known := ht.known, arity := ht.arity, paramCount := ht.paramCount }

namespace Graph

section Loading

variable [DecimalText α]

/-- A loaded graph has no tape. -/
theorem tape_of_ofText {text : String} {g : Graph α} (h : ofText text = .ok g) : g.tape = none := by
  unfold ofText at h
  split at h
  · rename_i g' hread
    obtain rfl := Except.ok.inj h
    obtain ⟨v, _, hv⟩ := Option.bind_eq_some_iff.1 hread
    simp only [ofJson?, Option.bind_eq_bind, Option.bind_eq_some_iff] at hv
    obtain ⟨fields, _, hv⟩ := hv
    split at hv
    · simp only [Option.bind_eq_some_iff, Option.pure_def, Option.some.injEq] at hv
      obtain ⟨_, _, _, _, _, _, _, _, _, _, rfl⟩ := hv
      rfl
    · cases hv
  · cases h

/-- If the columns of a loaded graph fit together, nothing that is done with it, after any actions,
leaves the stored data.  Loading itself asks for no such thing: a graph whose numbers have 32 bits
and whose parameters are finite comes back from its document, whether its columns fit together or
not. -/
theorem loaded_confined_of_wellFormed [Arith α] [Faithful α] :
    (∀ (text : String) (g : Graph α), ofText text = .ok g → g.table.WellFormed →
      ∀ acts : List (Action α), (g.afterAll acts).Confined) ∧
    ∀ g : Graph α, g.Addressed → g.table.Finite → ofText g.toText = .ok g.reloaded := by
  refine ⟨fun text g hread ht acts => ?_, fun g hg hfinite => ofText_toText hg hfinite⟩
  have hg : g.WellFormed := .of_table ht (tape_of_ofText hread)
  exact (hg.afterAll acts).confined

end Loading

/-- A single node: the exponential of the node with the given number. -/
def exponentialOf (parent : NodeId) : Graph Float where
  table :=
    { ops := #[.exp], labels := #["e"], parentIds := #[parent], parentSpans := #[⟨0, 1⟩]
      params := #[[]], active := #[true], constant := #[false], dropped := #[false] }

theorem addressed_exponentialOf {parent : NodeId} (h : parent < 1 <<< 32) :
    (exponentialOf parent).Addressed where
  table := ⟨by simp [exponentialOf], by simpa [exponentialOf] using h, by simp [exponentialOf]⟩
  nextColumn := (by decide : 0 < 1 <<< 32)
  outputs := by simp [exponentialOf]
  targets := by simp [exponentialOf]
  objectives := by simp [exponentialOf]

theorem finite_exponentialOf (parent : NodeId) : (exponentialOf parent).table.Finite := by
  simp [NodeTable.Finite, exponentialOf]

theorem parentList_exponentialOf (parent id : NodeId) :
    (exponentialOf parent).table.parentList id = if id = 0 then [parent] else [] := by
  cases id <;> rfl

/-- A node may be its own parent. -/
theorem wellFormed_exponentialOf : (exponentialOf 0).table.WellFormed where
  labels := rfl
  spans := rfl
  params := rfl
  active := rfl
  constant := rfl
  dropped := rfl
  inside := by decide
  known id p hp := by
    rw [parentList_exponentialOf] at hp
    split at hp
    · rw [List.mem_singleton.1 hp]
      decide
    · cases hp
  arity id op hop := by
    cases id with
    | zero => exact Option.some.inj hop ▸ rfl
    | succ id => cases hop
  paramCount id op ps hop hps := by
    cases id with
    | zero => exact Option.some.inj hop ▸ Option.some.inj hps ▸ rfl
    | succ id => cases hop

/-- The exponential of itself is loaded, and an evaluation names the cycle. -/
theorem loaded_confined_of_wellFormed_cycle :
    (exponentialOf 0).Addressed ∧ (exponentialOf 0).table.Finite ∧
    ∃ g : Graph Float, ofText (exponentialOf 0).toText = .ok g ∧ g.table.WellFormed ∧
      (∀ acts : List (Action Float), (g.afterAll acts).Confined) ∧
      Outcome.isFailure ((Edit.evaluate (.ofFn 1 1 fun _ _ => 1) none).on g).1 = true := by
  have haddressed := addressed_exponentialOf (show 0 < 1 <<< 32 by decide)
  have hfinite := finite_exponentialOf 0
  have htable := wellFormed_exponentialOf.refreshNames
  have hread := loaded_confined_of_wellFormed.2 _ haddressed hfinite
  exact ⟨haddressed, hfinite, _, hread, htable,
    loaded_confined_of_wellFormed.1 _ _ hread htable, by rfl⟩

/-- The exponential of a node that is not there is loaded as well, and an evaluation leaves the
table. -/
theorem loaded_leaves_table :
    ofText (exponentialOf 7).toText = .ok (exponentialOf 7).reloaded ∧
    ¬(exponentialOf 7).reloaded.table.WellFormed ∧
    ((Edit.evaluate (.ofFn 1 1 fun _ _ => 1) none).on (exponentialOf 7).reloaded).1 =
      .error .outOfRange := by
  refine ⟨ofText_toText (addressed_exponentialOf (by decide)) (finite_exponentialOf 7), ?_, by rfl⟩
  intro ht
  exact absurd (ht.known 0 7 (by decide)) (by decide)

end Graph

end FeatureGraph
