import FeatureGraph.Json.Reader
import FeatureGraph.Json.Writer
import FeatureGraph.Json.Scalar
import FeatureGraph.Model.Fitting

/-!
# Settings

The settings of a whole run, from lowering to prediction, as a JSON document.
Every field may be missing and has a default then.
-/

namespace FeatureGraph

structure Settings (α : Type) where
  /-- Features of this quality or better are selected. -/
  quality : α
  /-- Largest discrepancy that the check accepts. -/
  tolerance : α
  plan : FitPlan α
  /-- Number of passes of a prediction. -/
  estimators : Nat
  /-- Seed of the random source, if it is to be reproducible. -/
  seed : Option Nat
deriving DecidableEq, Repr

variable {α : Type}

namespace FitPlan

def toJson [DecimalText α] (p : FitPlan α) : Json.Value :=
  .ofMembers [
    ("method", .ofString p.method),
    ("rate", .ofScalar p.rate),
    ("n_steps_batch", .ofNat p.stepsPerBatch),
    ("n_batches", .ofNat p.batches),
    ("resample", .bool p.resample)]

def ofJson? [Arith α] [DecimalText α] (v : Json.Value) : Option (FitPlan α) := do
  let [method, rate, stepsPerBatch, batches, resample] ← v.fields?
    ["method", "rate", "n_steps_batch", "n_batches", "resample"] | none
  let byDefault : FitPlan α := .default
  return {
    method := ← Json.Value.orDefault? Json.Value.text? byDefault.method method
    rate := ← Json.Value.orDefault? Json.Value.scalar? byDefault.rate rate
    stepsPerBatch :=
      ← Json.Value.orDefault? Json.Value.word64? byDefault.stepsPerBatch stepsPerBatch
    batches := ← Json.Value.orDefault? Json.Value.word64? byDefault.batches batches
    resample := ← Json.Value.orDefault? Json.Value.bool? byDefault.resample resample
  }

end FitPlan

namespace Settings

/-- The settings in use where nothing else is said. -/
def default [Arith α] : Settings α where
  quality := defaultQuality
  tolerance := defaultTolerance
  plan := .default
  estimators := 1
  seed := none

def toJson [DecimalText α] (s : Settings α) : Json.Value :=
  .ofMembers [
    ("quality_threshold", .ofScalar s.quality),
    ("tolerance", .ofScalar s.tolerance),
    ("train", s.plan.toJson),
    ("n_estimators", .ofNat s.estimators),
    ("seed", match s.seed with
      | some n => .ofNat n
      | none => .null)]

def ofJson? [Arith α] [DecimalText α] (v : Json.Value) : Option (Settings α) := do
  let [quality, tolerance, plan, estimators, seed] ← v.fields?
    ["quality_threshold", "tolerance", "train", "n_estimators", "seed"] | none
  let byDefault : Settings α := .default
  return {
    quality := ← Json.Value.orDefault? Json.Value.scalar? byDefault.quality quality
    tolerance := ← Json.Value.orDefault? Json.Value.scalar? byDefault.tolerance tolerance
    plan := ← Json.Value.orDefault? FitPlan.ofJson? byDefault.plan plan
    estimators := ← Json.Value.orDefault? Json.Value.word64? byDefault.estimators estimators
    seed := ← Json.Value.orDefault? (Json.Value.nullable? Json.Value.word64?) byDefault.seed seed
  }

/-- The document of the settings. -/
def toText [DecimalText α] (s : Settings α) : String := s.toJson.text

/-- The settings of a document. -/
def ofText [Arith α] [DecimalText α] (text : String) : Outcome (ModelError α) (Settings α) :=
  match (Json.Value.read? text).bind ofJson? with
  | some s => .ok s
  | none => Outcome.fail (.configuration "not a settings document")

end Settings

end FeatureGraph
