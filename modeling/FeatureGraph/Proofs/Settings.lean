import FeatureGraph.Arith.Double
import FeatureGraph.Model.Settings
import FeatureGraph.Proofs.DecimalText
import FeatureGraph.Proofs.Document

/-!
# Settings read back

The document of some settings is read as these settings.  If fields are taken out of it, of the
whole or of the plan in it, and the others are put into any order, what is left is read back and the
defaults stand in for the rest.

* `Json.Value.orDefault?_ite` is the step for one field.
* `FitPlan.keeping` and `Settings.keeping` are the settings of which only some fields are kept, and
  `ofJson?_keeping` reads them.
* `Settings.ofText_keeping` is about whole documents.
-/

namespace FeatureGraph

/-- A field that is there is read, and one that is not has its default. -/
theorem Json.Value.orDefault?_ite {β : Type} {read? : Value → Option β} {p : Prop} [Decidable p]
    {v : Value} {b : β} (h : p → read? v = some b) (byDefault : β) :
    orDefault? read? byDefault (if p then some v else none) =
      some (if p then b else byDefault) := by
  split
  · rename_i hp
    exact h hp
  · rfl

variable {α : Type}

/-! ## Plans -/

namespace FitPlan

/-- The numbers of a plan have 64 bits. -/
structure WordSized (p : FitPlan α) : Prop where
  stepsPerBatch : p.stepsPerBatch < 1 <<< 64
  batches : p.batches < 1 <<< 64

variable [DecimalText α]

/-- The fields of the document of a plan. -/
def members (p : FitPlan α) : List (String × Json.Value) :=
  [("method", .ofString p.method), ("rate", .ofScalar p.rate),
    ("n_steps_batch", .ofNat p.stepsPerBatch), ("n_batches", .ofNat p.batches),
    ("resample", .bool p.resample)]

theorem toJson_eq (p : FitPlan α) : p.toJson = .ofMembers p.members := rfl

theorem plain_members {p : FitPlan α} {m : String × Json.Value} (hm : m ∈ p.members) :
    m.2.Plain := by
  simp only [members, List.mem_cons, List.not_mem_nil, or_false] at hm
  rcases hm with rfl | rfl | rfl | rfl | rfl
  · exact .string _
  · exact plain_ofScalar _
  · exact Json.Value.plain_ofNat _
  · exact Json.Value.plain_ofNat _
  · exact .bool _

variable [Arith α]

/-- A plan of which only the named fields are kept. -/
def keeping (p : FitPlan α) (names : List String) : FitPlan α where
  method := if "method" ∈ names then p.method else (default : FitPlan α).method
  rate := if "rate" ∈ names then p.rate else (default : FitPlan α).rate
  stepsPerBatch :=
    if "n_steps_batch" ∈ names then p.stepsPerBatch else (default : FitPlan α).stepsPerBatch
  batches := if "n_batches" ∈ names then p.batches else (default : FitPlan α).batches
  resample := if "resample" ∈ names then p.resample else (default : FitPlan α).resample

theorem keeping_members (p : FitPlan α) : p.keeping (p.members.map (·.1)) = p := by
  simp [keeping, members]

theorem ofJson?_keeping [Faithful α] {p : FitPlan α} (hp : p.WordSized)
    {ms : List (String × Json.Value)} (hms : ms.Subperm p.members)
    (hrate : "rate" ∈ ms.map (·.1) → (DecimalText.exact p.rate).isFinite = true) :
    ofJson? (.ofMembers ms) = some (p.keeping (ms.map (·.1))) := by
  have hfields := Json.Value.fields?_of_subperm (by simp [members]) hms
  simp only [members, List.map_cons, List.map_nil] at hfields
  have hmethod := Json.Value.orDefault?_ite (p := "method" ∈ ms.map (·.1))
    (fun _ => Json.Value.text?_ofString p.method) (default : FitPlan α).method
  have hrate := Json.Value.orDefault?_ite (fun h => Faithful.scalar?_ofScalar p.rate (hrate h))
    (default : FitPlan α).rate
  have hsteps := Json.Value.orDefault?_ite (p := "n_steps_batch" ∈ ms.map (·.1))
    (fun _ => Json.Value.word64?_ofNat hp.stepsPerBatch) (default : FitPlan α).stepsPerBatch
  have hbatches := Json.Value.orDefault?_ite (p := "n_batches" ∈ ms.map (·.1))
    (fun _ => Json.Value.word64?_ofNat hp.batches) (default : FitPlan α).batches
  have hflag : Json.Value.bool? (.bool p.resample) = some p.resample := rfl
  have hresample := Json.Value.orDefault?_ite (p := "resample" ∈ ms.map (·.1)) (fun _ => hflag)
    (default : FitPlan α).resample
  simp only [ofJson?, hfields, Option.bind_eq_bind, Option.bind_some, hmethod, hrate, hsteps,
    hbatches, hresample]
  rfl

end FitPlan

/-! ## Settings -/

namespace Settings

/-- The numbers of the settings have 64 bits. -/
structure WordSized (s : Settings α) : Prop where
  plan : s.plan.WordSized
  estimators : s.estimators < 1 <<< 64
  seed : ∀ n, s.seed = some n → n < 1 <<< 64

/-- The document of a seed. -/
def seedToJson (seed : Option Nat) : Json.Value :=
  match seed with
  | some n => .ofNat n
  | none => .null

theorem nullable?_seedToJson {seed : Option Nat} (hseed : ∀ n, seed = some n → n < 1 <<< 64) :
    Json.Value.nullable? Json.Value.word64? (seedToJson seed) = some seed := by
  cases seed with
  | none => rfl
  | some n =>
    have hword := Json.Value.word64?_ofNat (hseed n rfl)
    show (Json.Value.word64? (.ofNat n)).map some = _
    rw [hword]
    rfl

variable [DecimalText α]

/-- The fields of the document of some settings, with some document for the plan. -/
def membersWith (s : Settings α) (plan : Json.Value) : List (String × Json.Value) :=
  [("quality_threshold", .ofScalar s.quality), ("tolerance", .ofScalar s.tolerance),
    ("train", plan), ("n_estimators", .ofNat s.estimators), ("seed", seedToJson s.seed)]

theorem toJson_eq (s : Settings α) : s.toJson = .ofMembers (s.membersWith s.plan.toJson) := rfl

theorem plain_membersWith {s : Settings α} {plan : Json.Value} (hplan : plan.Plain)
    {m : String × Json.Value} (hm : m ∈ s.membersWith plan) : m.2.Plain := by
  simp only [membersWith, List.mem_cons, List.not_mem_nil, or_false] at hm
  rcases hm with rfl | rfl | rfl | rfl | rfl
  · exact plain_ofScalar _
  · exact plain_ofScalar _
  · exact hplan
  · exact Json.Value.plain_ofNat _
  · cases hseed : s.seed with
    | none => simpa [seedToJson, hseed] using Json.Value.Plain.null
    | some n => simpa [seedToJson, hseed] using Json.Value.plain_ofNat n

/-- The scalars among the kept fields are finite. -/
structure FiniteIn (s : Settings α) (names planNames : List String) : Prop where
  quality : "quality_threshold" ∈ names → (DecimalText.exact s.quality).isFinite = true
  tolerance : "tolerance" ∈ names → (DecimalText.exact s.tolerance).isFinite = true
  rate : "train" ∈ names → "rate" ∈ planNames → (DecimalText.exact s.plan.rate).isFinite = true

variable [Arith α]

/-- The settings of which only the named fields are kept, and of the plan those that are named for
it. -/
def keeping (s : Settings α) (names planNames : List String) : Settings α where
  quality := if "quality_threshold" ∈ names then s.quality else (default : Settings α).quality
  tolerance := if "tolerance" ∈ names then s.tolerance else (default : Settings α).tolerance
  plan := if "train" ∈ names then s.plan.keeping planNames else (default : Settings α).plan
  estimators := if "n_estimators" ∈ names then s.estimators else (default : Settings α).estimators
  seed := if "seed" ∈ names then s.seed else (default : Settings α).seed

theorem ofJson?_keeping [Faithful α] {s : Settings α} (hs : s.WordSized)
    {ps ms : List (String × Json.Value)} (hps : ps.Subperm s.plan.members)
    (hms : ms.Subperm (s.membersWith (.ofMembers ps)))
    (hfinite : s.FiniteIn (ms.map (·.1)) (ps.map (·.1))) :
    ofJson? (.ofMembers ms) = some (s.keeping (ms.map (·.1)) (ps.map (·.1))) := by
  have hfields := Json.Value.fields?_of_subperm (by simp [membersWith]) hms
  simp only [membersWith, List.map_cons, List.map_nil] at hfields
  have hquality := Json.Value.orDefault?_ite
    (fun h => Faithful.scalar?_ofScalar s.quality (hfinite.quality h))
    (default : Settings α).quality
  have htolerance := Json.Value.orDefault?_ite
    (fun h => Faithful.scalar?_ofScalar s.tolerance (hfinite.tolerance h))
    (default : Settings α).tolerance
  have hplan := Json.Value.orDefault?_ite
    (fun h => FitPlan.ofJson?_keeping hs.plan hps (hfinite.rate h)) (default : Settings α).plan
  have hestimators := Json.Value.orDefault?_ite (p := "n_estimators" ∈ ms.map (·.1))
    (fun _ => Json.Value.word64?_ofNat hs.estimators) (default : Settings α).estimators
  have hseed := Json.Value.orDefault?_ite (p := "seed" ∈ ms.map (·.1))
    (fun _ => nullable?_seedToJson hs.seed) (default : Settings α).seed
  simp only [ofJson?, hfields, Option.bind_eq_bind, Option.bind_some, hquality, htolerance, hplan,
    hestimators, hseed]
  rfl

theorem ofText_text {v : Json.Value} (hv : v.Plain) {s : Settings α} (h : ofJson? v = some s) :
    ofText v.text = .ok s := by
  rw [ofText, hv.read?_text, Option.bind_some, h]

/-- Settings with finite scalars come back from their document as they are.  From any other document
that is left of it, with fields taken out of the whole and of the plan in it and the others in any
order, the fields that are left come back, and the others have their defaults. -/
theorem ofText_keeping [Faithful α] {s : Settings α} (hs : s.WordSized) :
    ((DecimalText.exact s.quality).isFinite = true →
      (DecimalText.exact s.tolerance).isFinite = true →
      (DecimalText.exact s.plan.rate).isFinite = true → ofText s.toText = .ok s) ∧
    ∀ ps ms : List (String × Json.Value), ps.Subperm s.plan.members →
      ms.Subperm (s.membersWith (.ofMembers ps)) →
      s.FiniteIn (ms.map (·.1)) (ps.map (·.1)) →
      ofText (Json.Value.ofMembers ms).text = .ok (s.keeping (ms.map (·.1)) (ps.map (·.1))) := by
  have hleft : ∀ ps ms : List (String × Json.Value), ps.Subperm s.plan.members →
      ms.Subperm (s.membersWith (.ofMembers ps)) →
      s.FiniteIn (ms.map (·.1)) (ps.map (·.1)) →
      ofText (Json.Value.ofMembers ms).text = .ok (s.keeping (ms.map (·.1)) (ps.map (·.1))) := by
    intro ps ms hps hms hfinite
    have hplan : (Json.Value.ofMembers ps).Plain :=
      .members fun m hm => FitPlan.plain_members (hps.subset hm)
    have hplain : (Json.Value.ofMembers ms).Plain :=
      .members fun m hm => plain_membersWith hplan (hms.subset hm)
    exact ofText_text hplain (ofJson?_keeping hs hps hms hfinite)
  refine ⟨fun hquality htolerance hrate => ?_, hleft⟩
  have hwhole := hleft s.plan.members (s.membersWith s.plan.toJson) (.refl _) (.refl _)
    ⟨fun _ => hquality, fun _ => htolerance, fun _ _ => hrate⟩
  have hkept :
      s.keeping ((s.membersWith s.plan.toJson).map (·.1)) (s.plan.members.map (·.1)) = s := by
    simp [keeping, membersWith, FitPlan.keeping_members]
  rw [hkept] at hwhole
  exact hwhole

/-- Settings with the largest numbers that fit. -/
def largestNumbers : Settings Float where
  quality := 0.5
  tolerance := 0.25
  plan := ⟨"adam", 0.125, 18446744073709551615, 5, true⟩
  estimators := 18446744073709551615
  seed := some 18446744073709551615

/-- The whole document, and a document of the seed and two fields of the plan. -/
theorem ofText_keeping_largestNumbers :
    largestNumbers.WordSized ∧ ofText largestNumbers.toText = .ok largestNumbers ∧
      ofText (Json.Value.ofMembers [("seed", .ofNat 18446744073709551615),
          ("train", .ofMembers [("n_batches", .ofNat 5), ("method", .ofString "adam")])]).text =
        .ok { (default : Settings Float) with
          plan := { (FitPlan.default : FitPlan Float) with method := "adam", batches := 5 }
          seed := some 18446744073709551615 } := by
  have hsized : largestNumbers.WordSized :=
    ⟨⟨by decide, by decide⟩, by decide, fun n hn => by cases hn; decide⟩
  obtain ⟨hwhole, hleft⟩ := ofText_keeping hsized
  refine ⟨hsized, hwhole rfl rfl rfl, ?_⟩
  refine hleft [("n_batches", .ofNat 5), ("method", .ofString "adam")] _ ?_ ?_ ⟨?_, ?_, ?_⟩
  · exact ⟨_, List.Perm.swap _ _ _,
      .cons_cons _ (.cons _ (.cons _ (.cons_cons _ (.cons _ .slnil))))⟩
  · exact ⟨_, List.Perm.swap _ _ _,
      .cons _ (.cons _ (.cons_cons _ (.cons _ (.cons_cons _ .slnil))))⟩
  · simp
  · simp
  · simp

end Settings

end FeatureGraph
