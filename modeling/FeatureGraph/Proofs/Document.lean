import FeatureGraph.Proofs.JsonText
import FeatureGraph.Graph.Document

/-!
# Graph documents read back

The document of a graph is read as the columns and lists of that graph, if its numbers have 32
bits and its scalars are finite.

* The lemmas on `Json.Value` say that each decoder reads what its encoder has written.
* `Faithful` is the law of a scalar type: a finite scalar is the one nearest to the digits that
  are written for it.
* `Graph.Addressed` asks for numbers of 32 bits, and `Graph.Finite` for finite parameters.
* `ofText_toText` and `ofText_toText_of_not_finite` say when the document of a graph is read,
  and that `Graph.reloaded` is what it is read as.
-/

namespace FeatureGraph

/-! ## Values -/

namespace Json

/-- What has been written entry by entry is read entry by entry. -/
theorem mapM_map_eq_some {β γ δ : Type} {f : β → γ} {read? : γ → Option δ} {g : β → δ} {xs : List β}
    (h : ∀ x ∈ xs, read? (f x) = some (g x)) : (xs.map f).mapM read? = some (xs.map g) := by
  induction xs with
  | nil => rfl
  | cons x xs ih =>
    rw [List.map_cons, List.mapM_cons, h x (by simp), ih fun y hy => h y (by simp [hy])]
    rfl

/-- One entry that cannot be read spoils the list. -/
theorem mapM_eq_none {β γ : Type} {read? : β → Option γ} {xs : List β} {x : β} (hx : x ∈ xs)
    (h : read? x = none) : xs.mapM read? = none := by
  induction xs with
  | nil => cases hx
  | cons y ys ih =>
    rw [List.mapM_cons]
    rcases List.mem_cons.1 hx with rfl | hx
    · rw [h]
      rfl
    · rw [ih hx]
      cases read? y <;> rfl

@[simp] theorem Str.text?_ofString (s : String) : (Str.ofString s).text? = some s := by
  have hchars : (s.toList.map Piece.char).mapM Piece.char? = some (s.toList.map id) :=
    mapM_map_eq_some fun _ _ => rfl
  rw [text?, ofString, hchars, List.map_id, Option.map_some, String.ofList_toList]

namespace Value

variable {β : Type}

@[simp] theorem text?_ofString (s : String) : (ofString s).text? = some s := Str.text?_ofString s

theorem natBelow?_ofNat {limit n : Nat} (hn : n < limit) : natBelow? limit (ofNat n) = some n := by
  have hbelow : decide (n < limit) = true := decide_eq_true hn
  simp only [ofNat, natBelow?, Decimal.Numeral.significand, Decimal.Numeral.ofNat,
    List.append_nil, Decimal.ofDigits_digitsOf, hbelow]
  rfl

theorem word32?_ofNat {n : Nat} (hn : n < 1 <<< 32) : (ofNat n).word32? = some n :=
  natBelow?_ofNat hn

theorem word64?_ofNat {n : Nat} (hn : n < 1 <<< 64) : (ofNat n).word64? = some n :=
  natBelow?_ofNat hn

/-- A list is read back if each element is. -/
theorem list?_ofList {f : β → Value} {element? : Value → Option β} {xs : List β}
    (h : ∀ x ∈ xs, element? (f x) = some x) : list? element? (ofList f xs) = some xs := by
  have hall : (xs.map f).mapM element? = some (xs.map id) := mapM_map_eq_some h
  rw [ofList, list?, hall, List.map_id]

/-- The member of a name that occurs once. -/
theorem uniqueMember?_of_mem {ms : List (String × Value)} (hnodup : (ms.map (·.1)).Nodup)
    {m : String × Value} (hm : m ∈ ms) : uniqueMember? ms m.1 = some (some m.2) := by
  have hfilter : ms.filter (·.1 == m.1) = [m] := by
    induction ms with
    | nil => cases hm
    | cons first ms ih =>
      rw [List.map_cons, List.nodup_cons] at hnodup
      rcases List.mem_cons.1 hm with rfl | hm
      · rw [List.filter_cons_of_pos (by simp), List.filter_eq_nil_iff.2]
        intro other hother heq
        exact hnodup.1 (List.mem_map.2 ⟨other, hother, eq_of_beq heq⟩)
      · have hne : first.1 ≠ m.1 := fun heq => hnodup.1 (List.mem_map.2 ⟨m, hm, heq.symm⟩)
        rw [List.filter_cons_of_neg (by simp [hne]), ih hnodup.2 hm]
  rw [uniqueMember?, hfilter]

theorem uniqueMember?_of_notMem {ms : List (String × Value)} {name : String}
    (hname : name ∉ ms.map (·.1)) : uniqueMember? ms name = some none := by
  have hfilter : ms.filter (·.1 == name) = [] := by
    refine List.filter_eq_nil_iff.2 fun m hm heq => ?_
    exact hname (List.mem_map.2 ⟨m, hm, eq_of_beq heq⟩)
  rw [uniqueMember?, hfilter]

/-- Of a record that has lost some fields, the others are read back, in whatever order they
stand. -/
theorem fields?_of_subperm {full ms : List (String × Value)} (hnodup : (full.map (·.1)).Nodup)
    (hms : ms.Subperm full) :
    fields? (full.map (·.1)) (ofMembers ms) =
      some (full.map fun m => if m.1 ∈ ms.map (·.1) then some m.2 else none) := by
  have hnamed : (ms.map fun m => (Str.ofString m.1, m.2)).mapM
      (fun m => m.1.text?.map (·, m.2)) = some (ms.map id) :=
    mapM_map_eq_some fun m _ => by rw [Str.text?_ofString]; rfl
  have hnodup' : (ms.map (·.1)).Nodup := by
    obtain ⟨kept, hperm, hsublist⟩ := hms
    exact (hperm.map _).nodup_iff.1 ((hsublist.map _).nodup hnodup)
  have hfound : (full.map (·.1)).mapM (uniqueMember? ms) =
      some (full.map fun m => if m.1 ∈ ms.map (·.1) then some m.2 else none) := by
    refine mapM_map_eq_some fun m hm => ?_
    split
    · rename_i hname
      obtain ⟨m', hm', hkey⟩ := List.mem_map.1 hname
      obtain rfl : m' = m := List.inj_on_of_nodup_map hnodup (hms.subset hm') hm hkey
      exact uniqueMember?_of_mem hnodup' hm'
    · rename_i hname
      exact uniqueMember?_of_notMem hname
  rw [List.map_id] at hnamed
  change (((ms.map fun m => (Str.ofString m.1, m.2)).mapM fun m => m.1.text?.map (·, m.2)) >>=
    fun named => (full.map (·.1)).mapM (uniqueMember? named)) = _
  rw [hnamed]
  exact hfound

/-- The fields of a record are read back as they stand. -/
theorem fields?_ofMembers {ms : List (String × Value)} (hnodup : (ms.map (·.1)).Nodup) :
    fields? (ms.map (·.1)) (ofMembers ms) = some (ms.map fun m => some m.2) := by
  rw [fields?_of_subperm hnodup (List.Subperm.refl ms)]
  exact congrArg some (List.map_congr_left fun m hm => if_pos (List.mem_map_of_mem hm))

theorem plain_ofNat (n : Nat) : (ofNat n).Plain := .number (Decimal.Numeral.wellFormed_ofNat n)

theorem plain_ofList {f : β → Value} (hf : ∀ x, (f x).Plain) (xs : List β) :
    (ofList f xs).Plain := by
  refine .array fun v hv => ?_
  obtain ⟨x, _, rfl⟩ := List.mem_map.1 hv
  exact hf x

/-- A pair is read back part by part. -/
theorem pair?_array {γ : Type} {first? : Value → Option β} {second? : Value → Option γ}
    {a b : Value} {x : β} {y : γ} (ha : first? a = some x) (hb : second? b = some y) :
    pair? first? second? (.array [a, b]) = some (x, y) := by
  rw [pair?, ha, hb]
  rfl

end Value

end Json

/-! ## Scalars -/

/-- Whether a value has digits. -/
def Decimal.Exact.isFinite : Decimal.Exact → Bool
  | .finite .. => true
  | _ => false

/-- The law of a scalar type: of the digits that are written for a finite scalar, that scalar is
the nearest. -/
class Faithful (α : Type) [DecimalText α] : Prop where
  scalar?_ofScalar : ∀ a : α, (DecimalText.exact a).isFinite = true →
    (Json.Value.ofScalar a).scalar? = some a

section Scalars

variable {α : Type} [DecimalText α]

/-- A scalar that is not finite is written as null. -/
theorem ofScalar_of_not_finite {a : α} (ha : (DecimalText.exact a).isFinite = false) :
    Json.Value.ofScalar a = .null := by
  rw [Json.Value.ofScalar]
  cases hexact : DecimalText.exact a with
  | finite => rw [hexact] at ha; cases ha
  | _ => rfl

theorem plain_ofScalar (a : α) : (Json.Value.ofScalar a).Plain := by
  rw [Json.Value.ofScalar]
  split
  · rename_i n hn
    exact .number (Decimal.wellFormed_numeral? hn)
  · exact .null

end Scalars

/-! ## Primitives -/

theorem Primitive.ofJson?_toJson {op : Primitive}
    (hop : ∀ column, op = .input column → column < 1 <<< 32) : ofJson? op.toJson = some op := by
  cases op with
  | input column =>
    have hcolumn := Json.Value.word32?_ofNat (hop column rfl)
    have hfields : Json.Value.fields? ["column"] (.ofMembers [("column", .ofNat column)]) =
        some [some (.ofNat column)] := Json.Value.fields?_ofMembers (by simp)
    have hpayload : inputOfJson? (some (.ofMembers [("column", .ofNat column)])) =
        some (input column) := by
      simp only [inputOfJson?, hfields, hcolumn, Json.Value.required?, Option.bind_eq_bind,
        Option.bind_some, Option.pure_def]
    have hword : Json.Value.alternative? (toJson (input column)) =
        some ("Input", some (.ofMembers [("column", .ofNat column)])) := by
      simp only [toJson, Json.Value.ofMembers, List.map_cons, List.map_nil,
        Json.Value.alternative?, Json.Str.text?_ofString, Option.map_some]
    rw [ofJson?, hword]
    exact hpayload
  | _ => decide

theorem Primitive.plain_toJson (op : Primitive) : op.toJson.Plain := by
  cases op with
  | input column =>
    refine .members fun m hm => ?_
    rw [List.mem_singleton.1 hm]
    refine .members fun m hm => ?_
    rw [List.mem_singleton.1 hm]
    exact Json.Value.plain_ofNat column
  | _ => exact .string _

/-! ## Tables -/

namespace NodeTable

theorem labelOfJson?_labelToJson (label : String) :
    labelOfJson? (labelToJson label) = some label := by
  have hfields : Json.Value.fields? ["name"] (labelToJson label) =
      some [some (.ofString label)] := Json.Value.fields?_ofMembers (by simp)
  simp only [labelOfJson?, hfields, Json.Value.required?, Json.Value.text?_ofString,
    Option.bind_eq_bind, Option.bind_some]

theorem spanOfJson?_spanToJson {s : Span} (hstart : s.start < 1 <<< 32)
    (hcount : s.count < 1 <<< 32) : spanOfJson? (spanToJson s) = some s := by
  rw [spanOfJson?, spanToJson,
    Json.Value.pair?_array (Json.Value.word32?_ofNat hstart) (Json.Value.word32?_ofNat hcount)]
  rfl

theorem columnOfJson?_ofList {β : Type} {f : β → Json.Value} {element? : Json.Value → Option β}
    {xs : Array β} (h : ∀ x ∈ xs, element? (f x) = some x) :
    columnOfJson? element? (some (.ofList f xs.toList)) = some xs := by
  rw [columnOfJson?, Json.Value.required?,
    Json.Value.list?_ofList fun x hx => h x (Array.mem_toList_iff.1 hx)]
  rfl

variable {α : Type}

/-- Numbers of 32 bits. -/
structure Addressed (t : NodeTable α) : Prop where
  columns : ∀ column, .input column ∈ t.ops → column < 1 <<< 32
  parentIds : ∀ p ∈ t.parentIds, p < 1 <<< 32
  spans : ∀ s ∈ t.parentSpans, s.start < 1 <<< 32 ∧ s.count < 1 <<< 32

variable [DecimalText α]

/-- Finite parameters. -/
def Finite (t : NodeTable α) : Prop :=
  ∀ ps ∈ t.params, ∀ a ∈ ps, (DecimalText.exact a).isFinite = true

variable {t : NodeTable α}

theorem fields?_toJson (t : NodeTable α) :
    Json.Value.fields? ["ops", "meta", "parents_flat", "parents_ranges", "params", "active",
      "params_constant", "dropped"] t.toJson =
    some [some (.ofList Primitive.toJson t.ops.toList),
      some (.ofList labelToJson t.labels.toList),
      some (.ofList Json.Value.ofNat t.parentIds.toList),
      some (.ofList spanToJson t.parentSpans.toList),
      some (.ofList (Json.Value.ofList Json.Value.ofScalar) t.params.toList),
      some (.ofList Json.Value.bool t.active.toList),
      some (.ofList Json.Value.bool t.constant.toList),
      some (.ofList Json.Value.bool t.dropped.toList)] :=
  Json.Value.fields?_ofMembers (by simp)

/-- A table is read back but for the names in use. -/
theorem ofJson?_toJson [Faithful α] (ht : t.Addressed) (hfinite : t.Finite) :
    ofJson? t.toJson = some { t with names := [] } := by
  have hops : columnOfJson? Primitive.ofJson? (some (.ofList Primitive.toJson t.ops.toList)) =
      some t.ops :=
    columnOfJson?_ofList fun op hop => Primitive.ofJson?_toJson fun column heq =>
      ht.columns column (heq ▸ hop)
  have hlabels : columnOfJson? labelOfJson? (some (.ofList labelToJson t.labels.toList)) =
      some t.labels :=
    columnOfJson?_ofList fun label _ => labelOfJson?_labelToJson label
  have hids : columnOfJson? Json.Value.word32?
      (some (.ofList Json.Value.ofNat t.parentIds.toList)) = some t.parentIds :=
    columnOfJson?_ofList fun p hp => Json.Value.word32?_ofNat (ht.parentIds p hp)
  have hspans : columnOfJson? spanOfJson? (some (.ofList spanToJson t.parentSpans.toList)) =
      some t.parentSpans :=
    columnOfJson?_ofList fun s hs => spanOfJson?_spanToJson (ht.spans s hs).1 (ht.spans s hs).2
  have hparams : columnOfJson? (Json.Value.list? Json.Value.scalar?)
      (some (.ofList (Json.Value.ofList Json.Value.ofScalar) t.params.toList)) = some t.params :=
    columnOfJson?_ofList fun ps hps => Json.Value.list?_ofList fun a ha =>
      Faithful.scalar?_ofScalar a (hfinite ps hps a ha)
  have hflags : ∀ flags : Array Bool, columnOfJson? Json.Value.bool?
      (some (.ofList Json.Value.bool flags.toList)) = some flags :=
    fun _ => columnOfJson?_ofList fun _ _ => rfl
  simp only [ofJson?, fields?_toJson, hops, hlabels, hids, hspans, hparams, hflags,
    Option.bind_eq_bind, Option.bind_some, Option.pure_def]

/-- A table with a parameter that is not finite is not read back. -/
theorem ofJson?_toJson_of_not_finite (hfinite : ¬t.Finite) :
    ofJson? t.toJson = (none : Option (NodeTable α)) := by
  obtain ⟨ps, hps, a, ha, hnot⟩ : ∃ ps ∈ t.params, ∃ a ∈ ps,
      ¬(DecimalText.exact a).isFinite = true := by
    simpa [Finite] using hfinite
  have hscalar : (Json.Value.ofScalar a).scalar? = (none : Option α) := by
    rw [ofScalar_of_not_finite (Bool.eq_false_iff.2 hnot)]
    rfl
  have hlist : Json.Value.list? Json.Value.scalar? (.ofList Json.Value.ofScalar ps) =
      (none : Option (List α)) :=
    Json.mapM_eq_none (List.mem_map_of_mem ha) hscalar
  have hparams : columnOfJson? (Json.Value.list? Json.Value.scalar?)
      (some (.ofList (Json.Value.ofList Json.Value.ofScalar) t.params.toList)) =
      (none : Option (Array (List α))) := by
    have hall : Json.Value.list? (Json.Value.list? Json.Value.scalar?)
        (.ofList (Json.Value.ofList Json.Value.ofScalar) t.params.toList) =
        (none : Option (List (List α))) :=
      Json.mapM_eq_none (List.mem_map_of_mem (Array.mem_toList_iff.2 hps)) hlist
    rw [columnOfJson?, Json.Value.required?, hall]
    rfl
  simp only [ofJson?, fields?_toJson, hparams, Option.bind_eq_bind, Option.bind_some,
    Option.bind_none, Option.bind_fun_none]

theorem plain_toJson (t : NodeTable α) : t.toJson.Plain := by
  refine .members fun m hm => ?_
  simp only [List.mem_cons, List.not_mem_nil, or_false] at hm
  rcases hm with rfl | rfl | rfl | rfl | rfl | rfl | rfl | rfl
  · exact Json.Value.plain_ofList Primitive.plain_toJson _
  · refine Json.Value.plain_ofList (fun label => .members fun m hm => ?_) _
    rw [List.mem_singleton.1 hm]
    exact .string label
  · exact Json.Value.plain_ofList Json.Value.plain_ofNat _
  · refine Json.Value.plain_ofList (fun s => .array fun v hv => ?_) _
    rcases List.mem_pair.1 hv with rfl | rfl
    · exact Json.Value.plain_ofNat _
    · exact Json.Value.plain_ofNat _
  · exact Json.Value.plain_ofList (Json.Value.plain_ofList plain_ofScalar) _
  · exact Json.Value.plain_ofList .bool _
  · exact Json.Value.plain_ofList .bool _
  · exact Json.Value.plain_ofList .bool _

end NodeTable

/-! ## Graphs -/

namespace Graph

variable {α : Type}

/-- Numbers of 32 bits. -/
structure Addressed (g : Graph α) : Prop where
  table : g.table.Addressed
  nextColumn : g.nextColumn < 1 <<< 32
  outputs : ∀ id ∈ g.outputs, id < 1 <<< 32
  targets : ∀ id ∈ g.targets, id < 1 <<< 32
  objectives : ∀ id ∈ g.objectives, id < 1 <<< 32

/-- The graph without its caches, and with the names of its nodes as the names in use. -/
def reloaded (g : Graph α) : Graph α :=
  { g with table := g.table.refreshNames, tape := none, values := {} }

variable [DecimalText α] {g : Graph α}

theorem fields?_toJson (g : Graph α) :
    Json.Value.fields? ["registry", "n_inputs", "outputs", "targets", "objectives"] g.toJson =
    some [some g.table.toJson, some (.ofNat g.nextColumn),
      some (.ofList Json.Value.ofNat g.outputs), some (.ofList Json.Value.ofNat g.targets),
      some (.ofList Json.Value.ofNat g.objectives)] :=
  Json.Value.fields?_ofMembers (by simp)

theorem ofJson?_toJson [Faithful α] (hg : g.Addressed) (hfinite : g.table.Finite) :
    ofJson? g.toJson = some g.reloaded := by
  have hids : ∀ ids : List NodeId, (∀ id ∈ ids, id < 1 <<< 32) →
      Json.Value.list? Json.Value.word32? (.ofList Json.Value.ofNat ids) = some ids :=
    fun _ hids => Json.Value.list?_ofList fun id hid => Json.Value.word32?_ofNat (hids id hid)
  simp only [ofJson?, fields?_toJson, Json.Value.required?,
    NodeTable.ofJson?_toJson hg.table hfinite, Json.Value.word32?_ofNat hg.nextColumn,
    hids _ hg.outputs, hids _ hg.targets, hids _ hg.objectives, Option.bind_eq_bind,
    Option.bind_some, Option.pure_def]
  rfl

theorem plain_toJson (g : Graph α) : g.toJson.Plain := by
  have hids : ∀ ids : List NodeId, (Json.Value.ofList Json.Value.ofNat ids).Plain :=
    Json.Value.plain_ofList Json.Value.plain_ofNat
  refine .members fun m hm => ?_
  simp only [List.mem_cons, List.not_mem_nil, or_false] at hm
  rcases hm with rfl | rfl | rfl | rfl | rfl
  · exact g.table.plain_toJson
  · exact Json.Value.plain_ofNat _
  · exact hids _
  · exact hids _
  · exact hids _

/-- The document of a graph with finite parameters is read as that graph without its caches. -/
theorem ofText_toText [Faithful α] (hg : g.Addressed) (hfinite : g.table.Finite) :
    ofText g.toText = .ok g.reloaded := by
  rw [ofText, toText, g.plain_toJson.read?_text, Option.bind_some, ofJson?_toJson hg hfinite]

/-- The document of a graph with another parameter is refused. -/
theorem ofText_toText_of_not_finite (hfinite : ¬g.table.Finite) :
    (ofText g.toText : Outcome GraphError (Graph α)) =
      Outcome.fail (.serialization "not a graph document") := by
  have hnone : ofJson? g.toJson = (none : Option (Graph α)) := by
    simp only [ofJson?, fields?_toJson, Json.Value.required?,
      NodeTable.ofJson?_toJson_of_not_finite hfinite, Option.bind_eq_bind, Option.bind_some,
      Option.bind_none]
  rw [ofText, toText, g.plain_toJson.read?_text, Option.bind_some, hnone]

end Graph

end FeatureGraph
