import FeatureGraph.Arith.Double
import FeatureGraph.Graph.Audit
import FeatureGraph.Proofs.Numeral
import FeatureGraph.Proofs.Operation
import FeatureGraph.Proofs.Tour

/-!
# Traces are complete

The trace of a node is the text of a tour of all that the node needs, one line for each arrival.

* `NodeTable.Auditable` is what a trace asks of a table.  Cycles are allowed.
* `Graph.Shows` says what the line of an arrival shows.  `meets_auditEntry` is one description,
  `meets_auditFrom` the walk, and `exists_audit` the walk from the start.  Each description leaves
  fewer nodes unmet, and there are always fewer of these than levels left.
* `OneLine` is about the text: `Shows.oneLine` says that nothing in a line breaks it, and
  `splitOn_traceText` that the lines can be told apart.
* `trace_complete` puts the walk and the text together.
-/

namespace FeatureGraph

variable {ε α : Type}

open Outcome (Meets meets_ok meets_mapM)

/-! ## Tables that can be traced -/

/-- Each node has a name and parameters, and inputs have no parents. -/
structure NodeTable.Auditable (t : NodeTable α) : Prop extends t.Linked where
  labels : t.size ≤ t.labels.size
  params : t.size ≤ t.params.size
  inputs : ∀ id column, t.ops[id]? = some (.input column) → t.parentList id = []

theorem NodeTable.WellFormed.auditable {t : NodeTable α} (ht : t.WellFormed) : t.Auditable where
  toLinked := ht.linked
  labels := ht.labels.ge
  params := ht.params.ge
  inputs id column hop := by
    have harity := ht.arity id _ hop
    simpa [Primitive.admits, Primitive.arity?] using harity

namespace Graph

variable {g : Graph α} {id : NodeId}

theorem checkNode_of_lt (hid : id < g.size) : g.checkNode id = .ok () :=
  checkNode_eq_ok.2 hid

theorem exists_op (hid : id < g.size) : ∃ op, g.op id = .ok op :=
  ⟨_, op_eq_ok.2 (Array.getElem?_eq_getElem hid)⟩

theorem exists_name (hg : g.table.Auditable) (hid : id < g.size) :
    ∃ name, g.name id = .ok name := by
  have hlabel : id < g.table.labels.size := Nat.lt_of_lt_of_le hid hg.labels
  exact ⟨_, by rw [Graph.name, checkNode_of_lt hid, Outcome.ok_bind, Outcome.fetch_of_lt hlabel]⟩

theorem exists_params (hg : g.table.Auditable) (hid : id < g.size) :
    ∃ ps, g.params id = .ok ps := by
  have hparams : id < g.table.params.size := Nat.lt_of_lt_of_le hid hg.params
  exact ⟨_, by rw [Graph.params, checkNode_of_lt hid, Outcome.ok_bind, Outcome.fetch_of_lt hparams]⟩

theorem parents_eq_parentList (hg : g.table.Linked) (hid : id < g.size) :
    g.parents id = .ok (g.table.parentList id) := by
  rw [Graph.parents, checkNode_of_lt hid, Outcome.ok_bind, hg.parents_eq hid]

/-! ## The walk -/

/-- What the line of an arrival shows: a level for a reference, and else the node, with the names of
its parents. -/
inductive Shows (g : Graph α) : Arrival → AuditLine α → Prop
  | reference {s : Stop} {level : Nat} : Shows g ⟨s, some level⟩ ⟨s.path, .reference level⟩
  | input {s : Stop} {name : String} {column : Nat} (hname : g.name s.node = .ok name)
      (hop : g.op s.node = .ok (.input column)) :
      Shows g ⟨s, none⟩ ⟨s.path, .input name (g.auditValue s.node) column⟩
  | node {s : Stop} {name : String} {op : Primitive} {args : List String} {params : List α}
      (hname : g.name s.node = .ok name) (hop : g.op s.node = .ok op)
      (hinner : ∀ column, op ≠ .input column)
      (hargs : List.Forall₂ (fun p arg => g.name p = .ok arg) (g.table.parentList s.node) args)
      (hparams : g.params s.node = .ok params) :
      Shows g ⟨s, none⟩ ⟨s.path,
        .node name (g.auditValue s.node) op.name args params (g.isConstant s.node)⟩

/-- A node that is there can be described, and the walk goes on with its parents. -/
theorem meets_auditEntry (hg : g.table.Auditable) {s : Stop} (hs : s.node < g.size) :
    Meets (fun _ => False)
      (fun e => g.Shows ⟨s, none⟩ ⟨s.path, e.1⟩ ∧ e.2 = g.table.parentList s.node)
      (g.auditEntry s.node : Outcome ε (AuditEntry α × List NodeId)) := by
  obtain ⟨name, hname⟩ := exists_name hg hs
  obtain ⟨ps, hps⟩ := exists_params hg hs
  obtain ⟨op, hop⟩ := exists_op hs
  have hargs : Meets (fun _ => False)
      (List.Forall₂ (fun p arg => g.name p = .ok arg) (g.table.parentList s.node))
      ((g.table.parentList s.node).mapM (fun p => orElse "?" (g.name p)) :
        Outcome ε (List String)) := by
    refine meets_mapM fun p hp => ?_
    obtain ⟨arg, harg⟩ := exists_name hg (hg.known _ hs p hp)
    rw [harg]
    exact meets_ok rfl
  unfold auditEntry
  rw [hname, hps, hop, parents_eq_parentList hg.toLinked hs]
  cases op with
  | input column => exact meets_ok ⟨.input hname hop, (hg.inputs _ _ (op_eq_ok.1 hop)).symm⟩
  | _ => exact hargs.bind fun args hargs => meets_ok ⟨.node hname hop nofun hargs hps, rfl⟩

/-- The parents, with the paths to them, are the stops to go on with. -/
theorem parentPaths_eq (t : NodeTable α) (s : Stop) :
    parentPaths s.path (t.parentList s.node) =
      (t.onward s).map fun next => (next.node, next.path) := by
  simp [parentPaths, NodeTable.onward, Function.comp_def]

/-- One walk goes on to another one by a tour of some stops, and writes a line for each arrival. -/
def Toured (g : Graph α) (w : AuditWalk α) (stops : List Stop) (w' : AuditWalk α) : Prop :=
  ∃ arrivals lines, g.table.Tour w.seen stops arrivals w'.seen ∧ w'.lines = w.lines ++ lines ∧
    List.Forall₂ g.Shows arrivals lines

theorem Toured.followedBy {w w' w'' : AuditWalk α} {stop : Stop} {stops : List Stop}
    (h : g.Toured w [stop] w') (h' : g.Toured w' stops w'') : g.Toured w (stop :: stops) w'' := by
  obtain ⟨arrivals, lines, htour, hlines, hshows⟩ := h
  obtain ⟨arrivals', lines', htour', hlines', hshows'⟩ := h'
  refine ⟨arrivals ++ arrivals', lines ++ lines', htour.followedBy htour', ?_, ?_⟩
  · rw [hlines', hlines, List.append_assoc]
  · exact List.rel_append hshows hshows'

end Graph

/-- The nodes below a number that a walk has not met. -/
def AuditWalk.unmet (w : AuditWalk α) (n : Nat) : Finset NodeId :=
  (Finset.range n).filter fun id => w.seen.lookup id = none

namespace Graph

variable {g : Graph α}

/-- What has been met stays met. -/
theorem Toured.unmet_subset {w w' : AuditWalk α} {stops : List Stop} (h : g.Toured w stops w')
    (n : Nat) : w'.unmet n ⊆ w.unmet n := by
  obtain ⟨_, _, htour, _, _⟩ := h
  intro id hid
  obtain ⟨hlt, hnew⟩ := Finset.mem_filter.1 hid
  refine Finset.mem_filter.2 ⟨hlt, lookup_eq_none.2 fun hseen => ?_⟩
  exact lookup_eq_none.1 hnew (htour.keeps hseen)

/-- Meeting a node leaves fewer nodes to meet. -/
theorem card_unmet_cons_lt {w : AuditWalk α} {n : Nat} {id : NodeId} (hid : id < n)
    (hnew : w.seen.lookup id = none) (level : Nat) (lines : List (AuditLine α)) :
    ((⟨(id, level) :: w.seen, lines⟩ : AuditWalk α).unmet n).card < (w.unmet n).card := by
  refine Finset.card_lt_card ⟨fun p hp => ?_, fun hsub => ?_⟩
  · obtain ⟨hlt, hseen⟩ := Finset.mem_filter.1 hp
    refine Finset.mem_filter.2 ⟨hlt, lookup_eq_none.2 fun hbefore => ?_⟩
    exact lookup_eq_none.1 hseen (List.mem_cons_of_mem _ hbefore)
  · have hmem : id ∈ w.unmet n := Finset.mem_filter.2 ⟨Finset.mem_range.2 hid, hnew⟩
    have hstill := (Finset.mem_filter.1 (hsub hmem)).2
    exact lookup_eq_none.1 hstill (by simp)

/-- If it tours each stop alone, a walk tours them one after the other. -/
theorem meets_auditFrom_stops {depth : Nat}
    (hstep : ∀ (s : Stop) (w : AuditWalk α), s.node < g.size → (w.unmet g.size).card < depth →
      Meets (fun _ => False) (g.Toured w [s])
        (g.auditFrom depth w (s.node, s.path) : Outcome ε (AuditWalk α)))
    {stops : List Stop} (hstops : ∀ s ∈ stops, s.node < g.size) {w : AuditWalk α}
    (hdepth : (w.unmet g.size).card < depth) :
    Meets (fun _ => False) (g.Toured w stops)
      ((stops.map fun s => (s.node, s.path)).foldlM (g.auditFrom depth) w :
        Outcome ε (AuditWalk α)) := by
  induction stops generalizing w with
  | nil => exact meets_ok ⟨[], [], .done _, (List.append_nil _).symm, .nil⟩
  | cons s stops ih =>
    obtain ⟨hs, hrest⟩ := List.forall_mem_cons.1 hstops
    rw [List.map_cons, List.foldlM_cons]
    refine (hstep s w hs hdepth).bind fun w' hw' => ?_
    have hdepth' : (w'.unmet g.size).card < depth :=
      Nat.lt_of_le_of_lt (Finset.card_le_card (hw'.unmet_subset _)) hdepth
    exact (ih hrest hdepth').mono fun w'' _ hw'' => hw'.followedBy hw''

/-- A walk with more levels left than there are nodes to meet makes a tour from its node. -/
theorem meets_auditFrom (hg : g.table.Auditable) (depth : Nat) {s : Stop} (hs : s.node < g.size)
    {w : AuditWalk α} (hdepth : (w.unmet g.size).card < depth) :
    Meets (fun _ => False) (g.Toured w [s])
      (g.auditFrom depth w (s.node, s.path) : Outcome ε (AuditWalk α)) := by
  induction depth generalizing s w with
  | zero => exact absurd hdepth (Nat.not_lt_zero _)
  | succ depth ih =>
    rw [auditFrom]
    split
    · rename_i level hknown
      exact meets_ok ⟨_, _, .again hknown (.done _), rfl, .cons .reference .nil⟩
    · rename_i hnew
      refine (meets_auditEntry hg hs).bind ?_
      rintro ⟨entry, _⟩ ⟨hshows, rfl⟩
      have honward : ∀ next ∈ g.table.onward s, next.node < g.size := fun next hnext =>
        hg.known _ hs _ (NodeTable.mem_parentList_of_mem_onward hnext)
      -- Describing the node costs one level, and one node less is left to meet.
      have hless := Nat.lt_of_lt_of_le
        (card_unmet_cons_lt hs hnew (s.path.length + 1) (w.lines ++ [⟨s.path, entry⟩]))
        (Nat.le_of_lt_succ hdepth)
      dsimp only
      rw [parentPaths_eq]
      refine (meets_auditFrom_stops (fun s w hs hw => ih hs hw) honward hless).mono ?_
      rintro w' - ⟨arrivals, lines, htour, hlines, hrest⟩
      refine ⟨_, ⟨s.path, entry⟩ :: lines, .first hnew htour (.done _), ?_, ?_⟩
      · rw [hlines, List.append_assoc, List.singleton_append]
      · rw [List.append_nil]
        exact .cons hshows hrest

/-- The lines of a trace are those of a tour of all that its node needs. -/
theorem exists_audit (hg : g.table.Auditable) {target : NodeId} (htarget : target < g.size) :
    ∃ lines arrivals, (g.audit target : Outcome ε (List (AuditLine α))) = .ok lines ∧
      List.Forall₂ g.Shows arrivals lines ∧ g.table.Surveyed target arrivals := by
  have hstart : (({} : AuditWalk α).unmet g.size).card < g.size + 2 := by
    have hcard := Finset.card_filter_le (Finset.range g.size)
      fun id => ([] : List (NodeId × Nat)).lookup id = none
    rw [Finset.card_range] at hcard
    exact Nat.lt_of_le_of_lt hcard (by omega)
  obtain ⟨w, hw, arrivals, lines, htour, hlines, hshows⟩ :=
    (meets_auditFrom (ε := ε) hg (g.size + 2) (s := ⟨target, none, []⟩) htarget hstart).exists_ok
  refine ⟨w.lines, arrivals, ?_, ?_, htour.complete⟩
  · rw [audit, hw, Outcome.ok_bind, Outcome.pure_eq_ok]
  · rw [hlines]
    exact hshows

end Graph

/-! ## Lines of text -/

theorem exists_of_mem_right {β γ : Type} {R : β → γ → Prop} {l : List β} {u : List γ}
    (h : List.Forall₂ R l u) {c : γ} (hc : c ∈ u) : ∃ b ∈ l, R b c := by
  induction h with
  | nil => cases hc
  | cons hR _ ih =>
    rcases List.mem_cons.1 hc with rfl | hc
    · exact ⟨_, by simp, hR⟩
    · obtain ⟨b, hb, hR⟩ := ih hc
      exact ⟨b, List.mem_cons_of_mem _ hb, hR⟩

/-- No line feed stands in the text. -/
def OneLine (s : String) : Prop := '\n' ∉ s.toList

instance : DecidablePred OneLine := fun s => inferInstanceAs (Decidable ('\n' ∉ s.toList))

@[simp] theorem oneLine_append {s u : String} : OneLine (s ++ u) ↔ OneLine s ∧ OneLine u := by
  simp [OneLine]

theorem oneLine_intercalate {separator : String} {l : List String} (hseparator : OneLine separator)
    (h : ∀ s ∈ l, OneLine s) : OneLine (separator.intercalate l) := by
  induction l with
  | nil => exact (by decide : OneLine "")
  | cons s l ih =>
    obtain ⟨hs, hl⟩ := List.forall_mem_cons.1 h
    cases l with
    | nil => rwa [String.intercalate_singleton]
    | cons u l =>
      rw [String.intercalate_cons_cons, oneLine_append, oneLine_append]
      exact ⟨⟨hs, hseparator⟩, ih hl⟩

/-- A line feed is not a digit. -/
theorem lineFeed_notMem {ds : List Char} (h : ∀ c ∈ ds, c.isDigit = true) : '\n' ∉ ds :=
  fun hmem => absurd (h _ hmem) (by decide)

@[simp] theorem oneLine_repr (n : Nat) : OneLine n.repr := by
  rw [OneLine, Nat.toList_repr]
  exact lineFeed_notMem Decimal.isDigit_digitsOf

@[simp] theorem Primitive.oneLine_name (op : Primitive) : OneLine op.name := by
  cases op <;> simp [Primitive.name, OneLine]

namespace Decimal

/-- Only digits stand before and behind the point. -/
theorem isDigit_pointed (places n : Nat) :
    (∀ c ∈ (pointed places n).1, c.isDigit = true) ∧
      ∀ c ∈ (pointed places n).2, c.isDigit = true := by
  have hpadded : ∀ k, ∀ c ∈ List.replicate k '0' ++ digitsOf n, c.isDigit = true := by
    intro k c hc
    exact (List.mem_append.1 hc).elim (Digits.isDigit_replicate_zero k c) (isDigit_digitsOf c)
  exact ⟨fun c hc => hpadded _ c (List.mem_of_mem_take hc),
    fun c hc => hpadded _ c (List.mem_of_mem_drop hc)⟩

@[simp] theorem oneLine_fixed (places : Nat) (x : Exact) : OneLine (x.fixed places) := by
  cases x with
  | notANumber => exact (by decide : OneLine "NaN")
  | infinite negative =>
    cases negative with
    | false => exact (by decide : OneLine "inf")
    | true => exact (by decide : OneLine "-inf")
  | finite negative m q =>
    have hdigits := isDigit_pointed places (roundDiv (scaledRatio m q (-(places : Int))).1
      (scaledRatio m q (-(places : Int))).2)
    have hwhole := lineFeed_notMem hdigits.1
    have hfraction := lineFeed_notMem hdigits.2
    simp only [OneLine, Exact.fixed, Numeral.text, Numeral.toList, String.toList_ofList]
    simp only [List.mem_append, not_or, Numeral.exponentToList, List.not_mem_nil,
      not_false_eq_true, and_true]
    refine ⟨⟨?_, hwhole⟩, ?_⟩
    · split <;> simp
    · split
      · simp
      · simpa using hfraction

end Decimal

section Text

variable [DecimalText α]

@[simp] theorem AuditValue.oneLine_text (value : AuditValue α) : OneLine value.text := by
  cases value <;> simp [AuditValue.text, toString] <;> decide

theorem oneLine_branches (path : List Bool) : OneLine (branches path) := by
  fun_induction branches path with
  | case1 => decide
  | case2 => decide
  | case3 => decide
  | case4 last path _ ih =>
    refine oneLine_append.2 ⟨?_, ih⟩
    cases last <;> decide

theorem oneLine_paramsText (params : List α) (constant : Bool) :
    OneLine (paramsText params constant) := by
  unfold paramsText
  split
  · decide
  · have hbody : OneLine (", ".intercalate
        (params.map fun p => (DecimalText.exact p).fixed 4)) :=
      oneLine_intercalate (by decide) (by simp)
    cases constant <;> simp [hbody] <;> decide

namespace Graph

variable {g : Graph α}

/-- What stands in the line of an arrival, behind the branches: the level that is referred to, or
else the level of the arrival itself and the name of its node. -/
inductive Written (g : Graph α) : Arrival → String → Prop
  | reference {s : Stop} {level : Nat} :
      Written g ⟨s, some level⟩ (branches s.path ++ s!"-> (Ref to L{level})")
  | description {s : Stop} {name : String} (hname : g.name s.node = .ok name) (rest : String) :
      Written g ⟨s, none⟩ (branches s.path ++ s!"[L{s.level}] {name}" ++ rest)

theorem Shows.written {a : Arrival} {line : AuditLine α} (h : g.Shows a line) :
    g.Written a line.text := by
  cases h with
  | reference => exact .reference
  | @input s name column hname hop =>
    have hline := Written.description hname s!"{(g.auditValue s.node).text} -> X[:, {column}]"
    simpa [AuditLine.text, AuditLine.level, Stop.level, toString, String.append_assoc] using hline
  | @node s name op args params hname hop hinner hargs hparams =>
    have hline := Written.description hname
      (s!"{(g.auditValue s.node).text} = {op.name}(" ++ ", ".intercalate args ++ ")" ++
        paramsText params (g.isConstant s.node))
    simpa [AuditLine.text, AuditLine.level, Stop.level, toString, String.append_assoc] using hline

/-- Over names without line feeds nothing in a line breaks it. -/
theorem Shows.oneLine (hnames : ∀ id name, g.name id = .ok name → OneLine name) {a : Arrival}
    {line : AuditLine α} (h : g.Shows a line) : OneLine line.text := by
  cases h with
  | reference =>
    simp only [AuditLine.text, toString, oneLine_append, oneLine_branches, oneLine_repr]
    decide
  | input hname hop =>
    have hname := hnames _ _ hname
    simp only [AuditLine.text, toString, oneLine_append, oneLine_branches, oneLine_repr, hname,
      AuditValue.oneLine_text]
    decide
  | node hname hop hinner hargs hparams =>
    have hname := hnames _ _ hname
    have hargs := oneLine_intercalate (by decide : OneLine ", ") fun arg harg =>
      (exists_of_mem_right hargs harg).elim fun _ hp => hnames _ _ hp.2
    simp only [AuditLine.text, toString, oneLine_append, oneLine_branches, oneLine_repr, hname,
      AuditValue.oneLine_text, Primitive.oneLine_name, hargs, oneLine_paramsText]
    decide

end Graph

/-! ## The text -/

/-- Lines that are closed by line feeds can be told apart. -/
theorem splitOn_join {lines : List String} (h : ∀ line ∈ lines, OneLine line) :
    (String.join (lines.map (· ++ "\n"))).toList.splitOn '\n' =
      (lines ++ [""]).map String.toList := by
  have hjoin : (String.join (lines.map (· ++ "\n"))).toList =
      ['\n'].intercalate ((lines ++ [""]).map String.toList) := by
    clear h
    induction lines with
    | nil => rfl
    | cons line lines ih =>
      rw [List.map_cons, String.join_cons, String.toList_append, String.toList_append, ih,
        List.cons_append, List.map_cons, List.intercalate_cons_of_ne_nil (by simp)]
      rfl
  have hlines : ∀ cs ∈ (lines ++ [""]).map String.toList, '\n' ∉ cs := by
    intro cs hcs
    obtain ⟨line, hline, rfl⟩ := List.mem_map.1 hcs
    rcases List.mem_append.1 hline with hline | hline
    · exact h line hline
    · rw [List.mem_singleton.1 hline]
      exact List.not_mem_nil
  rw [hjoin, List.splitOn_intercalate _ hlines (by simp)]

theorem oneLine_heading {name : String} (hname : OneLine name) :
    ∀ line ∈ [s!"AUDIT TRACE for node '{name}':", "".pushn '-' 50], OneLine line := by
  have htitle : OneLine s!"AUDIT TRACE for node '{name}':" := by
    simp only [toString, oneLine_append, hname]
    decide
  have hrule : OneLine ("".pushn '-' 50) := by decide
  exact List.forall_mem_cons.2 ⟨htitle, List.forall_mem_singleton.2 hrule⟩

namespace Graph

variable [Arith α] {g : Graph α}

/-- A trace is answered, whether its node is there or not. -/
theorem exists_trace (hg : g.table.Auditable) (id : NodeId) :
    ∃ text, (g.trace id : Outcome ε String) = .ok text := by
  by_cases hid : id < g.size
  · obtain ⟨name, hname⟩ := exists_name hg hid
    obtain ⟨lines, _, haudit, _⟩ := exists_audit (ε := ε) hg hid
    refine ⟨traceText name lines, ?_⟩
    rw [trace, hname, haudit]
    rfl
  · have hrefused : g.name id = Outcome.fail (.unknownNode id) := by
      have hcontains : g.table.contains id = false := decide_eq_false hid
      rw [Graph.name, checkNode, hcontains]
      rfl
    exact ⟨_, by rw [trace, hrefused]; rfl⟩

open Classical in
/-- The trace of a node that is there is answered.  Below its heading it has one line for each
arrival of a tour of all that the node needs: these are one more than there are edges. -/
theorem trace_complete (hg : g.table.Auditable)
    (hnames : ∀ id name, g.name id = .ok name → OneLine name) {target : NodeId}
    (htarget : target < g.size) :
    ∃ text name lines arrivals, (g.trace target : Outcome ε String) = .ok text ∧
      g.name target = .ok name ∧
      text.toList.splitOn '\n' =
        ([s!"AUDIT TRACE for node '{name}':", "".pushn '-' 50] ++ lines ++ [""]).map
          String.toList ∧
      List.Forall₂ g.Written arrivals lines ∧ g.table.Surveyed target arrivals ∧
      lines.length =
        1 + ∑ id ∈ Finset.range g.size with g.table.Needs target id,
          (g.table.parentList id).length := by
  obtain ⟨name, hname⟩ := exists_name hg htarget
  obtain ⟨lines, arrivals, haudit, hshows, hsurveyed⟩ := exists_audit (ε := ε) hg htarget
  refine ⟨traceText name lines, name, lines.map AuditLine.text, arrivals, ?_, hname, ?_, ?_,
    hsurveyed, ?_⟩
  · rw [trace, hname, haudit]
    rfl
  · refine splitOn_join fun line hline => ?_
    rcases List.mem_append.1 hline with hheading | hbelow
    · exact oneLine_heading (hnames _ _ hname) line hheading
    · obtain ⟨entry, hentry, rfl⟩ := List.mem_map.1 hbelow
      obtain ⟨_, _, hline⟩ := exists_of_mem_right hshows hentry
      exact hline.oneLine hnames
  · rw [List.forall₂_map_right_iff]
    exact hshows.imp fun _ _ h => h.written
  · rw [List.length_map, ← hshows.length_eq]
    exact hsurveyed.length_eq_sum hg.toLinked htarget

end Graph

end Text

/-! ## A cycle -/

namespace Graph

/-- Two products over one input, each a factor of the other one. -/
def circle : Graph Float where
  table :=
    { ops := #[.input 0, .mult, .mult], labels := #["x", "a", "b"]
      parentIds := #[0, 2, 1, 0], parentSpans := #[⟨0, 0⟩, ⟨0, 2⟩, ⟨2, 2⟩]
      params := #[[], [], []], active := #[true, true, true]
      constant := #[false, false, false], dropped := #[false, false, false] }

theorem auditable_circle : circle.table.Auditable where
  spans id hid := by
    have hid : id < 3 := hid
    interval_cases id <;> exact ⟨_, rfl, by decide⟩
  known := by decide
  labels := by decide
  params := by decide
  inputs id column hop := by
    rcases id with _ | _ | _ | id
    · rfl
    all_goals cases hop

theorem oneLine_circle (id : NodeId) (name : String) (h : circle.name id = .ok name) :
    OneLine name := by
  obtain ⟨_, hfetch⟩ := Outcome.check_bind_eq_ok.1 h
  have hmem := Array.mem_of_getElem? (Outcome.fetch_eq_ok.1 hfetch)
  have hlabels : ∀ label ∈ circle.table.labels, OneLine label := by decide
  exact hlabels name hmem

theorem needs_circle (id : NodeId) (hid : id < 3) : circle.table.Needs 1 id := by
  have hfirst : circle.table.Needs 1 1 := .refl
  interval_cases id
  · exact hfirst.tail (by decide)
  · exact hfirst
  · exact hfirst.tail (by decide)

/-- Each product is described once, and is referred to from the other one or from itself. -/
theorem trace_complete_circle :
    ∃ text name lines arrivals,
      (circle.trace 1 : Outcome GraphError String) = .ok text ∧ circle.name 1 = .ok name ∧
      text.toList.splitOn '\n' =
        ([s!"AUDIT TRACE for node '{name}':", "".pushn '-' 50] ++ lines ++ [""]).map
          String.toList ∧
      List.Forall₂ circle.Written arrivals lines ∧ circle.table.Surveyed 1 arrivals ∧
      lines.length = 5 := by
  classical
  obtain ⟨text, name, lines, arrivals, htext, hname, hsplit, hwritten, hsurveyed, hlength⟩ :=
    trace_complete (ε := GraphError) auditable_circle oneLine_circle (show 1 < 3 by decide)
  refine ⟨text, name, lines, arrivals, htext, hname, hsplit, hwritten, hsurveyed, ?_⟩
  have hall : (Finset.range circle.size).filter (circle.table.Needs 1) = Finset.range circle.size :=
    Finset.filter_true_of_mem fun id hid => needs_circle id (Finset.mem_range.1 hid)
  rw [hlength, hall]
  rfl

end Graph

end FeatureGraph
