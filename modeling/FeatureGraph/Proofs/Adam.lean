import Mathlib
import FeatureGraph.Proofs.BackwardPass
import FeatureGraph.Proofs.Descent
import FeatureGraph.Proofs.Freshness
import FeatureGraph.Proofs.Splitting

/-!
# Training is a recursion

An update changes the parameters of one node and the running means of its slopes, and a gradient
pass has no entry for a node that no gradient has reached.  `Adam` is what is left of a training if
the graph is forgotten: the parameters of all nodes, the running means and the number of steps.

* `Adam.textbook` is a step of Adam as it is defined, and `Adam.pausing` a step that passes over the
  nodes without an entry.
* `Adam.Holds.updates` is the induction on the nodes that a step updates.
* `Adam.Follows.step` says that a step of the optimizer is a step of the recursion that pauses, and
  `Adam.Follows.trained` is the induction on the steps and calls of a training.
-/

namespace FeatureGraph

variable {ε α : Type}

open Optimizer (decay₁ decay₂ seenWeight adamUpdate)

/-! ## The recursion -/

/-- What Adam works on: the parameters of all nodes, for each parameter a running mean of the slopes
and one of their squares, and the number of steps. -/
@[ext] structure Adam (α : Type) where
  params : Array (List α)
  first : NodeId → Nat → α
  second : NodeId → Nat → α
  steps : Nat

namespace Adam

variable [ExactArith α]

/-- Before the first step all running means are zero. -/
def start (params : Array (List α)) : Adam α := ⟨params, fun _ _ => 0, fun _ _ => 0, 0⟩

/-- A running mean of the slopes after one more step. -/
def nextFirst (s : Adam α) (slope : NodeId → Nat → α) (id : NodeId) (j : Nat) : α :=
  decay₁ * s.first id j + (1 - decay₁) * slope id j

/-- A running mean of the squared slopes after one more step. -/
def nextSecond (s : Adam α) (slope : NodeId → Nat → α) (id : NodeId) (j : Nat) : α :=
  decay₂ * s.second id j + (1 - decay₂) * slope id j ^ 2

/-- The weight of the slopes that a running mean has seen in `t` steps. -/
def exactWeight (decay : α) (t : Nat) : α := 1 - decay ^ t

/-- The change of a parameter in step `t`.  The running means are divided by the weight of the
slopes that they have seen. -/
def change (weight : α → Nat → α) (rate : α) (t : Nat) (first second : α) : α :=
  rate * (first / weight decay₁ t) / (Arith.sqrt (second / weight decay₂ t) + Optimizer.guard)

/-- One step at the nodes that move. -/
def advance (weight : α → Nat → α) (moves : NodeId → Bool) (slope : NodeId → Nat → α) (rate : α)
    (s : Adam α) : Adam α where
  params := s.params.mapIdx fun id ps =>
    if moves id then ps.mapIdx fun j p =>
      p - change weight rate (s.steps + 1) (s.nextFirst slope id j) (s.nextSecond slope id j)
    else ps
  first id j := if moves id then s.nextFirst slope id j else s.first id j
  second id j := if moves id then s.nextSecond slope id j else s.second id j
  steps := s.steps + 1

end Adam

section Update

variable [ExactArith α] {rate : α} {t : Nat} {m : Moments α} {params grad : List α}

/-- The entries of an updated column. -/
theorem Column.getD_update {f : α → α → α} (hf : f 0 0 = 0) {ds ss : List α}
    (h : ds.length = ss.length) (j : Nat) :
    (update f ds ss).getD j 0 = f (ds.getD j 0) (ss.getD j 0) := by
  rw [update_eq_zipWith f h]
  by_cases hj : j < ds.length
  · have hj' : j < ss.length := h ▸ hj
    simp [hj, hj']
  · have hj' : ¬j < ss.length := h ▸ hj
    simp [hj, hj', hf]

theorem getD_advance_first (h : m.first.length = grad.length) (j : Nat) :
    (Optimizer.Moments.advance m grad).first.getD j 0 =
      decay₁ * m.first.getD j 0 + (1 - decay₁) * grad.getD j 0 :=
  Column.getD_update (by ring) h j

theorem getD_advance_second (h : m.second.length = grad.length) (j : Nat) :
    (Optimizer.Moments.advance m grad).second.getD j 0 =
      decay₂ * m.second.getD j 0 + (1 - decay₂) * grad.getD j 0 ^ 2 := by
  rw [sq, ← mul_assoc]
  exact Column.getD_update (by ring) h j

/-- The update of one node is a step of the recursion for each of its parameters. -/
theorem adamUpdate_eq (hfirst : m.first.length = grad.length)
    (hsecond : m.second.length = grad.length) (hparams : params.length = grad.length) :
    (adamUpdate rate t m params grad : Outcome ε (List α × Moments α)) =
      .ok (params.mapIdx fun j p => p - Adam.change seenWeight rate t
          ((Optimizer.Moments.advance m grad).first.getD j 0)
          ((Optimizer.Moments.advance m grad).second.getD j 0),
        Optimizer.Moments.advance m grad) := by
  have hinside : ¬(m.first.length < grad.length ∨ m.second.length < grad.length ∨
      params.length < grad.length) := by omega
  unfold adamUpdate
  dsimp only
  rw [if_neg hinside, Column.update_eq_zipWith]
  · refine congrArg (fun ps => Except.ok (ps, _)) (List.ext_getElem ?_ fun j hj hj' => ?_)
    · simp [hfirst, hsecond, hparams]
    · have hin : j < grad.length := by simpa [hparams] using hj'
      simp [hfirst, hsecond, hin, Adam.change, Optimizer.adamChange]
  · simp [hfirst, hsecond, hparams]

end Update

/-! ## Updates -/

namespace Optimizer

/-- The running mean of the slopes in one parameter: zero if there is none yet. -/
def firstMean [Zero α] (o : Optimizer α) (id : NodeId) (j : Nat) : α :=
  ((o.moments? id).elim [] Moments.first).getD j 0

/-- The running mean of the squared slopes in one parameter: zero if there is none yet. -/
def secondMean [Zero α] (o : Optimizer α) (id : NodeId) (j : Nat) : α :=
  ((o.moments? id).elim [] Moments.second).getD j 0

theorem firstMean_setMoments [Zero α] (o : Optimizer α) (id : NodeId) (m : Moments α) (i : NodeId)
    (j : Nat) :
    (o.setMoments id m).firstMean i j = if i = id then m.first.getD j 0 else o.firstMean i j := by
  unfold firstMean
  rw [moments?_setMoments]
  split <;> rfl

theorem secondMean_setMoments [Zero α] (o : Optimizer α) (id : NodeId) (m : Moments α) (i : NodeId)
    (j : Nat) :
    (o.setMoments id m).secondMean i j =
      if i = id then m.second.getD j 0 else o.secondMean i j := by
  unfold secondMean
  rw [moments?_setMoments]
  split <;> rfl

/-- No update changes the method. -/
theorem method_of_updateNode_eq_ok [Arith α] {rate : α} {grads : Gradients α} {id : NodeId}
    {p p' : Graph α × Optimizer α} (h : updateNode rate grads p id = .ok p') :
    p'.2.method = p.2.method := by
  obtain ⟨_, rfl⟩ | ⟨_, _, _, ⟨_, rfl⟩ | ⟨_, _, _, _, rfl⟩⟩ := of_updateNode_eq_ok h <;> rfl

end Optimizer

namespace Adam

/-- The listed nodes that a gradient pass has an entry for. -/
def moved (grads : Gradients α) (nodes : List NodeId) (id : NodeId) : Bool :=
  nodes.contains id && !(grads.get id).isEmpty

theorem moved_concat_self {grads : Gradients α} {nodes : List NodeId} {id : NodeId} :
    moved grads (nodes ++ [id]) id = !(grads.get id).isEmpty := by
  simp [moved]

theorem moved_concat_of_ne {grads : Gradients α} {nodes : List NodeId} {id i : NodeId}
    (h : i ≠ id) :
    moved grads (nodes ++ [id]) i = moved grads nodes i := by
  simp [moved, h]

variable [ExactArith α]

/-- A graph and an optimizer hold the parameters and the running means of the recursion. -/
structure Holds (p : Graph α × Optimizer α) (s : Adam α) : Prop where
  params : p.1.table.params = s.params
  first : ∀ id j, p.2.firstMean id j = s.first id j
  second : ∀ id j, p.2.secondMean id j = s.second id j

section Advance

variable {weight : α → Nat → α} {moves : NodeId → Bool} {slope : NodeId → Nat → α} {rate : α}
  {s : Adam α} {id : NodeId}

theorem getElem?_params_advance : (s.advance weight moves slope rate).params[id]? =
    (s.params[id]?).map fun ps =>
      if moves id then ps.mapIdx fun j p =>
        p - change weight rate (s.steps + 1) (s.nextFirst slope id j) (s.nextSecond slope id j)
      else ps := by
  simp [advance]

theorem first_advance (j : Nat) : (s.advance weight moves slope rate).first id j =
    if moves id then s.nextFirst slope id j else s.first id j := rfl

theorem second_advance (j : Nat) : (s.advance weight moves slope rate).second id j =
    if moves id then s.nextSecond slope id j else s.second id j := rfl

theorem steps_advance : (s.advance weight moves slope rate).steps = s.steps + 1 := rfl

/-- If no node moves, then all parameters and running means stay. -/
theorem holds_advance_none {p : Graph α × Optimizer α} (h : Holds p s) :
    Holds p (s.advance weight (fun _ => false) slope rate) where
  params := Array.ext_getElem? fun id => by
    rw [getElem?_params_advance, h.params]
    simp
  first := h.first
  second := h.second

end Advance

section Updates

variable {grads : Gradients α} {rate : α} {slope : NodeId → Nat → α} {s : Adam α} {id : NodeId}
  {p p' : Graph α × Optimizer α}

/-- The running means that an update starts from. -/
theorem getD_startMoments (o : Optimizer α) (grads : Gradients α) (id : NodeId) (j : Nat) :
    (o.startMoments grads id).first.getD j 0 = o.firstMean id j ∧
      (o.startMoments grads id).second.getD j 0 = o.secondMean id j := by
  unfold Optimizer.startMoments Optimizer.firstMean Optimizer.secondMean
  cases o.moments? id with
  | some m => exact ⟨rfl, rfl⟩
  | none => constructor <;> simp [Column.zeros]

/-- What an update with an entry that is not empty does to the parameters and the running means of
its node. -/
theorem exists_of_updateNode (hp : Optimizer.Updatable grads p) (hmethod : p.2.method = .adam)
    (hne : grads.get id ≠ []) (hstep : Optimizer.updateNode rate grads p id = .ok p') :
    ∃ old m, p.1.table.params[id]? = some old ∧
      p' = (p.1.replaceParams id (old.mapIdx fun j q =>
        q - change seenWeight rate p.2.steps (m.first.getD j 0) (m.second.getD j 0)),
        p.2.setMoments id m) ∧
      (∀ j, m.first.getD j 0 =
        decay₁ * p.2.firstMean id j + (1 - decay₁) * (grads.get id).getD j 0) ∧
      ∀ j, m.second.getD j 0 =
        decay₂ * p.2.secondMean id j + (1 - decay₂) * (grads.get id).getD j 0 ^ 2 := by
  obtain ⟨g, o⟩ := p
  dsimp only at hmethod
  obtain ⟨hempty, _⟩ | ⟨_, old, hold, ⟨hsteep, _⟩ | ⟨_, ps, m, hupdate, rfl⟩⟩ :=
    Optimizer.of_updateNode_eq_ok hstep
  · exact absurd hempty hne
  · rw [hmethod] at hsteep
    cases hsteep
  obtain ⟨_, hfits, hlength⟩ := hp.gradients id hne
  cases hold.symm.trans hfits
  obtain ⟨hfirst, hsecond⟩ := hp.length_startMoments hold hlength
  rw [adamUpdate_eq hfirst hsecond hlength, Except.ok.injEq, Prod.mk.injEq] at hupdate
  obtain ⟨rfl, rfl⟩ := hupdate
  refine ⟨old, _, hold, rfl, fun j => ?_, fun j => ?_⟩
  · rw [getD_advance_first hfirst, (getD_startMoments o grads id j).1]
  · rw [getD_advance_second hsecond, (getD_startMoments o grads id j).2]

/-- The update of one more node. -/
theorem Holds.updateNode {nodes : List NodeId} (hnew : id ∉ nodes)
    (h : Holds p (s.advance seenWeight (moved grads nodes) slope rate))
    (hp : Optimizer.Updatable grads p) (hmethod : p.2.method = .adam)
    (hsteps : p.2.steps = s.steps + 1) (hslope : ∀ j, slope id j = (grads.get id).getD j 0)
    (hstep : Optimizer.updateNode rate grads p id = .ok p') :
    Holds p' (s.advance seenWeight (moved grads (nodes ++ [id])) slope rate) := by
  have hbefore : ¬moved grads nodes id = true := by simp [moved, hnew]
  by_cases hempty : grads.get id = []
  · have hsame : moved grads (nodes ++ [id]) = moved grads nodes := by
      funext i
      by_cases hi : i = id
      · simp [moved, hi, hempty]
      · exact moved_concat_of_ne hi
    rw [Optimizer.updateNode, if_pos (List.isEmpty_iff.2 hempty), Except.ok.injEq] at hstep
    rw [hsame, ← hstep]
    exact h
  have hmoves : moved grads (nodes ++ [id]) id = true := by
    rw [moved_concat_self]
    simpa using hempty
  obtain ⟨old, m, hold, rfl, hfirst, hsecond⟩ := exists_of_updateNode hp hmethod hempty hstep
  -- the running means of the node were still those before the step
  have hfirst' : ∀ j, m.first.getD j 0 = s.nextFirst slope id j := fun j => by
    rw [hfirst, h.first, first_advance, if_neg hbefore, nextFirst, hslope]
  have hsecond' : ∀ j, m.second.getD j 0 = s.nextSecond slope id j := fun j => by
    rw [hsecond, h.second, second_advance, if_neg hbefore, nextSecond, hslope]
  refine ⟨Array.ext_getElem? fun i => ?_, fun i j => ?_, fun i j => ?_⟩
  · have hcolumn := congrArg (·[i]?) h.params
    simp only [getElem?_params_advance] at hcolumn
    rw [getElem?_params_advance]
    by_cases hi : i = id
    · subst hi
      have hinside : i < p.1.table.params.size := (Array.getElem?_eq_some_iff.1 hold).1
      have hparams : s.params[i]? = some old := by simpa [hold, hbefore] using hcolumn.symm
      simp only [hfirst', hsecond', hsteps, hparams, hmoves, Option.map_some, if_true]
      simp [Graph.replaceParams, hinside]
    · rw [moved_concat_of_ne hi, ← hcolumn]
      exact Array.getElem?_setIfInBounds_ne (Ne.symm hi)
  · rw [Optimizer.firstMean_setMoments, first_advance]
    split
    · rename_i hi
      rw [hi, hfirst', if_pos hmoves]
    · rename_i hi
      rw [h.first, first_advance, moved_concat_of_ne hi]
  · rw [Optimizer.secondMean_setMoments, second_advance]
    split
    · rename_i hi
      rw [hi, hsecond', if_pos hmoves]
    · rename_i hi
      rw [h.second, second_advance, moved_concat_of_ne hi]

/-- The updates of a step, by induction on the nodes. -/
theorem Holds.updates {nodes : List NodeId} (hnodup : nodes.Nodup) (h : Holds p s)
    (hp : Optimizer.Updatable grads p) (hmethod : p.2.method = .adam)
    (hsteps : p.2.steps = s.steps + 1) (hslope : ∀ id j, slope id j = (grads.get id).getD j 0)
    (hrun : nodes.foldlM (Optimizer.updateNode rate grads) p = .ok p') :
    Holds p' (s.advance seenWeight (moved grads nodes) slope rate) ∧ p'.2.method = .adam := by
  induction nodes using List.reverseRecOn generalizing p' with
  | nil =>
    obtain rfl : p = p' := by simpa using hrun
    exact ⟨holds_advance_none h, hmethod⟩
  | append_singleton nodes id ih =>
    rw [List.foldlM_append] at hrun
    obtain ⟨q, hq, hlast⟩ := Outcome.bind_eq_ok.1 hrun
    rw [List.foldlM_cons] at hlast
    obtain ⟨q', hq', hlast⟩ := Outcome.bind_eq_ok.1 hlast
    obtain rfl : q' = p' := by simpa using hlast
    obtain ⟨hbefore, hmethod'⟩ := ih hnodup.of_append_left hq
    obtain ⟨r, hr, hready, hsteps'⟩ := hp.exists_updates rate nodes
    obtain rfl : r = q := Except.ok.inj (hr.symm.trans hq)
    refine ⟨hbefore.updateNode ?_ hready hmethod' (hsteps'.trans hsteps) (hslope id) hq', ?_⟩
    · exact fun hmem => List.disjoint_of_nodup_append hnodup hmem (List.mem_singleton_self id)
    · rw [Optimizer.method_of_updateNode_eq_ok hq', hmethod']

end Updates

end Adam

/-! ## Slopes -/

namespace Graph

variable [ExactArith α] {g g' : Graph α} {x : Matrix α} {y : List α} {grads : Gradients α}

/-- The slope of the loss in one parameter: the mean over the rows of the tangent of the first
objective. -/
def lossSlope (g : Graph α) (x : Matrix α) (y : List α) (id : NodeId) (j : Nat) : α :=
  Arith.mean (List.ofFn fun r =>
    g.table.tangentAt (x.sample (some y) r) id j (g.objectives.headD 0))

/-- A gradient pass has no entry for a node. -/
def silent (g : Graph α) (x : Matrix α) (y : List α) (id : NodeId) : Bool :=
  match (g.gradients x y).1 with
  | .ok grads => (grads.get id).isEmpty
  | .error _ => true

/-- A gradient pass answers the slopes of the loss. -/
theorem getD_gradients (hg : g.Sound) (hpass : (g.gradients x y).1 = .ok grads) (id : NodeId)
    (j : Nat) : (grads.get id).getD j 0 = g.lossSlope x y id j := by
  obtain ⟨objective, rest, hobjectives, hclosed, hdata, hobjective⟩ := of_gradients_eq_ok hg hpass
  obtain ⟨grads', hpass', heq⟩ := exists_gradients_eq_ok hg hobjectives hclosed hdata hobjective
  rw [hpass, Except.ok.injEq] at hpass'
  rw [hpass', heq, lossSlope, hobjectives, List.headD_cons]

/-- Where a gradient pass has no entry, all slopes are zero. -/
theorem lossSlope_of_silent (hg : g.Sound) (hpass : (g.gradients x y).1 = .ok grads) {id : NodeId}
    (h : g.silent x y id = true) (j : Nat) : g.lossSlope x y id j = 0 := by
  have hempty : grads.get id = [] := by simpa [silent, hpass] using h
  rw [← getD_gradients hg hpass, hempty, List.getD_nil]

/-- What a gradient pass answers depends on the table and the objectives only. -/
theorem gradients_congr (hg : g.Sound) (hg' : g'.Sound) (htable : g'.table = g.table)
    (hobjectives : g'.objectives = g.objectives) :
    (g'.gradients x y).1 = (g.gradients x y).1 := by
  have hforward : g'.runForward x (some y) = g.runForward x (some y) := by
    rw [runForward, runForward, hg.currentTape_eq, hg'.currentTape_eq, htable]
  cases hhead : g.objectives.head? with
  | none => rw [gradients_of_head?_none hhead, gradients_of_head?_none (hobjectives ▸ hhead)]
  | some objective =>
    rw [gradients_of_head? hhead, gradients_of_head? (hobjectives ▸ hhead), hforward, htable]

end Graph

/-! ## Steps -/

/-- What one step learns from. -/
structure Lesson (α : Type) where
  x : Matrix α
  y : List α
  rate : α

namespace Adam

variable [ExactArith α] {g : Graph α} {nodes : List NodeId} {p : Graph α × Optimizer α} {s : Adam α}
  {l : Lesson α}

/-- The graph with the parameters of the recursion, and without caches. -/
def graph (s : Adam α) (g : Graph α) : Graph α := g.restored s.params g.table.dropped

/-- One step of Adam, as it is defined: all trainable nodes move along the slopes of the loss, and
in step `t` the running means are divided by one minus the `t`-th power of their decay. -/
def textbook (g : Graph α) (nodes : List NodeId) (s : Adam α) (l : Lesson α) : Adam α :=
  s.advance exactWeight nodes.contains ((s.graph g).lossSlope l.x l.y) l.rate

/-- One step of Adam that passes over the nodes without an entry in the gradient pass. -/
def pausing (g : Graph α) (nodes : List NodeId) (s : Adam α) (l : Lesson α) : Adam α :=
  s.advance seenWeight (fun id => nodes.contains id && !(s.graph g).silent l.x l.y id)
    ((s.graph g).lossSlope l.x l.y) l.rate

/-- Adam after the given lessons. -/
def textbookAfter (g : Graph α) (nodes : List NodeId) (lessons : List (Lesson α)) : Adam α :=
  lessons.foldl (textbook g nodes) (.start g.table.params)

/-- What has become of the recursion that pauses after the given lessons. -/
def pausingAfter (g : Graph α) (nodes : List NodeId) (lessons : List (Lesson α)) : Adam α :=
  lessons.foldl (pausing g nodes) (.start g.table.params)

theorem textbookAfter_concat (lessons : List (Lesson α)) :
    textbookAfter g nodes (lessons ++ [l]) = (textbookAfter g nodes lessons).textbook g nodes l :=
  List.foldl_concat ..

theorem pausingAfter_concat (lessons : List (Lesson α)) :
    pausingAfter g nodes (lessons ++ [l]) = (pausingAfter g nodes lessons).pausing g nodes l :=
  List.foldl_concat ..

/-- Each lesson is counted as a step. -/
theorem steps_textbookAfter (lessons : List (Lesson α)) :
    (textbookAfter g nodes lessons).steps = lessons.length := by
  induction lessons using List.reverseRecOn with
  | nil => rfl
  | append_singleton lessons l ih =>
    rw [textbookAfter_concat, textbook, steps_advance, ih, List.length_append,
      List.length_singleton]

/-- A graph and an optimizer in the course of a training of `g`, and what the recursion has made of
the same lessons. -/
structure Follows (g : Graph α) (p : Graph α × Optimizer α) (s : Adam α) : Prop
    extends Holds p s where
  sound : p.1.Sound
  objectives : p.1.objectives = g.objectives
  table : p.1.table = { g.table with params := p.1.table.params }
  trainable : (p.1.table.trainable : Outcome GraphError (List NodeId)) = g.table.trainable
  fits : p.2.Fits p.1.table
  method : p.2.method = .adam
  steps : p.2.steps = s.steps

namespace Follows

theorem start (hg : g.Sound) : Follows g (g, .ofMethod .adam) (.start g.table.params) where
  params := rfl
  first _ _ := rfl
  second _ _ := rfl
  sound := hg
  objectives := rfl
  table := rfl
  trainable := rfl
  fits := Optimizer.fits_ofMethod .adam g.table
  method := rfl
  steps := rfl

theorem table_graph (h : Follows g p s) : (s.graph g).table = p.1.table := by
  rw [h.table, h.params]
  rfl

theorem sound_graph (h : Follows g p s) : (s.graph g).Sound :=
  .of_table (h.table_graph ▸ h.sound.table) rfl

/-- The gradients of the graph are those of the recursion. -/
theorem gradients_graph (h : Follows g p s) (x : Matrix α) (y : List α) :
    ((s.graph g).gradients x y).1 = (p.1.gradients x y).1 :=
  Graph.gradients_congr h.sound h.sound_graph h.table_graph h.objectives.symm

/-- Training does not change which data are accepted. -/
theorem accepts_iff (h : Follows g p s) (hg : g.Sound) {x : Matrix α} {y : List α} :
    (∃ grads, (p.1.gradients x y).1 = .ok grads) ↔ ∃ grads, (g.gradients x y).1 = .ok grads := by
  have hdata : (p.1.table.Closed ∧ p.1.table.Accepts x (some y)) ↔
      g.table.Closed ∧ g.table.Accepts x (some y) := by
    rw [h.table]
    exact ⟨fun ⟨hclosed, hdata⟩ => ⟨hclosed, hdata.target, hdata.inputs⟩,
      fun ⟨hclosed, hdata⟩ => ⟨hclosed, hdata.target, hdata.inputs⟩⟩
  have hactive : p.1.isActive = g.isActive := by
    funext id
    rw [Graph.isActive, h.table]
    rfl
  rw [Graph.gradients_eq_ok_iff h.sound, Graph.gradients_eq_ok_iff hg, hdata, h.objectives, hactive]

/-- A gradient pass changes nothing that the recursion knows of. -/
theorem pass (h : Follows g p s) (x : Matrix α) (y : List α) :
    Follows g ((p.1.gradients x y).2, p.2) s where
  params := by rw [Graph.gradients_snd_table, h.params]
  first := h.first
  second := h.second
  sound := h.sound.gradients x y
  objectives := (onlyTrained_gradients p.1 x y).objectives.trans h.objectives
  table := by
    rw [Graph.gradients_snd_table]
    exact h.table
  trainable := by rw [Graph.gradients_snd_table, h.trainable]
  fits := by
    rw [Graph.gradients_snd_table]
    exact h.fits
  method := h.method
  steps := h.steps

/-- A step on data that are accepted is a step of the recursion. -/
theorem step (hnodup : nodes.Nodup) (h : Follows g p s)
    (hpass : ∃ grads, (p.1.gradients l.x l.y).1 = .ok grads) :
    Follows g (Optimizer.stepped l.x l.y l.rate nodes p) (s.pausing g nodes l) := by
  obtain ⟨grads, hgrads⟩ := hpass
  have hready : Optimizer.Ready l.x l.y p := ⟨h.sound.wellFormed, h.fits, grads, hgrads⟩
  have hupdatable := hready.updatable hgrads
  obtain ⟨p', hupdates, hfits, hsteps⟩ := hupdatable.exists_updates l.rate nodes
  have hstepped : Optimizer.stepped l.x l.y l.rate nodes p = p' := by
    rw [Optimizer.stepped, Optimizer.step_of_updates hgrads hupdates]
  have hgrads' := (h.gradients_graph l.x l.y).trans hgrads
  have hslope : ∀ id j, (s.graph g).lossSlope l.x l.y id j = (grads.get id).getD j 0 :=
    fun id j => (Graph.getD_gradients h.sound_graph hgrads' id j).symm
  have hmoves : moved grads nodes =
      fun id => nodes.contains id && !(s.graph g).silent l.x l.y id := by
    funext id
    rw [moved, Graph.silent, hgrads']
  have hbefore : Holds ((p.1.gradients l.x l.y).2, { p.2 with steps := p.2.steps + 1 }) s :=
    ⟨(h.pass l.x l.y).params, h.first, h.second⟩
  obtain ⟨hholds, hmethod⟩ := hbefore.updates hnodup hupdatable h.method
    (congrArg (· + 1) h.steps) hslope hupdates
  rw [hmoves] at hholds
  have hkept : Optimizer.KeptByUpdates nodes fun g' : Graph α =>
      g'.objectives = g.objectives ∧ g'.table = { g.table with params := g'.table.params } ∧
        (g'.table.trainable : Outcome GraphError (List NodeId)) = g.table.trainable := by
    rintro g' id - old ps hold hlength ⟨hobjectives, htable, htrainable⟩
    refine ⟨hobjectives, ?_, (Optimizer.trainable_replaceParams hold hlength).trans htrainable⟩
    rw [Graph.replaceParams, htable]
  have hpass := h.pass l.x l.y
  obtain ⟨hobjectives, htable, htrainable⟩ :=
    hkept.updates ⟨hpass.objectives, hpass.table, hpass.trainable⟩ hupdates
  have hsound := h.sound.step p.2 l.x l.y l.rate nodes
  rw [Optimizer.step_of_updates hgrads hupdates] at hsound
  rw [hstepped]
  exact ⟨hholds, hsound, hobjectives, htable, htrainable, hfits.moments, hmethod,
    hsteps.trans (congrArg (· + 1) h.steps)⟩

/-- So many steps on the same data. -/
theorem iterate (hg : g.Sound) (hnodup : nodes.Nodup) (h : Follows g p s)
    (hpass : ∃ grads, (g.gradients l.x l.y).1 = .ok grads) (n : Nat) :
    Follows g ((Optimizer.stepped l.x l.y l.rate nodes)^[n] p)
      ((List.replicate n l).foldl (pausing g nodes) s) := by
  induction n generalizing p s with
  | zero => exact h
  | succ n ih => exact ih (h.step hnodup ((h.accepts_iff hg).2 hpass))

end Follows

/-! ## Calls -/

/-- What a graph and an optimizer become in a call of so many steps on the same data. -/
def taught (p : Graph α × Optimizer α) (call : Lesson α × Nat) : Graph α × Optimizer α :=
  ((p.2.run p.1 call.1.x call.1.y call.2 call.1.rate).1.graph,
    (p.2.run p.1 call.1.x call.1.y call.2 call.1.rate).1.optimizer)

/-- The steps of a call.  Data that the graph does not accept teach nothing. -/
def lessonsOf (g : Graph α) (call : Lesson α × Nat) : List (Lesson α) :=
  match (g.gradients call.1.x call.1.y).1 with
  | .ok _ => List.replicate call.2 call.1
  | .error _ => []

theorem lessonsOf_eq (h : ∃ grads, (g.gradients l.x l.y).1 = .ok grads) (n : Nat) :
    lessonsOf g (l, n) = List.replicate n l := by
  obtain ⟨grads, hgrads⟩ := h
  rw [lessonsOf, hgrads]

theorem exists_of_mem_lessonsOf {call : Lesson α × Nat} (h : l ∈ lessonsOf g call) :
    ∃ grads, (g.gradients l.x l.y).1 = .ok grads := by
  unfold lessonsOf at h
  split at h
  · rename_i grads hgrads
    rw [List.eq_of_mem_replicate h]
    exact ⟨grads, hgrads⟩
  · cases h

/-- A call is its steps. -/
theorem Follows.taught (hg : g.Sound) (hnodup : nodes.Nodup)
    (hnodes : (g.table.trainable : Outcome GraphError (List NodeId)) = .ok nodes)
    (h : Follows g p s) (call : Lesson α × Nat) :
    Follows g (taught p call) ((lessonsOf g call).foldl (pausing g nodes) s) := by
  obtain ⟨l, n⟩ := call
  have haccepts := h.accepts_iff hg (x := l.x) (y := l.y)
  unfold Adam.taught lessonsOf
  dsimp only
  rcases Optimizer.run_cases h.sound.wellFormed h.fits l.x l.y n l.rate with
    ⟨fault, _, hfailed, hrun⟩ | ⟨hpass, nodes', losses, hnodes', hrun⟩
  · rw [hrun]
    split
    · rename_i grads hgrads
      obtain ⟨_, hpassed⟩ := haccepts.2 ⟨grads, hgrads⟩
      cases hfailed.symm.trans hpassed
    · exact h.pass l.x l.y
  · obtain rfl : nodes = nodes' :=
      Except.ok.inj (hnodes.symm.trans (h.trainable.symm.trans hnodes'))
    rw [hrun]
    split
    · rename_i grads hgrads
      exact h.iterate hg hnodup ⟨grads, hgrads⟩ n
    · -- a call on refused data that succeeds takes no step
      rename_i fault hfailed
      rcases Nat.eq_zero_or_pos n with rfl | hn
      · exact h
      · obtain ⟨_, hpassed⟩ := haccepts.1 (hpass hn)
        cases hfailed.symm.trans hpassed

/-- A training is its steps. -/
theorem Follows.foldl_taught (hg : g.Sound) (hnodup : nodes.Nodup)
    (hnodes : (g.table.trainable : Outcome GraphError (List NodeId)) = .ok nodes)
    (h : Follows g p s) (calls : List (Lesson α × Nat)) :
    Follows g (calls.foldl Adam.taught p)
      ((calls.flatMap (lessonsOf g)).foldl (pausing g nodes) s) := by
  induction calls generalizing p s with
  | nil => exact h
  | cons call calls ih =>
    rw [List.flatMap_cons, List.foldl_append]
    exact ih (h.taught hg hnodup hnodes call)

/-- The recursion has followed a graph and an optimizer through any lessons. -/
theorem exists_follows (hg : g.Sound) (hnodup : nodes.Nodup) {lessons : List (Lesson α)}
    (haccepts : ∀ l ∈ lessons, ∃ grads, (g.gradients l.x l.y).1 = .ok grads) :
    ∃ p, Follows g p (pausingAfter g nodes lessons) := by
  induction lessons using List.reverseRecOn with
  | nil => exact ⟨_, .start hg⟩
  | append_singleton lessons l ih =>
    obtain ⟨p, h⟩ := ih fun l' hl' => haccepts l' (List.mem_append_left _ hl')
    rw [pausingAfter_concat]
    exact ⟨_, h.step hnodup ((h.accepts_iff hg).2 (haccepts l (by simp)))⟩

/-! ## Trainings -/

/-- The calls of a training with a new optimizer, one after the other. -/
def trained (g : Graph α) (calls : List (Lesson α × Nat)) : Graph α × Optimizer α :=
  calls.foldl taught (g, .ofMethod .adam)

/-- All steps of a training. -/
def lessons (g : Graph α) (calls : List (Lesson α × Nat)) : List (Lesson α) :=
  calls.flatMap (lessonsOf g)

/-- The recursion that pauses follows a training. -/
theorem Follows.trained (hg : g.Sound) (hnodup : nodes.Nodup)
    (hnodes : (g.table.trainable : Outcome GraphError (List NodeId)) = .ok nodes)
    (calls : List (Lesson α × Nat)) :
    Follows g (trained g calls) (pausingAfter g nodes (lessons g calls)) :=
  (Follows.start hg).foldl_taught hg hnodup hnodes calls

end Adam

end FeatureGraph
