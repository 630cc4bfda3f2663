import FeatureGraph.Proofs.Batches

/-!
# Descents in parts

A descent may be taken in parts.  The second part starts from the graph, the running means and the
step counter that the first part leaves behind, and neither changes which nodes are trainable.  So
the batches of a training that does not resample its rows are one descent.

* `Stepped.andThen` is one part after another, and `steps?_add` the induction on the first part.
* `trainable_steps?` says that both parts find the same trainable nodes.
* `run_add` is the statement about descents.
* `EndsAs` says that a training ends as a descent does, and `endsAs_fitFrom` is the induction on
  the batches.
* `fit_in_batches` compares a training in batches with one in a single batch.
-/

namespace FeatureGraph

variable {α β γ δ σ : Type}

namespace Optimizer

/-- One part of a descent after another.  The second part starts from what the first one leaves
behind, and a first part that fails is the last one. -/
def Stepped.andThen (s : Stepped α β) (next : Optimizer α → Graph α → Stepped α γ)
    (join : β → γ → δ) : Stepped α δ :=
  match s.outcome with
  | .error fault => ⟨.error fault, s.graph, s.optimizer⟩
  | .ok b =>
    let rest := next s.optimizer s.graph
    { rest with outcome := rest.outcome.map (join b) }

/-- The losses of `n` steps and of `m` more steps after them. -/
def Losses.join (n m : Nat) (first second : Losses α) : Losses α where
  initial := if 0 < n then first.initial else second.initial
  final := if 0 < m then second.final else first.final

variable [Arith α] {x : Matrix α} {y : List α} {rate : α} {nodes : List NodeId}
  {o : Optimizer α} {g : Graph α} {n m : Nat}

/-! ## Steps -/

/-- Some steps and then some more are all of them. -/
theorem steps?_add (x : Matrix α) (y : List α) (rate : α) (nodes : List NodeId) (n m : Nat)
    (o : Optimizer α) (g : Graph α) :
    steps? x y rate nodes (n + m) o g =
      (steps? x y rate nodes n o g).andThen (steps? x y rate nodes m) (· ++ ·) := by
  induction n generalizing o g with
  | zero =>
    rw [Nat.zero_add, steps?, Stepped.andThen]
    rcases steps? x y rate nodes m o g with ⟨_ | losses, _, _⟩ <;> rfl
  | succ n ih =>
    rw [Nat.add_right_comm, steps?, steps?]
    rcases o.step g x y rate nodes with ⟨fault | loss, g', o'⟩
    · rfl
    · dsimp only
      rw [ih]
      rcases steps? x y rate nodes n o' g' with ⟨fault | losses, g'', o''⟩
      · rfl
      · simp only [Stepped.andThen]
        cases (steps? x y rate nodes m o'' g'').outcome <;> rfl

/-- There is a loss for each step. -/
theorem length_of_steps?_eq_ok {losses : List α}
    (h : (steps? x y rate nodes n o g).outcome = .ok losses) : losses.length = n := by
  induction n generalizing o g losses with
  | zero => exact Except.ok.inj h ▸ rfl
  | succ n ih =>
    unfold steps? at h
    split at h
    · cases h
    · obtain ⟨rest, hrest, rfl⟩ := Outcome.map_eq_ok.1 h
      rw [List.length_cons, ih hrest]

/-! ## Trainable nodes -/

omit [Arith α] in
/-- As many other parameters leave a node trainable, or not. -/
theorem trainable_replaceParams {id : NodeId} {old ps : List α}
    (hold : g.table.params[id]? = some old) (hlength : ps.length = old.length) :
    ((g.replaceParams id ps).table.trainable : Outcome GraphError (List NodeId)) =
      g.table.trainable := by
  refine Outcome.filterM_congr fun i _ => ?_
  have hid : id < g.table.params.size := (Array.getElem?_eq_some_iff.1 hold).1
  by_cases hi : i = id
  · subst hi
    have hempty : ps.isEmpty = old.isEmpty := by
      rw [Bool.eq_iff_iff, List.isEmpty_iff_length_eq_zero, List.isEmpty_iff_length_eq_zero,
        hlength]
    have hnew : (g.replaceParams i ps).table.params[i]? = some ps := by
      simp [Graph.replaceParams, hid]
    unfold NodeTable.isTrainable
    rw [Outcome.fetch_eq_ok.2 hnew, Outcome.fetch_eq_ok.2 hold, Outcome.ok_bind, Outcome.ok_bind,
      hempty]
    rfl
  · have hsame : (g.replaceParams id ps).table.params[i]? = g.table.params[i]? :=
      Array.getElem?_setIfInBounds_ne (Ne.symm hi)
    unfold NodeTable.isTrainable
    rw [Outcome.fetch, Outcome.fetch, Outcome.fetch, hsame]
    rfl

omit [Arith α] in
/-- Updates change nothing about which nodes are trainable. -/
theorem keptByUpdates_trainable (g : Graph α) (nodes : List NodeId) :
    KeptByUpdates nodes fun g' : Graph α =>
      (g'.table.trainable : Outcome GraphError (List NodeId)) = g.table.trainable :=
  fun _ _ _ _ _ hold hlength h => (trainable_replaceParams hold hlength).trans h

/-- A step changes nothing about which nodes are trainable. -/
theorem trainable_step (x : Matrix α) (y : List α) (rate : α) (nodes : List NodeId)
    (o : Optimizer α) (g : Graph α) :
    ((o.step g x y rate nodes).graph.table.trainable : Outcome GraphError (List NodeId)) =
      g.table.trainable := by
  refine (keptByUpdates_trainable g nodes).step ?_ o rate
  rw [Graph.gradients_snd_table]

/-- A descent changes nothing about which nodes are trainable. -/
theorem trainable_steps? (x : Matrix α) (y : List α) (rate : α) (nodes : List NodeId) (n : Nat)
    (o : Optimizer α) (g : Graph α) :
    ((steps? x y rate nodes n o g).graph.table.trainable : Outcome GraphError (List NodeId)) =
      g.table.trainable := by
  refine (keptByUpdates_trainable g nodes).steps? (fun g' h => ?_) rfl o n rate
  rw [Graph.gradients_snd_table, h]

/-! ## Descents -/

theorem Losses.ofList_append (xs ys : List α) :
    Losses.ofList (xs ++ ys) =
      Losses.join xs.length ys.length (Losses.ofList xs) (Losses.ofList ys) := by
  rw [Losses.ofList, Losses.join, Losses.mk.injEq]
  constructor
  · cases xs <;> simp [Losses.ofList]
  · cases ys <;> simp [Losses.ofList, List.getLast?_cons]

/-- A descent is its steps, if the trainable nodes can be found. -/
theorem run_of_trainable
    (h : (g.table.trainable : Outcome GraphError (List NodeId)) = .ok nodes) (o : Optimizer α)
    (x : Matrix α) (y : List α) (n : Nat) (rate : α) :
    (o.run g x y n rate).1 =
      { steps? x y rate nodes n o g with
        outcome := (steps? x y rate nodes n o g).outcome.map Losses.ofList } := by
  unfold run
  rw [h]
  dsimp only
  cases (steps? x y rate nodes n o g).outcome <;> rfl

theorem run_of_untrainable {fault : Fault GraphError}
    (h : (g.table.trainable : Outcome GraphError (List NodeId)) = .error fault) (o : Optimizer α)
    (x : Matrix α) (y : List α) (n : Nat) (rate : α) :
    (o.run g x y n rate).1 = ⟨.error fault, g, o⟩ := by
  unfold run
  rw [h]

/-- A descent of `n + m` steps is one of `n` steps and then one of `m`. -/
theorem run_add (o : Optimizer α) (g : Graph α) (x : Matrix α) (y : List α) (n m : Nat)
    (rate : α) :
    (o.run g x y (n + m) rate).1 =
      (o.run g x y n rate).1.andThen (fun o g => (o.run g x y m rate).1) (Losses.join n m) := by
  cases htrainable : (g.table.trainable : Outcome GraphError (List NodeId)) with
  | error fault => rw [run_of_untrainable htrainable, run_of_untrainable htrainable]; rfl
  | ok nodes =>
    have hlater := (trainable_steps? x y rate nodes n o g).trans htrainable
    rw [run_of_trainable htrainable, run_of_trainable htrainable, steps?_add]
    cases hfirst : (steps? x y rate nodes n o g).outcome with
    | error fault => simp only [Stepped.andThen, hfirst]; rfl
    | ok losses =>
      simp only [Stepped.andThen, hfirst, Except.map, run_of_trainable hlater]
      cases hsecond : (steps? x y rate nodes m (steps? x y rate nodes n o g).optimizer
          (steps? x y rate nodes n o g).graph).outcome with
      | error fault => rfl
      | ok more =>
        simp only [Losses.ofList_append, length_of_steps?_eq_ok hfirst,
          length_of_steps?_eq_ok hsecond]

/-- After a descent that succeeds the trainable nodes can be found. -/
theorem exists_trainable_run (o : Optimizer α) (g : Graph α) (x : Matrix α) (y : List α) (n : Nat)
    (rate : α) (losses : Losses α) (h : (o.run g x y n rate).1.outcome = .ok losses) :
    ∃ nodes, ((o.run g x y n rate).1.graph.table.trainable :
      Outcome GraphError (List NodeId)) = .ok nodes := by
  cases htrainable : (g.table.trainable : Outcome GraphError (List NodeId)) with
  | error fault =>
    rw [run_of_untrainable htrainable] at h
    cases h
  | ok nodes =>
    rw [run_of_trainable htrainable]
    exact ⟨nodes, (trainable_steps? x y rate nodes n o g).trans htrainable⟩

end Optimizer

/-! ## Batches -/

namespace Model

variable {plan : FitPlan α} {x : Matrix α} {y : List α} {s : FitState α γ σ} {batch b n : Nat}

/-- The losses of `b` batches of `n` steps begin and end as those of one descent. -/
structure Covers (b n : Nat) (whole : Losses α) (losses : List (Losses α)) : Prop where
  length : losses.length = b
  initial : 0 < b → 0 < n → losses.head?.map (·.initial) = some whole.initial
  final : 0 < b → 0 < n → losses.getLast?.map (·.final) = some whole.final

theorem covers_nil (n : Nat) (whole : Losses α) : Covers 0 n whole [] where
  length := rfl
  initial hb := absurd hb (Nat.lt_irrefl 0)
  final hb := absurd hb (Nat.lt_irrefl 0)

theorem Covers.cons {first rest : Losses α} {losses : List (Losses α)}
    (h : Covers b n rest losses) :
    Covers (b + 1) n (Optimizer.Losses.join n (b * n) first rest) (first :: losses) where
  length := congrArg (· + 1) h.length
  initial _ hn := by simp [Optimizer.Losses.join, hn]
  final _ hn := by
    rcases Nat.eq_zero_or_pos b with rfl | hb
    · obtain rfl := List.eq_nil_of_length_eq_zero h.length
      simp [Optimizer.Losses.join]
    · have hne : losses ≠ [] := List.ne_nil_of_length_pos (h.length.symm ▸ hb)
      have hsteps : 0 < b * n := Nat.mul_pos hb hn
      rw [List.getLast?_cons_of_ne_nil hne, h.final hb hn, Optimizer.Losses.join, if_pos hsteps]

/-- A training of `b` batches of `n` steps that ends as one descent does. -/
structure EndsAs (s : FitState α γ σ) (d : Optimizer.Stepped α (Losses α)) (b n : Nat)
    (f : Fitted α γ σ (List (Losses α))) : Prop where
  state : f.state = s.afterDescent d
  outcome : Outcome.Rel (Covers b n) (Outcome.mapFailure ModelError.graph d.outcome) f.outcome

/-- One more batch comes first, and so does its part of the descent. -/
theorem EndsAs.cons {g : Graph α} {o : Optimizer α} {events : List (Event α)}
    {d : Optimizer.Stepped α (Losses α)} {f : Fitted α γ σ (List (Losses α))}
    (h : EndsAs { s with graph := g, optimizer := o } d b n f) (first : Losses α) :
    EndsAs s { d with outcome := d.outcome.map (Optimizer.Losses.join n (b * n) first) } (b + 1) n
      { f with outcome := f.outcome.map (first :: ·), events } := by
  obtain ⟨outcome, g', o'⟩ := d
  obtain ⟨answered, state, events'⟩ := f
  obtain ⟨rfl, houtcome⟩ := h
  cases outcome with
  | error fault =>
    cases fault <;> cases houtcome <;> exact ⟨rfl, .error _⟩
  | ok whole =>
    cases houtcome with
    | ok hcovers => exact ⟨rfl, .ok hcovers.cons⟩

variable [Arith α] [RandomSource σ]

/-- A batch on all rows without a controller is a descent on all rows. -/
theorem fitBatch_of_plain (hplan : plan.resample = false) (batch : Nat) (s : FitState α γ σ) :
    (fitBatch none plan x y batch s).outcome = Outcome.mapFailure ModelError.graph
        (s.optimizer.run s.graph x y plan.stepsPerBatch plan.rate).1.outcome ∧
      (fitBatch none plan x y batch s).state =
        s.afterDescent (s.optimizer.run s.graph x y plan.stepsPerBatch plan.rate).1 := by
  have hrows : batchRows plan x y s.source = ((x, y), s.source) := by simp [batchRows, hplan]
  have hbatch := fitBatch_eq_descent plan x y batch s
  rwa [descent, hrows] at hbatch

/-- Batches on all rows without a controller are one descent, if there is a batch or the trainable
nodes can be found. -/
theorem endsAs_fitFrom (plan : FitPlan α) (x : Matrix α) (y : List α)
    (hplan : plan.resample = false) (b batch : Nat) (s : FitState α γ σ)
    (hb : 0 < b ∨ ∃ nodes, (s.graph.table.trainable : Outcome GraphError (List NodeId)) =
      .ok nodes) :
    EndsAs s (s.optimizer.run s.graph x y (b * plan.stepsPerBatch) plan.rate).1 b
      plan.stepsPerBatch (fitFrom none plan x y b batch s) := by
  induction b generalizing batch s with
  | zero =>
    obtain ⟨nodes, htrainable⟩ := hb.resolve_left (Nat.lt_irrefl 0)
    rw [Nat.zero_mul, Optimizer.run_of_trainable htrainable]
    exact ⟨rfl, .ok (covers_nil _ _)⟩
  | succ b ih =>
    obtain ⟨houtcome, hstate⟩ := fitBatch_of_plain (x := x) (y := y) hplan batch s
    have htrainable := Optimizer.exists_trainable_run s.optimizer s.graph x y plan.stepsPerBatch
      plan.rate
    rw [Nat.succ_mul, Nat.add_comm, Optimizer.run_add]
    unfold fitFrom
    dsimp only
    generalize (s.optimizer.run s.graph x y plan.stepsPerBatch plan.rate).1 = d at *
    rw [houtcome, hstate]
    obtain ⟨fault | first, g, o⟩ := d
    · cases fault <;> exact ⟨rfl, .error _⟩
    · -- the next batch starts where the second part of the descent does
      have hrest := ih (batch + 1) { s with graph := g, optimizer := o }
        (.inr (htrainable first rfl))
      exact hrest.cons first

/-! ## Trainings -/

/-- What a training in `b` batches of `n` steps has in common with one in a single batch: always
the parameters and the reasons for which it is refused, and under a condition all of the state and
of how it ends; and its losses begin and end as those of the single batch do. -/
structure Agrees (sure : Prop) (b n : Nat) (many one : Fitted α γ σ (List (Losses α))) : Prop where
  params : many.state.graph.table.params = one.state.graph.table.params
  refused : ∀ reason, many.outcome = .error (.failure reason) ↔
    one.outcome = .error (.failure reason)
  state : sure → many.state = one.state
  outcome : sure → many.outcome.map (fun _ => ()) = one.outcome.map fun _ => ()
  losses : 0 < b → 0 < n → ∀ losses, many.outcome = .ok losses →
    ∃ whole, one.outcome = .ok [whole] ∧
      losses.head?.map (·.initial) = some whole.initial ∧
      losses.getLast?.map (·.final) = some whole.final

section Agrees

omit [Arith α] [RandomSource σ]

variable {sure : Prop} {many one : Fitted α γ σ (List (Losses α))}
  {d : Optimizer.Stepped α (Losses α)}

/-- A training that is refused before its batches is refused whatever they are. -/
theorem agrees_of_eq (h : many = one) (hrefused : ∀ losses, one.outcome ≠ .ok losses) :
    Agrees sure b n many one := by
  subst h
  exact ⟨rfl, fun _ => Iff.rfl, fun _ => rfl, fun _ => rfl,
    fun _ _ losses hlosses => absurd hlosses (hrefused losses)⟩

/-- Trainings that end as the same descent agree. -/
theorem EndsAs.agrees (h : EndsAs s d b n many) (h' : EndsAs s d 1 (b * n) one) :
    Agrees sure b n many one := by
  have hstate : many.state = one.state := h.state.trans h'.state.symm
  obtain ⟨_, houtcome⟩ := h
  obtain ⟨_, houtcome'⟩ := h'
  obtain ⟨answer, _, _⟩ := many
  obtain ⟨answer', _, _⟩ := one
  dsimp only at hstate houtcome houtcome'
  generalize Outcome.mapFailure ModelError.graph d.outcome = outcome at houtcome houtcome'
  cases houtcome with
  | error fault =>
    cases houtcome'
    exact ⟨by rw [hstate], fun _ => Iff.rfl, fun _ => hstate, fun _ => rfl, fun _ _ _ => nofun⟩
  | ok hcovers =>
    cases houtcome' with
    | ok hwhole =>
      refine ⟨by rw [hstate], fun _ => ⟨nofun, nofun⟩, fun _ => hstate, fun _ => rfl, ?_⟩
      rintro hb hn _ ⟨⟩
      obtain ⟨whole, rfl⟩ := List.length_eq_one_iff.1 hwhole.length
      have hsteps : 0 < b * n := Nat.mul_pos hb hn
      have hinitial := Option.some.inj (hwhole.initial Nat.one_pos hsteps)
      have hfinal := Option.some.inj (hwhole.final Nat.one_pos hsteps)
      exact ⟨whole, rfl, (hcovers.initial hb hn).trans (congrArg some hinitial.symm),
        (hcovers.final hb hn).trans (congrArg some hfinal.symm)⟩

/-- No batch at all agrees with a batch that does not find the trainable nodes: neither changes a
parameter, and neither is refused. -/
theorem EndsAs.agrees_none {m : Nat} {events : List (Event α)}
    (h : EndsAs s ⟨.error .outOfRange, s.graph, s.optimizer⟩ 1 m one) (hsure : ¬sure) :
    Agrees sure 0 n ⟨.ok [], s, events⟩ one := by
  obtain ⟨hstate, houtcome⟩ := h
  obtain ⟨answer, _, _⟩ := one
  obtain rfl := hstate
  cases houtcome
  exact ⟨rfl, fun _ => ⟨nofun, nofun⟩, fun h => absurd h hsure, fun h => absurd h hsure,
    fun hb => absurd hb (Nat.lt_irrefl 0)⟩

end Agrees

/-- Behind the checks, a training without a controller is its batches. -/
theorem fit_none_of_checked (model : Model α) (state : γ) (source : σ) {method : Method}
    (hmethod : Method.ofWord? plan.method = some method) (hrows : x.nRows = y.length) :
    model.fit none state plan x y source =
      fitFrom none plan x y plan.batches 0 ⟨model.graph, .ofMethod method, state, source⟩ := by
  unfold fit
  simp only [hmethod, if_neg (not_not.2 hrows)]
  split <;> rfl

/-- A training that does not get behind its checks does not depend on the rest of the plan. -/
theorem fit_of_unchecked (model : Model α) (state : γ) (source : σ) (plan other : FitPlan α)
    (hword : other.method = plan.method)
    (h : ∀ method, Method.ofWord? plan.method = some method → x.nRows ≠ y.length) :
    model.fit none state other x y source = model.fit none state plan x y source ∧
      ∀ losses, (model.fit none state plan x y source).outcome ≠ .ok losses := by
  unfold fit
  rw [hword]
  cases hmethod : Method.ofWord? plan.method with
  | none => exact ⟨rfl, nofun⟩
  | some method =>
    simp only [ne_eq, h method hmethod, not_false_eq_true, if_true]
    exact ⟨trivial, nofun⟩

/-- Where the batches end does not matter.  A training on all rows without a controller, in `b`
batches of `n` steps, agrees with one in a single batch of `b * n` steps, in all of the state if
there is a batch or the table is well-formed.  A descent of `k + m` steps is one of `k` steps and
then one of `m`, on the graph and on the optimizer. -/
theorem fit_in_batches (model : Model α) (method : String) (rate : α) (x : Matrix α) (y : List α)
    (state : γ) (source : σ) (b n : Nat) :
    Agrees (0 < b ∨ model.graph.table.WellFormed) b n
      (model.fit none state ⟨method, rate, n, b, false⟩ x y source)
      (model.fit none state ⟨method, rate, b * n, 1, false⟩ x y source) ∧
    ∀ (o : Optimizer α) (g : Graph α) (k m : Nat),
      (o.run g x y (k + m) rate).1 =
        (o.run g x y k rate).1.andThen (fun o g => (o.run g x y m rate).1)
          (Optimizer.Losses.join k m) := by
  refine ⟨?_, fun o g k m => Optimizer.run_add o g x y k m rate⟩
  by_cases hchecked : ∃ m, Method.ofWord? method = some m ∧ x.nRows = y.length
  · obtain ⟨m, hmethod, hrows⟩ := hchecked
    rw [fit_none_of_checked model state source hmethod hrows,
      fit_none_of_checked model state source hmethod hrows]
    have hone := endsAs_fitFrom ⟨method, rate, b * n, 1, false⟩ x y rfl 1 0
      ⟨model.graph, .ofMethod m, state, source⟩ (.inl Nat.one_pos)
    dsimp only at hone
    rw [Nat.one_mul] at hone
    by_cases hb : 0 < b ∨ ∃ nodes,
        (model.graph.table.trainable : Outcome GraphError (List NodeId)) = .ok nodes
    · have hmany := endsAs_fitFrom ⟨method, rate, n, b, false⟩ x y rfl b 0
        ⟨model.graph, .ofMethod m, state, source⟩ hb
      exact hmany.agrees hone
    · obtain ⟨hnone, hlost⟩ := not_or.1 hb
      obtain rfl := Nat.eq_zero_of_not_pos hnone
      cases htrainable : (model.graph.table.trainable : Outcome GraphError (List NodeId)) with
      | ok nodes => exact absurd ⟨nodes, htrainable⟩ hlost
      | error fault =>
        obtain rfl := (Optimizer.unrefused_trainable model.graph.table).error fault htrainable
        rw [Optimizer.run_of_untrainable htrainable] at hone
        have hunsure : ¬(0 < 0 ∨ model.graph.table.WellFormed) := fun hsure =>
          hb (hsure.imp_right fun ht => ht.exists_trainable)
        exact hone.agrees_none hunsure
  · have hrows : ∀ m, Method.ofWord? method = some m → x.nRows ≠ y.length :=
      fun m hmethod hrows => hchecked ⟨m, hmethod, hrows⟩
    obtain ⟨hsame, hrefused⟩ := fit_of_unchecked model state source
      ⟨method, rate, b * n, 1, false⟩ ⟨method, rate, n, b, false⟩ rfl hrows
    exact agrees_of_eq hsame hrefused

/-- A training of the column by Adam. -/
def adamTraining (steps batches : Nat) : Fitted Float Unit ChaCha (List (Losses Float)) :=
  (columnModel false).fit none () ⟨"adam", 0.5, steps, batches, false⟩ (.ofFn 1 1 fun _ _ => 1) [1]
    (ChaCha.ofSeed 0)

/-- Two batches of one step, and one batch of two steps. -/
theorem fit_in_batches_column :
    ∃ losses whole, (adamTraining 1 2).outcome = .ok losses ∧
      (adamTraining 2 1).outcome = .ok [whole] ∧
      losses.head?.map (·.initial) = some whole.initial ∧
      losses.getLast?.map (·.final) = some whole.final ∧
      (adamTraining 1 2).state = (adamTraining 2 1).state := by
  have hsucceeds : (adamTraining 1 2).outcome.isOk = true := by decide +kernel
  have hagrees := (fit_in_batches (columnModel false) "adam" 0.5 (.ofFn 1 1 fun _ _ => 1) [1] ()
    (ChaCha.ofSeed 0) 2 1).1
  cases hmany : (adamTraining 1 2).outcome with
  | error fault =>
    rw [hmany] at hsucceeds
    cases hsucceeds
  | ok losses =>
    obtain ⟨whole, hone, hinitial, hfinal⟩ :=
      hagrees.losses Nat.two_pos Nat.one_pos losses hmany
    exact ⟨losses, whole, rfl, hone, hinitial, hfinal, hagrees.state (.inl Nat.two_pos)⟩

end Model

end FeatureGraph
