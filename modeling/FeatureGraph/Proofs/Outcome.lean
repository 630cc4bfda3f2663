import Mathlib
import FeatureGraph.Outcome

/-!
# Reasoning about outcomes

Steps and runs of operations that may fail.  The lemmas take a successful run apart
into the successes of its parts, and put it together again.

* `bind_eq_ok` and the lemmas after it treat one step.
* `mapM_eq_ok`, `filterM_ok` and `forM_eq_ok_iff` treat one operation on every
  entry of a list.
* `foldlM_keeps` is the induction that carries an invariant through a run, `exists_foldlM` is
  the run that cannot fail where the invariant holds, and `foldlM_eq_ok` is the run whose states
  are known in advance.
* `foldlM_congr` and the lemmas after it compare two runs, and `Rel.foldlM` is the induction that
  carries a relation between two states through them.
* `run_bind` takes a run apart that works on a state.
* `Safe` says that nothing was read outside of the stored data.
* `Meets` says how an outcome may fail and what it may answer.  `Yields` and `Unrefused` are its
  two uses: only stated failures, and no stated failure.
-/

namespace FeatureGraph.Outcome

variable {ε δ β γ σ : Type}

/-! ## One step -/

/-- A step followed by another one succeeds exactly when both do. -/
theorem bind_eq_ok {a : Outcome ε β} {f : β → Outcome ε γ} {c : γ} :
    (a >>= f) = .ok c ↔ ∃ b, a = .ok b ∧ f b = .ok c := by
  cases a with
  | error fault => simp [bind, Except.bind]
  | ok b => simp [bind, Except.bind]

/-- A check followed by a step succeeds exactly when both do. -/
theorem check_bind_eq_ok {a : Outcome ε Unit} {f : Unit → Outcome ε γ} {c : γ} :
    (a >>= f) = .ok c ↔ a = .ok () ∧ f () = .ok c := by
  rw [bind_eq_ok]
  exact ⟨fun ⟨_, ha, hf⟩ => ⟨ha, hf⟩, fun ⟨ha, hf⟩ => ⟨(), ha, hf⟩⟩

/-- A step followed by another one fails where one of them does. -/
theorem bind_eq_error {a : Outcome ε β} {f : β → Outcome ε γ} {fault : Fault ε} :
    (a >>= f) = .error fault ↔ a = .error fault ∨ ∃ b, a = .ok b ∧ f b = .error fault := by
  cases a with
  | error _ => simp [bind, Except.bind]
  | ok b => simp [bind, Except.bind]

/-- An answer is named by what it is. -/
theorem ok_eq_iff {b c : β} : (.ok b : Outcome ε β) = .ok c ↔ c = b := by
  rw [Except.ok.injEq, eq_comm]

@[simp] theorem ok_bind (b : β) (f : β → Outcome ε γ) : ((.ok b : Outcome ε β) >>= f) = f b :=
  rfl

@[simp] theorem error_bind (fault : Fault ε) (f : β → Outcome ε γ) :
    ((.error fault : Outcome ε β) >>= f) = .error fault :=
  rfl

@[simp] theorem pure_eq_ok (b : β) : (pure b : Outcome ε β) = .ok b := rfl

theorem map_eq_ok {a : Outcome ε β} {f : β → γ} {c : γ} :
    a.map f = .ok c ↔ ∃ b, a = .ok b ∧ f b = c := by
  cases a with
  | error fault => simp [Except.map]
  | ok b => simp [Except.map]

theorem map_eq_error {a : Outcome ε β} {f : β → γ} {fault : Fault ε} :
    a.map f = .error fault ↔ a = .error fault := by
  cases a with
  | error _ => simp [Except.map]
  | ok b => simp [Except.map]

/-- Rewording a failure does not touch a success. -/
theorem mapFailure_eq_ok {f : ε → δ} {a : Outcome ε β} {b : β} :
    mapFailure f a = .ok b ↔ a = .ok b := by
  rcases a with (_ | _) | _ <;> simp [mapFailure]

@[simp] theorem mapFailure_ok (f : ε → δ) (b : β) :
    mapFailure f (.ok b : Outcome ε β) = .ok b :=
  rfl

theorem ofOption_eq_ok {o : Option β} {b : β} :
    (ofOption o : Outcome ε β) = .ok b ↔ o = some b := by
  cases o <;> simp [ofOption, outOfRange]

theorem fetch_eq_ok {xs : Array β} {i : Nat} {b : β} :
    (fetch xs i : Outcome ε β) = .ok b ↔ xs[i]? = some b :=
  ofOption_eq_ok

/-- A fetch fails outside of the stored data only. -/
theorem fetch_ne_failure {xs : Array β} {i : Nat} {reason : ε} :
    (fetch xs i : Outcome ε β) ≠ .error (.failure reason) := by
  unfold fetch ofOption outOfRange
  split <;> simp

theorem fetchList_eq_ok {xs : List β} {i : Nat} {b : β} :
    (fetchList xs i : Outcome ε β) = .ok b ↔ xs[i]? = some b :=
  ofOption_eq_ok

theorem store_eq_ok {xs ys : Array β} {i : Nat} {b : β} :
    (store xs i b : Outcome ε (Array β)) = .ok ys ↔ i < xs.size ∧ ys = xs.setIfInBounds i b := by
  unfold store
  split
  · rename_i hi
    simp [hi, Array.setIfInBounds, eq_comm]
  · rename_i hi
    simp [hi, outOfRange]

/-- Whether an outcome is a stated failure. -/
def isFailure : Outcome ε β → Bool
  | .error (.failure _) => true
  | _ => false

theorem isFailure_iff {a : Outcome ε β} :
    isFailure a = true ↔ ∃ reason, a = .error (.failure reason) := by
  rcases a with (reason | _) | b <;> simp [isFailure]

/-! ## One operation on every entry -/

/-- An operation on every entry answers the answers of the entries. -/
theorem mapM_eq_ok {f : β → Outcome ε γ} {xs : List β} {ys : List γ} :
    xs.mapM f = .ok ys ↔ List.Forall₂ (fun x y => f x = .ok y) xs ys := by
  induction xs generalizing ys with
  | nil => cases ys <;> simp
  | cons x xs ih =>
    rw [List.mapM_cons]
    simp only [bind_eq_ok, pure_eq_ok, Except.ok.injEq, ih]
    cases ys with
    | nil => simp
    | cons y ys =>
      simp only [List.cons.injEq, List.forall₂_cons]
      constructor
      · rintro ⟨b, hb, bs, hbs, rfl, rfl⟩
        exact ⟨hb, hbs⟩
      · rintro ⟨hb, hbs⟩
        exact ⟨y, hb, ys, hbs, rfl, rfl⟩

/-- An operation that succeeds on every entry succeeds on the list. -/
theorem mapM_ok {f : β → Outcome ε γ} {g : β → γ} {xs : List β}
    (h : ∀ x ∈ xs, f x = .ok (g x)) : xs.mapM f = .ok (xs.map g) := by
  rw [mapM_eq_ok, List.forall₂_map_right_iff, List.forall₂_same]
  exact h

/-- The answers of an operation whose answers are known in advance. -/
theorem eq_map_of_mapM_eq_ok {f : β → Outcome ε γ} {g : β → γ} {xs : List β} {ys : List γ}
    (h : xs.mapM f = .ok ys) (hg : ∀ x ∈ xs, ∀ y, f x = .ok y → y = g x) : ys = xs.map g := by
  rw [mapM_eq_ok] at h
  induction h with
  | nil => rfl
  | @cons x y xs ys hxy _ ih =>
    rw [List.map_cons, ← hg x (by simp) y hxy, ← ih fun z hz => hg z (by simp [hz])]

/-- A test that succeeds on every entry filters the list. -/
theorem filterM_ok {f : β → Outcome ε Bool} {p : β → Bool} {xs : List β}
    (h : ∀ x ∈ xs, f x = .ok (p x)) : xs.filterM f = .ok (xs.filter p) := by
  have haux : ∀ acc : List β,
      xs.filterAuxM f acc = (.ok ((xs.filter p).reverse ++ acc) : Outcome ε (List β)) := by
    induction xs with
    | nil => intro acc; rfl
    | cons x xs ih =>
      intro acc
      rw [List.filterAuxM, h x (by simp), ok_bind, ih fun y hy => h y (by simp [hy])]
      cases hp : p x <;> simp [hp]
  rw [List.filterM, haux]
  simp

/-- Whatever a filter keeps has passed its test. -/
theorem of_mem_filterM {f : β → Outcome ε Bool} {xs ys : List β} (h : xs.filterM f = .ok ys)
    {y : β} (hy : y ∈ ys) : f y = .ok true := by
  have haux : ∀ {xs acc ys : List β}, xs.filterAuxM f acc = .ok ys →
      (∀ y ∈ acc, f y = .ok true) → ∀ y ∈ ys, f y = .ok true := by
    intro xs
    induction xs with
    | nil =>
      intro acc ys h hacc
      rw [List.filterAuxM, pure_eq_ok, Except.ok.injEq] at h
      exact h ▸ hacc
    | cons x xs ih =>
      intro acc ys h hacc
      obtain ⟨b, hb, h⟩ := bind_eq_ok.1 h
      refine ih h fun y hy => ?_
      cases b with
      | false => exact hacc y hy
      | true =>
        rcases List.mem_cons.1 hy with rfl | hy
        · exact hb
        · exact hacc y hy
  obtain ⟨kept, hkept, h⟩ := bind_eq_ok.1 h
  rw [pure_eq_ok, Except.ok.injEq] at h
  exact haux hkept (by simp) y (List.mem_reverse.1 (h ▸ hy))

/-- A filter keeps entries in their order. -/
theorem sublist_of_filterM {f : β → Outcome ε Bool} {xs ys : List β} (h : xs.filterM f = .ok ys) :
    ys.Sublist xs := by
  have haux : ∀ {xs acc ys : List β}, xs.filterAuxM f acc = .ok ys →
      ∃ kept : List β, ys = kept.reverse ++ acc ∧ kept.Sublist xs := by
    intro xs
    induction xs with
    | nil =>
      intro acc ys h
      rw [List.filterAuxM, pure_eq_ok, Except.ok.injEq] at h
      exact ⟨[], h.symm, .slnil⟩
    | cons x xs ih =>
      intro acc ys h
      obtain ⟨b, _, h⟩ := bind_eq_ok.1 h
      obtain ⟨kept, rfl, hkept⟩ := ih h
      cases b with
      | false => exact ⟨kept, rfl, hkept.cons x⟩
      | true => exact ⟨x :: kept, by simp, hkept.cons_cons x⟩
  rw [List.filterM] at h
  obtain ⟨reversed, hreversed, h⟩ := bind_eq_ok.1 h
  rw [pure_eq_ok, Except.ok.injEq] at h
  obtain ⟨kept, rfl, hkept⟩ := haux hreversed
  rw [← h]
  simpa using hkept
/-- A check passes a list exactly when it passes every entry. -/
theorem forM_eq_ok_iff {f : β → Outcome ε Unit} {xs : List β} :
    xs.forM f = .ok () ↔ ∀ x ∈ xs, f x = .ok () := by
  induction xs with
  | nil => simp [List.forM]
  | cons x xs ih =>
    change (f x >>= fun _ => xs.forM f) = .ok () ↔ _
    rw [bind_eq_ok, List.forall_mem_cons, ← ih]
    exact ⟨fun ⟨_, hx, hxs⟩ => ⟨hx, hxs⟩, fun ⟨hx, hxs⟩ => ⟨(), hx, hxs⟩⟩

/-- A check that refuses a list refuses one of the entries. -/
theorem exists_of_forM_eq_error {f : β → Outcome ε Unit} {xs : List β} {fault : Fault ε}
    (h : xs.forM f = .error fault) : ∃ x ∈ xs, f x = .error fault := by
  induction xs with
  | nil => cases h
  | cons x xs ih =>
    have hsplit : (f x >>= fun _ => xs.forM f) = .error fault := h
    rcases bind_eq_error.1 hsplit with hx | ⟨_, _, hxs⟩
    · exact ⟨x, by simp, hx⟩
    · obtain ⟨z, hz, hfault⟩ := ih hxs
      exact ⟨z, List.mem_cons_of_mem _ hz, hfault⟩

/-! ## Runs -/

/-- What every step keeps holds after a successful run. -/
theorem foldlM_keeps {P : σ → Prop} {f : σ → β → Outcome ε σ} {xs : List β} {s s' : σ}
    (hrun : xs.foldlM f s = .ok s') (hs : P s)
    (hstep : ∀ s s', ∀ x ∈ xs, P s → f s x = .ok s' → P s') : P s' := by
  induction xs generalizing s with
  | nil =>
    rw [List.foldlM_nil, pure_eq_ok, Except.ok.injEq] at hrun
    exact hrun ▸ hs
  | cons x xs ih =>
    rw [List.foldlM_cons, bind_eq_ok] at hrun
    obtain ⟨t, ht, hrun⟩ := hrun
    exact ih hrun (hstep s t x (by simp) hs ht)
      fun a b y hy => hstep a b y (by simp [hy])

/-- A run whose state after every number of steps is known. -/
theorem foldlM_eq_ok {f : σ → β → Outcome ε σ} {xs : List β} (state : Nat → σ)
    (hstep : ∀ i (hi : i < xs.length), f (state i) xs[i] = .ok (state (i + 1))) :
    xs.foldlM f (state 0) = .ok (state xs.length) := by
  induction xs generalizing state with
  | nil => rfl
  | cons x xs ih =>
    have hfirst : f (state 0) x = .ok (state 1) := hstep 0 (by simp)
    rw [List.foldlM_cons, hfirst, ok_bind, List.length_cons]
    exact ih (fun i => state (i + 1)) fun i hi => hstep (i + 1) (by simpa using hi)

/-- A run whose steps succeed wherever an invariant holds, and keep it. -/
theorem exists_foldlM {P : σ → Prop} {f : σ → β → Outcome ε σ} {xs : List β} {s : σ} (hs : P s)
    (hstep : ∀ s, ∀ x ∈ xs, P s → ∃ s', f s x = .ok s' ∧ P s') :
    ∃ s', xs.foldlM f s = .ok s' ∧ P s' := by
  induction xs generalizing s with
  | nil => exact ⟨s, rfl, hs⟩
  | cons x xs ih =>
    obtain ⟨t, ht, hPt⟩ := hstep s x (by simp) hs
    obtain ⟨s', hrun, hPs'⟩ := ih hPt fun s y hy => hstep s y (by simp [hy])
    refine ⟨s', ?_, hPs'⟩
    rw [List.foldlM_cons, ht, ok_bind, hrun]

/-! ## Two runs -/

/-- Steps that do the same on every entry make the same run. -/
theorem foldlM_congr {f g : σ → β → Outcome ε σ} {xs : List β}
    (h : ∀ x ∈ xs, ∀ s, f s x = g s x) (s : σ) : xs.foldlM f s = xs.foldlM g s := by
  induction xs generalizing s with
  | nil => rfl
  | cons x xs ih =>
    rw [List.foldlM_cons, List.foldlM_cons, h x (by simp) s]
    exact congrArg _ (funext fun s => ih (fun y hy => h y (by simp [hy])) s)

theorem filterM_congr {f g : β → Outcome ε Bool} {xs : List β} (h : ∀ x ∈ xs, f x = g x) :
    xs.filterM f = xs.filterM g := by
  have haux : ∀ acc, xs.filterAuxM f acc = xs.filterAuxM g acc := by
    induction xs with
    | nil => exact fun _ => rfl
    | cons x xs ih =>
      intro acc
      rw [List.filterAuxM, List.filterAuxM, h x (by simp)]
      exact congrArg _ (funext fun b => ih (fun y hy => h y (by simp [hy])) _)
  rw [List.filterM, List.filterM, haux]

/-- Two outcomes that fail with the same fault, or answer what is related. -/
inductive Rel (R : β → γ → Prop) : Outcome ε β → Outcome ε γ → Prop where
  | ok {b : β} {c : γ} (h : R b c) : Rel R (.ok b) (.ok c)
  | error (fault : Fault ε) : Rel R (.error fault) (.error fault)

theorem Rel.bind {β' γ' : Type} {R : β → γ → Prop} {S : β' → γ' → Prop} {a : Outcome ε β}
    {b : Outcome ε γ} (h : Rel R a b) {f : β → Outcome ε β'} {g : γ → Outcome ε γ'}
    (hf : ∀ u v, R u v → Rel S (f u) (g v)) : Rel S (a >>= f) (b >>= g) := by
  cases h with
  | ok h => exact hf _ _ h
  | error fault => exact .error fault

theorem Rel.mono {R S : β → γ → Prop} {a : Outcome ε β} {b : Outcome ε γ} (h : Rel R a b)
    (hRS : ∀ u v, R u v → S u v) : Rel S a b := by
  cases h with
  | ok h => exact .ok (hRS _ _ h)
  | error fault => exact .error fault

/-- Steps that keep two states related make runs that keep them related. -/
theorem Rel.foldlM {τ : Type} {R : σ → τ → Prop} {f : σ → β → Outcome ε σ}
    {g : τ → β → Outcome ε τ} {xs : List β} {s : σ} {t : τ} (h : R s t)
    (hstep : ∀ x ∈ xs, ∀ s t, R s t → Rel R (f s x) (g t x)) :
    Rel R (xs.foldlM f s) (xs.foldlM g t) := by
  induction xs generalizing s t with
  | nil => exact .ok h
  | cons x xs ih =>
    rw [List.foldlM_cons, List.foldlM_cons]
    have hrel := hstep x (by simp) s t h
    generalize f s x = a at hrel ⊢
    generalize g t x = b at hrel ⊢
    cases hrel with
    | ok hnext => exact ih hnext fun y hy => hstep y (by simp [hy])
    | error fault => exact .error fault

/-! ## Steps on a state -/

/-- One step after another: the second one starts from what the first one leaves behind, also when
the first one has failed. -/
theorem run_bind (e : ExceptT (Fault ε) (StateM σ) β) (f : β → ExceptT (Fault ε) (StateM σ) γ)
    (s : σ) : (e >>= f).run.run s =
      match e.run.run s with
      | (.ok b, s') => (f b).run.run s'
      | (.error fault, s') => (.error fault, s') := by
  rcases he : e.run.run s with ⟨_ | _, s'⟩ <;>
  · simp only [ExceptT.run, StateT.run] at he ⊢
    simp only [bind, ExceptT.bind, ExceptT.mk, StateT.bind, he]
    rfl

/-! ## Staying inside of the stored data -/

/-- An outcome that has not read or written outside of the stored data. -/
def Safe (a : Outcome ε β) : Prop := a ≠ .error .outOfRange

theorem safe_ok (b : β) : Safe (.ok b : Outcome ε β) := nofun

theorem safe_fail (reason : ε) : Safe (fail reason : Outcome ε β) := nofun

theorem Safe.bind {a : Outcome ε β} {f : β → Outcome ε γ} (ha : Safe a)
    (hf : ∀ b, a = .ok b → Safe (f b)) : Safe (a >>= f) := by
  cases a with
  | error fault =>
    rintro ⟨⟩
    exact ha rfl
  | ok b => exact hf b rfl

theorem Safe.map {a : Outcome ε β} (ha : Safe a) (f : β → γ) : Safe (a.map f) := by
  cases a with
  | error fault =>
    rintro ⟨⟩
    exact ha rfl
  | ok b => exact safe_ok (f b)

/-! ## How an outcome may end -/

/-- A fault, if there is one, is of the given kind, and an answer, if there is one, has the given
property. -/
structure Meets (F : Fault ε → Prop) (P : β → Prop) (a : Outcome ε β) : Prop where
  error : ∀ fault, a = .error fault → F fault
  ok : ∀ b, a = .ok b → P b

section Meets

variable {F : Fault ε → Prop} {P : β → Prop} {Q : γ → Prop}

theorem meets_ok {b : β} (h : P b) : Meets F P (.ok b : Outcome ε β) where
  error := nofun
  ok _ hb := Except.ok.inj hb ▸ h

theorem meets_error {fault : Fault ε} (h : F fault) : Meets F P (.error fault : Outcome ε β) where
  error _ hfault := Except.error.inj hfault ▸ h
  ok := nofun

theorem Meets.mono {P' : β → Prop} {a : Outcome ε β} (h : Meets F P a)
    (hP : ∀ b, a = .ok b → P b → P' b) : Meets F P' a where
  error := h.error
  ok b hb := hP b hb (h.ok b hb)

theorem Meets.bind {a : Outcome ε β} {f : β → Outcome ε γ} (ha : Meets F P a)
    (hf : ∀ b, P b → Meets F Q (f b)) : Meets F Q (a >>= f) := by
  cases a with
  | error fault => exact meets_error (ha.error fault rfl)
  | ok b => exact hf b (ha.ok b rfl)

theorem Meets.map {a : Outcome ε β} (ha : Meets F P a) {f : β → γ} (hf : ∀ b, P b → Q (f b)) :
    Meets F Q (a.map f) := by
  cases a with
  | error fault => exact meets_error (ha.error fault rfl)
  | ok b => exact meets_ok (hf b (ha.ok b rfl))

/-- An outcome that may not fail is an answer. -/
theorem Meets.exists_ok {a : Outcome ε β} (h : Meets (fun _ => False) P a) :
    ∃ b, a = .ok b ∧ P b := by
  cases a with
  | error fault => exact (h.error fault rfl).elim
  | ok b => exact ⟨b, rfl, h.ok b rfl⟩

/-- Another way of saying which faults there may be. -/
theorem Meets.fault {G : Fault ε → Prop} {a : Outcome ε β} (h : Meets F P a)
    (hG : ∀ fault, F fault → G fault) : Meets G P a where
  error fault hfault := hG fault (h.error fault hfault)
  ok := h.ok

/-- Rewording a failure does not touch an answer. -/
theorem Meets.mapFailure {G : Fault δ → Prop} {f : ε → δ} {a : Outcome ε β} (h : Meets F P a)
    (hfailure : ∀ reason, F (.failure reason) → G (.failure (f reason)))
    (houtside : F .outOfRange → G .outOfRange) : Meets G P (Outcome.mapFailure f a) := by
  rcases a with (reason | _) | b
  · exact meets_error (hfailure reason (h.error _ rfl))
  · exact meets_error (houtside (h.error _ rfl))
  · exact meets_ok (h.ok b rfl)

theorem meets_fetch {xs : Array β} {i : Nat} (h : xs.size ≤ i → F .outOfRange) :
    Meets F (fun b => xs[i]? = some b) (fetch xs i : Outcome ε β) := by
  by_cases hi : i < xs.size
  · rw [fetch_of_lt hi]
    exact meets_ok (Array.getElem?_eq_getElem hi)
  · have hnone : xs[i]? = none := Array.getElem?_eq_none (Nat.le_of_not_lt hi)
    rw [fetch, hnone]
    exact meets_error (h (Nat.le_of_not_lt hi))

theorem meets_mapM {Q : β → γ → Prop} {f : β → Outcome ε γ} {xs : List β}
    (h : ∀ x ∈ xs, Meets F (Q x) (f x)) : Meets F (List.Forall₂ Q xs) (xs.mapM f) := by
  induction xs with
  | nil => exact meets_ok .nil
  | cons x xs ih =>
    rw [List.mapM_cons]
    refine (h x (by simp)).bind fun y hy => ?_
    exact (ih fun z hz => h z (by simp [hz])).bind fun ys hys => meets_ok (.cons hy hys)

theorem meets_forM {P : Unit → Prop} {f : β → Outcome ε Unit} {xs : List β} (hP : P ())
    (h : ∀ x ∈ xs, Meets F P (f x)) : Meets F P (xs.forM f) := by
  induction xs with
  | nil => exact meets_ok hP
  | cons x xs ih => exact (h x (by simp)).bind fun _ _ => ih fun z hz => h z (by simp [hz])

/-- A test that fails for certain reasons only filters the list or fails for one of them. -/
theorem meets_filterM {f : β → Outcome ε Bool} {p : β → Bool} {xs : List β}
    (h : ∀ x ∈ xs, Meets F (· = p x) (f x)) : Meets F (· = xs.filter p) (xs.filterM f) := by
  have haux : ∀ acc : List β,
      Meets F (· = (xs.filter p).reverse ++ acc) (xs.filterAuxM f acc) := by
    induction xs with
    | nil => exact fun acc => meets_ok rfl
    | cons x xs ih =>
      intro acc
      rw [List.filterAuxM]
      refine (h x (by simp)).bind ?_
      rintro _ rfl
      refine (ih (fun y hy => h y (by simp [hy])) _).mono ?_
      rintro _ _ rfl
      cases hp : p x <;> simp [hp]
  refine (haux []).bind ?_
  rintro _ rfl
  exact meets_ok (by simp)

/-- A run whose state after every number of steps has a known property. -/
theorem meets_foldlM {P : Nat → σ → Prop} {f : σ → β → Outcome ε σ} {l : List β} {s : σ}
    (hs : P 0 s) (hstep : ∀ i (hi : i < l.length) s, P i s → Meets F (P (i + 1)) (f s l[i])) :
    Meets F (P l.length) (l.foldlM f s) := by
  induction l generalizing s P with
  | nil => exact meets_ok hs
  | cons x xs ih =>
    rw [List.foldlM_cons]
    refine (hstep 0 (by simp) s hs).bind fun t ht => ?_
    rw [List.length_cons]
    exact ih (P := fun i => P (i + 1)) ht fun i hi => hstep (i + 1) (by simpa using hi)

end Meets

/-- Nothing outside of the stored data is read, and an answer has the given property. -/
abbrev Yields (P : β → Prop) (a : Outcome ε β) : Prop := Meets (· ≠ .outOfRange) P a

theorem yields_failure {P : β → Prop} (reason : ε) :
    Yields P (.error (.failure reason) : Outcome ε β) :=
  meets_error nofun

theorem Yields.safe {P : β → Prop} {a : Outcome ε β} (h : Yields P a) : Safe a :=
  fun ha => h.error _ ha rfl

/-- Nothing is refused: a failure can only be a read outside of the stored data. -/
abbrev Unrefused (a : Outcome ε β) : Prop := Meets (· = .outOfRange) (fun _ => True) a

theorem Meets.ne_failure {P : β → Prop} {a : Outcome ε β} (h : Meets (· = .outOfRange) P a)
    (reason : ε) : a ≠ .error (.failure reason) :=
  fun ha => nomatch h.error _ ha

theorem unrefused_ok (b : β) : Unrefused (.ok b : Outcome ε β) := meets_ok trivial

theorem unrefused_outOfRange : Unrefused (outOfRange : Outcome ε β) := meets_error rfl

theorem unrefused_ofOption (o : Option β) : Unrefused (ofOption o : Outcome ε β) := by
  cases o with
  | none => exact unrefused_outOfRange
  | some b => exact unrefused_ok b

theorem unrefused_fetch (xs : Array β) (i : Nat) : Unrefused (fetch xs i : Outcome ε β) :=
  unrefused_ofOption _

theorem unrefused_fetchList (xs : List β) (i : Nat) : Unrefused (fetchList xs i : Outcome ε β) :=
  unrefused_ofOption _

theorem unrefused_store (xs : Array β) (i : Nat) (b : β) :
    Unrefused (store xs i b : Outcome ε (Array β)) := by
  unfold store
  split
  · exact unrefused_ok _
  · exact unrefused_outOfRange

end FeatureGraph.Outcome
