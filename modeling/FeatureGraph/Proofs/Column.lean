import Mathlib
import FeatureGraph.Matrix
import FeatureGraph.Primitive.Column

/-!
# Columns row by row

The column operations on columns of one length, as functions of the row.  On such
columns `overwrite` is a map, and `update` and `addScaled` go entry by entry: the
blocks of four and what is left over after them meet at the same places.

The lemmas about `List.ofFn` are the form in which the passes use this: every column
is made from a function of the row, and so is what is computed from it.
-/

namespace FeatureGraph

/-- One row of a matrix. -/
def Matrix.row {α : Type} (x : Matrix α) (r : Fin x.nRows) : List α := List.ofFn (x.entry r)

namespace Column

variable {α β γ : Type}

/-! ## Columns of one length -/

theorem overwrite_eq_map (f : β → α) {ds : List α} {ss : List β}
    (h : ds.length = ss.length) : overwrite f ds ss = ss.map f := by
  induction ds generalizing ss with
  | nil =>
    rw [List.length_nil] at h
    rw [List.length_eq_zero_iff.1 h.symm]
    rfl
  | cons d ds ih =>
    cases ss with
    | nil => simp at h
    | cons s ss =>
      rw [overwrite, List.map_cons, ih (by simpa using h)]

theorem update_eq_zipWith (f : α → β → α) {ds : List α} {ss : List β}
    (h : ds.length = ss.length) : update f ds ss = List.zipWith f ds ss := by
  induction ds generalizing ss with
  | nil =>
    rw [List.length_nil] at h
    rw [List.length_eq_zero_iff.1 h.symm]
    rfl
  | cons d ds ih =>
    cases ss with
    | nil => simp at h
    | cons s ss =>
      rw [update, List.zipWith_cons_cons, ih (by simpa using h)]

section Scaled

variable [Arith α]

/-- Without a full block there are only the entries that are left over. -/
theorem addScaledRest_eq_zipWith (a : α) {ds ss : List α} (h : ds.length = ss.length)
    (hshort : ds.length < 4) :
    addScaledRest a ds ss = List.zipWith (fun d s => d + a * s) ds ss := by
  have hfull : ds.length - ds.length % 4 = 0 := by omega
  have hrest : ss.length - ss.length % 4 = 0 := by omega
  simp only [addScaledRest, hfull, hrest, List.take_zero, List.drop_zero, List.nil_append]
  exact update_eq_zipWith _ h

omit [Arith α] in
theorem exists_block {l : List α} (h : 4 ≤ l.length) :
    ∃ a b c d rest, l = a :: b :: c :: d :: rest := by
  rcases l with _ | ⟨a, _ | ⟨b, _ | ⟨c, _ | ⟨d, rest⟩⟩⟩⟩
  · simp at h
  · simp at h
  · simp at h
  · simp at h
  · exact ⟨a, b, c, d, rest, rfl⟩

omit [Arith α] in
/-- Two columns that do not both begin with a full block are not both that long. -/
theorem short_of_no_block {ds ss : List α}
    (h : ∀ d₀ d₁ d₂ d₃ ds' s₀ s₁ s₂ s₃ ss', ds = d₀ :: d₁ :: d₂ :: d₃ :: ds' →
      ss = s₀ :: s₁ :: s₂ :: s₃ :: ss' → False) : ds.length < 4 ∨ ss.length < 4 := by
  by_contra hlong
  obtain ⟨d₀, d₁, d₂, d₃, ds, rfl⟩ := exists_block (show 4 ≤ ds.length by omega)
  obtain ⟨s₀, s₁, s₂, s₃, ss, rfl⟩ := exists_block (show 4 ≤ ss.length by omega)
  exact h d₀ d₁ d₂ d₃ ds s₀ s₁ s₂ s₃ ss rfl rfl

/-- On columns of one length a multiple is added entry by entry. -/
theorem addScaled_eq_zipWith (a : α) {ds ss : List α} (h : ds.length = ss.length) :
    addScaled a ds ss = List.zipWith (fun d s => d + a * s) ds ss := by
  fun_induction addScaled a ds ss with
  | case1 d₀ d₁ d₂ d₃ ds s₀ s₁ s₂ s₃ ss ih => simp [ih (by simpa using h)]
  | case2 ds ss hblock =>
    have hshort := short_of_no_block hblock
    exact addScaledRest_eq_zipWith a h (by omega)

end Scaled

/-! ## Columns from functions of the row -/

variable {n : Nat}

theorem zipWith_ofFn (f : α → β → γ) (a : Fin n → α) (b : Fin n → β) :
    List.zipWith f (List.ofFn a) (List.ofFn b) = List.ofFn fun r => f (a r) (b r) := by
  refine List.ext_getElem (by simp) fun r _ _ => ?_
  simp

theorem overwrite_ofFn (f : β → α) {ds : List α} (hds : ds.length = n) (s : Fin n → β) :
    overwrite f ds (List.ofFn s) = List.ofFn fun r => f (s r) := by
  rw [overwrite_eq_map f (by simpa using hds), List.map_ofFn]
  rfl

theorem overwrite₂_ofFn (f : α → α → α) {ds : List α} (hds : ds.length = n)
    (a b : Fin n → α) :
    overwrite₂ f ds (List.ofFn a) (List.ofFn b) = List.ofFn fun r => f (a r) (b r) := by
  rw [overwrite₂, List.zip, zipWith_ofFn, overwrite_ofFn _ hds]

variable [Arith α]

theorem zeros_eq_ofFn : (zeros n : List α) = List.ofFn fun _ : Fin n => 0 := by
  rw [List.ofFn_const, zeros]

theorem addScaled_ofFn (a : α) (d s : Fin n → α) :
    addScaled a (List.ofFn d) (List.ofFn s) = List.ofFn fun r => d r + a * s r := by
  rw [addScaled_eq_zipWith a (by simp), zipWith_ofFn]

end Column

end FeatureGraph
