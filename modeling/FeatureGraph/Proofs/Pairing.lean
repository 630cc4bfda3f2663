import FeatureGraph.Proofs.ForwardPass
import FeatureGraph.Proofs.Slope
import FeatureGraph.Graph.Sweep

/-!
# Gradients against tangents

The gradients that a backward pass keeps, as functions of the slot and the row, and
their pairing with tangents: the sum of the products over all slots and rows.

* `foldlM_accumulate` says what is left in the slots when several columns are added to
  them, to the same slot more than once if need be.
* `pairing_addAll` says by how much the pairing grows.
-/

namespace FeatureGraph

variable {ε α : Type} {n m : Nat}

/-- Slots that hold the given gradients. -/
def gradientSlots (m : Nat) (a : Nat → Fin n → α) : Slots α where
  nRows := n
  columns := Array.ofFn fun k : Fin m => List.ofFn (a k)

theorem get_gradientSlots {a : Nat → Fin n → α} {k : Nat} (hk : k < m) :
    ((gradientSlots m a).get k : Outcome ε (List α)) = .ok (List.ofFn (a k)) :=
  Slots.get_eq (by simp [gradientSlots, hk])

theorem set_gradientSlots {a : Nat → Fin n → α} {k : Nat} (hk : k < m) (b : Fin n → α) :
    ((gradientSlots m a).set k (List.ofFn b) : Outcome ε (Slots α)) =
      .ok (gradientSlots m (Function.update a k b)) := by
  have hlength : ¬(List.ofFn (a k)).length ≠ (List.ofFn b).length := by simp
  rw [Slots.set, get_gradientSlots hk, Outcome.ok_bind, if_neg hlength, Outcome.pure_eq_ok,
    Except.ok.injEq, gradientSlots, gradientSlots, Slots.mk.injEq]
  refine ⟨rfl, Array.ext (by simp) fun i hi _ => ?_⟩
  have him : i < m := by simpa using hi
  rw [Array.getElem_setIfInBounds (by simpa using him), Array.getElem_ofFn, Array.getElem_ofFn]
  by_cases hik : k = i
  · subst hik
    simp
  · rw [if_neg hik]
    simp [Function.update_of_ne (Ne.symm hik)]

theorem zeros_eq_gradientSlots [Arith α] :
    (Slots.zeros m n : Slots α) = gradientSlots m fun _ (_ : Fin n) => 0 := by
  simp [Slots.zeros, gradientSlots, Column.zeros]

variable [ExactArith α]

/-! ## Adding to several slots -/

/-- The gradients when the listed ones have been added, one after the other. -/
def addAll (a : Nat → Fin n → α) (l : List (Nat × (Fin n → α))) : Nat → Fin n → α :=
  l.foldl (fun a e => Function.update a e.1 (a e.1 + e.2)) a

theorem accumulate_gradientSlots {a : Nat → Fin n → α} {i s : Nat} (hs : s < i) (hm : s < m)
    (d : Fin n → α) :
    Tape.accumulate i (gradientSlots m a) (s, List.ofFn d) =
      .ok (gradientSlots m (Function.update a s (a s + d))) := by
  have hinside : ¬((gradientSlots m a).nRows ≠ 0 ∧ i ≤ s) := fun h => Nat.not_le.2 hs h.2
  have hsum : Column.addScaled 1 (List.ofFn (a s)) (List.ofFn d) = List.ofFn (a s + d) := by
    rw [Column.addScaled_ofFn]
    simp only [one_mul]
    rfl
  rw [Tape.accumulate, if_neg hinside, get_gradientSlots hm, Outcome.ok_bind, hsum,
    set_gradientSlots hm]

theorem foldlM_accumulate {a : Nat → Fin n → α} {i : Nat} (hi : i ≤ m)
    {l : List (Nat × (Fin n → α))} (hl : ∀ e ∈ l, e.1 < i) :
    (l.map fun e => (e.1, List.ofFn e.2)).foldlM (Tape.accumulate i) (gradientSlots m a) =
      .ok (gradientSlots m (addAll a l)) := by
  induction l generalizing a with
  | nil => rfl
  | cons e l ih =>
    have he : e.1 < i := hl e (by simp)
    rw [List.map_cons, List.foldlM_cons, accumulate_gradientSlots he (by omega),
      Outcome.ok_bind, ih fun e' he' => hl e' (by simp [he'])]
    rfl

/-! ## The pairing -/

/-- Sum of the products of gradients and tangents over the first `i` slots. -/
def pairing (i : Nat) (a u : Nat → Fin n → α) : α :=
  ∑ k ∈ Finset.range i, ∑ r, a k r * u k r

theorem pairing_succ (i : Nat) (a u : Nat → Fin n → α) :
    pairing (i + 1) a u = pairing i a u + ∑ r, a i r * u i r :=
  Finset.sum_range_succ _ _

/-- Adding to one slot adds to the pairing. -/
theorem pairing_update {i s : Nat} (hs : s < i) (a u : Nat → Fin n → α) (d : Fin n → α) :
    pairing i (Function.update a s (a s + d)) u = pairing i a u + ∑ r, d r * u s r := by
  have hterm : ∀ k, ∑ r, Function.update a s (a s + d) k r * u k r =
      ∑ r, a k r * u k r + if k = s then ∑ r, d r * u s r else 0 := by
    intro k
    by_cases hks : k = s
    · subst hks
      simp [add_mul, Finset.sum_add_distrib]
    · simp [hks]
  simp only [pairing, hterm, Finset.sum_add_distrib]
  congr 1
  simp [hs]

theorem pairing_addAll {i : Nat} (a u : Nat → Fin n → α) {l : List (Nat × (Fin n → α))}
    (hl : ∀ e ∈ l, e.1 < i) :
    pairing i (addAll a l) u = pairing i a u + (l.map fun e => ∑ r, e.2 r * u e.1 r).sum := by
  induction l generalizing a with
  | nil => simp [addAll]
  | cons e l ih =>
    have hstep : addAll a (e :: l) = addAll (Function.update a e.1 (a e.1 + e.2)) l := rfl
    rw [hstep, ih _ fun e' he' => hl e' (by simp [he']), pairing_update (hl e (by simp)),
      List.map_cons, List.sum_cons, add_assoc]

/-- A sum of products of two lists, by position. -/
theorem sum_zipWith_mul (as bs : List α) :
    (List.zipWith (· * ·) as bs).sum =
      ∑ q ∈ Finset.range bs.length, as.getD q 0 * bs.getD q 0 := by
  induction bs generalizing as with
  | nil => simp
  | cons b bs ih =>
    cases as with
    | nil => simp
    | cons a as =>
      rw [List.length_cons, Finset.sum_range_succ', List.zipWith_cons_cons, List.sum_cons, ih,
        add_comm]
      rfl

end FeatureGraph
