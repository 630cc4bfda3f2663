import FeatureGraph.Arith

/-!
# Column operations

Elementwise work on columns.  The operations write into a column that is already
there and stop with the shortest operand, so a destination keeps the entries that
nothing is written to.

`addScaled` works on blocks of four.  On columns of equal length it is the plain
elementwise `d + a * s`.  On columns of different lengths the blocks of both are
paired first, and then what is left over after the last full block of each.
-/

namespace FeatureGraph.Column

variable {α : Type}

/-- Writes `f s` over the entries of the destination. -/
def overwrite {β : Type} (f : β → α) : List α → List β → List α
  | _ :: ds, s :: ss => f s :: overwrite f ds ss
  | ds, _ => ds

@[simp] theorem length_overwrite {β : Type} (f : β → α) (ds : List α) (ss : List β) :
    (overwrite f ds ss).length = ds.length := by
  fun_induction overwrite f ds ss with
  | case1 _ _ _ _ ih => simp [ih]
  | case2 => rfl

/-- Writes `f a b` over the entries of the destination. -/
def overwrite₂ (f : α → α → α) (dest as bs : List α) : List α :=
  overwrite (fun p => f p.1 p.2) dest (as.zip bs)

/-- Updates the entries of the destination with those of another column. -/
def update {β : Type} (f : α → β → α) : List α → List β → List α
  | d :: ds, s :: ss => f d s :: update f ds ss
  | ds, _ => ds

@[simp] theorem length_update {β : Type} (f : α → β → α) (ds : List α) (ss : List β) :
    (update f ds ss).length = ds.length := by
  fun_induction update f ds ss with
  | case1 _ _ _ _ ih => simp [ih]
  | case2 => rfl

variable [Arith α]

/-- A column of zeros. -/
def zeros (n : Nat) : List α := List.replicate n 0

@[simp] theorem length_zeros (n : Nat) : (zeros n : List α).length = n := by simp [zeros]

/-- The part of a column after its full blocks of four is paired with the
corresponding part of another column. -/
def addScaledRest (a : α) (dest src : List α) : List α :=
  let full := dest.length - dest.length % 4
  let rest := src.drop (src.length - src.length % 4)
  dest.take full ++ update (fun d s => d + a * s) (dest.drop full) rest

/-- Adds a multiple of one column to another, four entries at a time. -/
def addScaled (a : α) : List α → List α → List α
  | d₀ :: d₁ :: d₂ :: d₃ :: ds, s₀ :: s₁ :: s₂ :: s₃ :: ss =>
    (d₀ + a * s₀) :: (d₁ + a * s₁) :: (d₂ + a * s₂) :: (d₃ + a * s₃) :: addScaled a ds ss
  | ds, ss => addScaledRest a ds ss

/-- A column keeps its length when a multiple of another one is added. -/
@[simp] theorem length_addScaled (a : α) (dest src : List α) :
    (addScaled a dest src).length = dest.length := by
  fun_induction addScaled a dest src with
  | case1 _ _ _ _ _ _ _ _ _ _ ih => simp [ih]
  | case2 ds ss => simp [addScaledRest]

/-- Sum of products, from the first entry to the last. -/
def dot (as bs : List α) : α := Arith.sum (List.zipWith (· * ·) as bs)

end FeatureGraph.Column
