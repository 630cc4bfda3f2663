/-!
# Sample matrices

A matrix of samples: one row per sample, one column per raw input.  The entries
stand row by row in one vector, whose length is the product of the two extents.
So a matrix without entries costs nothing, however many empty rows or columns it
has.

`Matrix.ofFn` builds a matrix from its entries, and `entry_ofFn` reads them back.
-/

namespace FeatureGraph

/-- Entries row by row. -/
structure Matrix (α : Type) where
  nRows : Nat
  nCols : Nat
  entries : Vector α (nRows * nCols)

namespace Matrix

variable {α : Type}

/-- The place of an entry is inside of the entries. -/
theorem place_lt {nRows nCols r c : Nat} (hr : r < nRows) (hc : c < nCols) :
    r * nCols + c < nRows * nCols :=
  calc r * nCols + c < r * nCols + nCols := Nat.add_lt_add_left hc _
    _ = (r + 1) * nCols := (Nat.succ_mul r nCols).symm
    _ ≤ nRows * nCols := Nat.mul_le_mul_right nCols hr

def entry (x : Matrix α) (r : Fin x.nRows) (c : Fin x.nCols) : α :=
  have inside := place_lt r.isLt c.isLt
  x.entries[r.val * x.nCols + c.val]

/-- The matrix with the given entries. -/
def ofFn (nRows nCols : Nat) (f : Fin nRows → Fin nCols → α) : Matrix α where
  nRows
  nCols
  entries := Vector.ofFn fun i =>
    f ⟨i.val / nCols, Nat.div_lt_of_lt_mul (Nat.mul_comm nRows nCols ▸ i.isLt)⟩
      ⟨i.val % nCols, Nat.mod_lt _ (Nat.pos_of_mul_pos_left (Nat.zero_lt_of_lt i.isLt))⟩

/-- One column, from the first row to the last; `none` past the last column. -/
def column? (x : Matrix α) (c : Nat) : Option (List α) :=
  if h : c < x.nCols then some (List.ofFn fun r => x.entry r ⟨c, h⟩) else none

/-- The matrix with the given shape whose entries are listed row by row. -/
def ofRowMajor? (nRows nCols : Nat) (entries : List α) : Option (Matrix α) :=
  if h : entries.toArray.size = nRows * nCols then some ⟨nRows, nCols, ⟨entries.toArray, h⟩⟩
  else none

/-- The positions of a list that are rows of a matrix. -/
def rowsAmong (x : Matrix α) (positions : List Nat) : List (Fin x.nRows) :=
  positions.filterMap fun r => if h : r < x.nRows then some ⟨r, h⟩ else none

/-- The rows at the given positions, in the order given and with repetitions.
Positions past the last row are left out. -/
def selectRows (x : Matrix α) (positions : List Nat) : Matrix α :=
  let rows := (x.rowsAmong positions).toArray
  ofFn rows.size x.nCols fun r c => x.entry rows[r] c

theorem entry_ofFn (nRows nCols : Nat) (f : Fin nRows → Fin nCols → α) (r : Fin nRows)
    (c : Fin nCols) : (ofFn nRows nCols f).entry r c = f r c := by
  have positive : 0 < nCols := Nat.zero_lt_of_lt c.isLt
  have quotient : (r.val * nCols + c.val) / nCols = r.val := by
    rw [Nat.mul_comm, Nat.mul_add_div positive, Nat.div_eq_of_lt c.isLt, Nat.add_zero]
  have remainder : (r.val * nCols + c.val) % nCols = c.val := by
    rw [Nat.mul_comm, Nat.mul_add_mod, Nat.mod_eq_of_lt c.isLt]
  simp [entry, ofFn, quotient, remainder]

end Matrix

end FeatureGraph
