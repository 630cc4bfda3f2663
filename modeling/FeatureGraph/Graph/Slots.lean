import FeatureGraph.Primitive.Column
import FeatureGraph.Outcome

/-!
# Slots

Dense storage of columns: slot `i` holds the column that instruction `i` of a
program computes.  All columns have `nRows` entries.  The columns lie one behind
the other, so without rows every slot is the empty column, whatever its number.
-/

namespace FeatureGraph

structure Slots (α : Type) where
  nRows : Nat := 0
  columns : Array (List α) := #[]

namespace Slots

variable {ε α : Type}

def size (s : Slots α) : Nat := s.columns.size

/-- Storage of the given shape, filled with zeros.  Without slots no column is made,
however many rows it would have. -/
def zeros [Arith α] (nSlots nRows : Nat) : Slots α :=
  ⟨nRows, Array.ofFn fun _ : Fin nSlots => Column.zeros nRows⟩

/-- Number of scalars from which on storage cannot be addressed: a scalar takes
eight bytes, and an address is less than `2 ^ 63`. -/
def addressable : Nat := 1 <<< 60

/-- Storage of the given shape, filled with zeros, if it can be addressed. -/
def allocate [Arith α] (nSlots nRows : Nat) : Outcome ε (Slots α) :=
  if nSlots * nRows < addressable then .ok (zeros nSlots nRows) else Outcome.outOfRange

/-- The column of a slot. -/
def get (s : Slots α) (i : Nat) : Outcome ε (List α) :=
  if s.nRows = 0 then .ok [] else Outcome.fetch s.columns i

/-- Replaces the column of a slot by one of the same length. -/
def set (s : Slots α) (i : Nat) (column : List α) : Outcome ε (Slots α) := do
  let old : List α ← s.get i
  if old.length ≠ column.length then Outcome.outOfRange
  else return { s with columns := s.columns.setIfInBounds i column }

/-- All entries before a slot, and all entries from it on. -/
def splitAt (s : Slots α) (i : Nat) : Outcome ε (List α × List α) :=
  if s.nRows = 0 then .ok ([], [])
  else if i ≤ s.size then
    .ok ((s.columns.toList.take i).flatten, (s.columns.toList.drop i).flatten)
  else Outcome.outOfRange

end Slots

end FeatureGraph
