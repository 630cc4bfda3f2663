/-!
# Outcomes

An operation either answers, fails for a stated reason, or was asked to read
outside of a column, a table or a slot.  The last case is kept apart from the
stated reasons: it never arises on data that the library itself has built, and
theorems say so.
-/

namespace FeatureGraph

/-- Why an operation gave no answer. -/
inductive Fault (ε : Type) where
  /-- The operation failed for a stated reason. -/
  | failure (reason : ε)
  /-- A position outside of the stored data was read or written. -/
  | outOfRange
deriving DecidableEq, Repr

/-- Result of an operation whose stated failures have type `ε`. -/
abbrev Outcome (ε β : Type) := Except (Fault ε) β

namespace Outcome

variable {ε δ β : Type}

/-- Fails for the given reason. -/
def fail (reason : ε) : Outcome ε β := .error (.failure reason)

/-- Reads outside of the stored data. -/
def outOfRange : Outcome ε β := .error .outOfRange

/-- Turns a missing value into a read outside of the stored data. -/
def ofOption : Option β → Outcome ε β
  | some b => .ok b
  | none => outOfRange

/-- Reads one position of an array. -/
def fetch (xs : Array β) (i : Nat) : Outcome ε β := ofOption xs[i]?

/-- Reads one position of a list. -/
def fetchList (xs : List β) (i : Nat) : Outcome ε β := ofOption xs[i]?

/-- Replaces one position of an array. -/
def store (xs : Array β) (i : Nat) (b : β) : Outcome ε (Array β) :=
  if h : i < xs.size then .ok (xs.set i b) else outOfRange

theorem fetch_of_lt {xs : Array β} {i : Nat} (h : i < xs.size) :
    (fetch xs i : Outcome ε β) = .ok xs[i] := by
  simp [fetch, ofOption, h]

theorem store_of_lt {xs : Array β} {i : Nat} {b : β} (h : i < xs.size) :
    (store xs i b : Outcome ε (Array β)) = .ok (xs.set i b) := by
  simp [store, h]

/-- Rewords the stated reason of a failure. -/
def mapFailure (f : ε → δ) : Outcome ε β → Outcome δ β
  | .ok b => .ok b
  | .error (.failure e) => .error (.failure (f e))
  | .error .outOfRange => .error .outOfRange

end Outcome

end FeatureGraph
