/-!
# Walks

A walk over numbered things keeps a stack of numbers to look at.  Each step takes one off the
stack, and a number that is seen for the first time puts others on.  So either there is one number
less that has not been seen, or the stack is shorter.
-/

namespace FeatureGraph

/-- Number of numbers below a bound that have not been seen. -/
def unseenBelow (bound : Nat) (seen : List Nat) : Nat :=
  ((List.range bound).filter fun i => !seen.contains i).length

theorem unseenBelow_cons_lt {bound : Nat} {seen : List Nat} {i : Nat} (inside : i < bound)
    (new : seen.contains i = false) : unseenBelow bound (i :: seen) < unseenBelow bound seen := by
  have shrinks : (List.range bound).filter (fun j => !(i :: seen).contains j) =
      ((List.range bound).filter fun j => !seen.contains j).filter fun j => !(j == i) := by
    rw [List.filter_filter]
    congr 1
    funext j
    by_cases h : j = i <;> simp [h]
  rw [unseenBelow, unseenBelow, shrinks, List.length_filter_lt_length_iff_exists]
  refine ⟨i, ?_, by simp⟩
  rw [List.mem_filter, List.mem_range]
  exact ⟨inside, by rw [new]; rfl⟩

section Steps

variable {seen stack : List Nat} {i p : Nat}

/-- A number that has been seen before may be taken off the stack. -/
theorem seen_or_cons_iff_of_mem (hi : i ∈ seen) :
    (p ∈ seen ∨ p ∈ i :: stack) ↔ (p ∈ seen ∨ p ∈ stack) := by
  constructor
  · rintro (hp | hp)
    · exact .inl hp
    · rcases List.mem_cons.1 hp with rfl | hp
      · exact .inl hi
      · exact .inr hp
  · exact Or.imp_right (List.mem_cons_of_mem i)

/-- A number that is taken off the stack has been seen from then on. -/
theorem seen_or_cons_iff : (p ∈ seen ∨ p ∈ i :: stack) ↔ (p ∈ i :: seen ∨ p ∈ stack) := by
  rw [List.mem_cons, List.mem_cons, or_left_comm, or_assoc]

end Steps

end FeatureGraph
