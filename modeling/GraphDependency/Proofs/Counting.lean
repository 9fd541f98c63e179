import Mathlib.Data.Set.Card

set_option autoImplicit false

/-!
# Counting with lists

A set that is given by a list without repetitions has as many elements as the list is long.
A sum of natural numbers that is cut off at a cap does not change if its terms are cut off at
the cap before, or if zeros are left out.

Main statements: `encard_setOf_mem` and `min_sum_map_min`.
-/

namespace GraphDependency

variable {α : Type}

/-- As many members are in a list without repetitions as it is long. -/
theorem encard_setOf_mem [DecidableEq α] {xs : List α} (h : xs.Nodup) :
    {x | x ∈ xs}.encard = xs.length := by
  rw [← List.coe_toFinset, Set.encard_coe_eq_coe_finsetCard, List.toFinset_card_of_nodup h]

/-- Terms may be capped before they are added up to a capped sum. -/
theorem min_sum_map_min (f : α → Nat) (cap : Nat) (xs : List α) :
    min (xs.map fun x => min (f x) cap).sum cap = min (xs.map f).sum cap := by
  induction xs with
  | nil => rfl
  | cons x xs ih =>
    simp only [List.map_cons, List.sum_cons]
    omega

/-- Terms that are zero may be left out of a sum. -/
theorem sum_map_filter_pos (f : α → Nat) (xs : List α) :
    ((xs.filter fun x => 0 < f x).map f).sum = (xs.map f).sum := by
  induction xs with
  | nil => rfl
  | cons x xs ih =>
    rw [List.filter_cons]
    split
    · rw [List.map_cons, List.map_cons, List.sum_cons, List.sum_cons, ih]
    · rename_i hzero
      have hzero : f x = 0 := Nat.eq_zero_of_not_pos (by simpa using hzero)
      rw [ih, List.map_cons, List.sum_cons, hzero, Nat.zero_add]

end GraphDependency
