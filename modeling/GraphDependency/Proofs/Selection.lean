import GraphDependency.Selection

set_option autoImplicit false

/-!
# The first of the best

What is chosen by a key has the least key of the list, and everything before it has a greater
one.  What is chosen by a preference only depends on how it compares an element with those
before it, and has the greatest measure that the preference respects.

Main statements: `exists_getElem?_of_firstBest?`, `firstBest?_congr` and `le_of_firstBest?`.
-/

namespace GraphDependency

variable {α : Type} {key : α → Nat} {better better' : α → α → Bool} {xs : List α} {a : α}

/-- What is chosen stands where the least key occurs first. -/
theorem exists_getElem?_of_firstBest?
    (h : firstBest? (fun a b => decide (key a < key b)) xs = some a) :
    ∃ i : Nat, xs[i]? = some a ∧ (∀ x ∈ xs, key a ≤ key x)
      ∧ ∀ (j : Nat) (x : α), j < i → xs[j]? = some x → key a < key x := by
  induction xs generalizing a with
  | nil => cases h
  | cons x rest ih =>
    rw [firstBest?] at h
    split at h
    · rename_i hnone
      cases h
      rw [firstBest?_eq_none_iff.mp hnone]
      exact ⟨0, rfl, List.forall_mem_singleton.mpr (Nat.le_refl _), fun j y hj =>
        absurd hj (Nat.not_lt_zero j)⟩
    · rename_i best hbest
      obtain ⟨i, hi, hleast, hbefore⟩ := ih hbest
      split at h
      · rename_i hless
        cases h
        have hless : key a < key x := of_decide_eq_true hless
        refine ⟨i + 1, hi, List.forall_mem_cons.mpr ⟨Nat.le_of_lt hless, hleast⟩, ?_⟩
        intro j y hj hy
        cases j with
        | zero =>
          cases hy
          exact hless
        | succ j => exact hbefore j y (Nat.lt_of_succ_lt_succ hj) hy
      · rename_i hless
        cases h
        rw [decide_eq_true_eq, Nat.not_lt] at hless
        refine ⟨0, rfl, List.forall_mem_cons.mpr ⟨Nat.le_refl _, fun y hy => ?_⟩, fun j y hj => ?_⟩
        · exact Nat.le_trans hless (hleast y hy)
        · exact absurd hj (Nat.not_lt_zero j)

/-- Preferences that compare every element alike with those before it choose alike. -/
theorem firstBest?_congr (h : xs.Pairwise fun a b => better b a = better' b a) :
    firstBest? better xs = firstBest? better' xs := by
  induction xs with
  | nil => rfl
  | cons x rest ih =>
    obtain ⟨hfirst, hrest⟩ := List.pairwise_cons.mp h
    rw [firstBest?, firstBest?, ih hrest]
    cases hbest : firstBest? better' rest with
    | none => rfl
    | some b =>
      dsimp only
      rw [hfirst b (mem_of_firstBest? hbest)]

/-- Where the preferred one of two never has the smaller measure, the chosen one has the
greatest. -/
theorem le_of_firstBest? (measure : α → Nat)
    (hbetter : ∀ a b, better a b = true → measure b ≤ measure a)
    (hworse : ∀ a b, better a b = false → measure a ≤ measure b)
    (h : firstBest? better xs = some a) : ∀ x ∈ xs, measure x ≤ measure a := by
  induction xs generalizing a with
  | nil => cases h
  | cons x rest ih =>
    rw [firstBest?] at h
    split at h
    · rename_i hnone
      cases h
      rw [firstBest?_eq_none_iff.mp hnone]
      exact List.forall_mem_singleton.mpr (Nat.le_refl _)
    · rename_i best hbest
      split at h
      · rename_i hless
        cases h
        exact List.forall_mem_cons.mpr ⟨hbetter _ _ hless, ih hbest⟩
      · rename_i hless
        cases h
        have hle : measure best ≤ measure x := hworse _ _ (Bool.eq_false_iff.mpr hless)
        exact List.forall_mem_cons.mpr
          ⟨Nat.le_refl _, fun y hy => Nat.le_trans (ih hbest y hy) hle⟩

end GraphDependency
