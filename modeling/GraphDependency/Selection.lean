set_option autoImplicit false

/-!
# Choosing from a list

The first of the best elements of a list, for a strict preference, and a fold
over a list that can be stopped.

Main statements: `mem_of_firstBest?` and `visitAll_append`.
-/

namespace GraphDependency

/-- The first element to which no element of the list is preferred, for a
preference that orders the list. -/
def firstBest? {α : Type} (better : α → α → Bool) : List α → Option α
  | [] => none
  | a :: rest =>
    match firstBest? better rest with
    | none => some a
    | some b => if better b a then some b else some a

theorem mem_of_firstBest? {α : Type} {better : α → α → Bool} {xs : List α} {a : α}
    (h : firstBest? better xs = some a) : a ∈ xs := by
  induction xs generalizing a with
  | nil => simp [firstBest?] at h
  | cons x rest ih =>
    rw [firstBest?] at h
    split at h
    · simp only [Option.some.injEq] at h
      simp [h]
    · rename_i b hb
      split at h <;> simp only [Option.some.injEq] at h
      · subst h
        exact List.mem_cons_of_mem _ (ih hb)
      · simp [h]

theorem firstBest?_eq_none_iff {α : Type} {better : α → α → Bool} {xs : List α} :
    firstBest? better xs = none ↔ xs = [] := by
  cases xs with
  | nil => simp [firstBest?]
  | cons x rest =>
    simp only [firstBest?, reduceCtorEq, iff_false]
    split
    · simp
    · split <;> simp

/-- Folds over a list until a step says that it is done. -/
def visitAll {α σ : Type} (visit : σ → α → ForInStep σ) : σ → List α → ForInStep σ
  | state, [] => .yield state
  | state, a :: rest =>
    match visit state a with
    | .done state => .done state
    | .yield state => visitAll visit state rest

/-- A fold over two lists in a row goes over the second one if the first did not
stop it. -/
theorem visitAll_append {α σ : Type} (visit : σ → α → ForInStep σ) (state : σ)
    (xs ys : List α) :
    visitAll visit state (xs ++ ys)
      = match visitAll visit state xs with
        | .done state => .done state
        | .yield state => visitAll visit state ys := by
  induction xs generalizing state with
  | nil => rfl
  | cons a rest ih =>
    simp only [List.cons_append, visitAll]
    cases visit state a with
    | done s => rfl
    | yield s => exact ih s

end GraphDependency
