import GraphDependency.Strategy

set_option autoImplicit false

/-!
# Reports

What a validation says: an outcome for every dependency, and how much work it
took.

Main statement: `length_satisfiedIndices`, the satisfied positions are as many
as the satisfied dependencies.
-/

namespace GraphDependency

/-- The outcome for one dependency. -/
inductive Outcome where
  /-- no embedding satisfies the premises and fails the conclusion -/
  | holds
  /-- there is a counterexample -/
  | violated
  deriving DecidableEq, Repr, Inhabited

/-- The name of an outcome. -/
def Outcome.name : Outcome → String
  | .holds => "holds"
  | .violated => "violated"

/-- How much work was done. -/
structure Stats where
  /-- Searches started. -/
  matcherRuns : Nat
  /-- Embeddings tested against the literals. -/
  embeddingsChecked : Nat
  deriving DecidableEq, Repr, Inhabited

namespace Stats

/-- No work. -/
def zero : Stats := ⟨0, 0⟩

/-- The work of two runs together. -/
def add (s t : Stats) : Stats :=
  ⟨s.matcherRuns + t.matcherRuns, s.embeddingsChecked + t.embeddingsChecked⟩

/-- The work of all runs together. -/
def total (stats : List Stats) : Stats := stats.foldl add zero

end Stats

/-- The result of validating a list of dependencies. -/
structure Report where
  strategy : Strategy
  threads : Nat
  /-- One outcome for every dependency, in order. -/
  outcomes : List Outcome
  stats : Stats
  deriving DecidableEq, Repr

namespace Report

/-- The number of dependencies. -/
def total (r : Report) : Nat := r.outcomes.length

/-- The number of dependencies that hold. -/
def satisfiedCount (r : Report) : Nat := r.outcomes.countP fun o => o = .holds

/-- The positions of the dependencies that hold, ascending. -/
def satisfiedIndices (r : Report) : List Nat :=
  (List.range r.total).filter fun i => r.outcomes[i]? = some .holds

/-- As many positions are satisfied as dependencies hold. -/
theorem length_satisfiedIndices (r : Report) :
    r.satisfiedIndices.length = r.satisfiedCount := by
  have h : ∀ (outcomes : List Outcome) (k : Nat),
      ((List.range' k outcomes.length).filter fun i => outcomes[i - k]? = some .holds).length
        = outcomes.countP fun o => o = .holds := by
    intro outcomes
    induction outcomes with
    | nil => simp
    | cons o outcomes ih =>
      intro k
      have hcongr : (List.range' (k + 1) outcomes.length).filter
            (fun i => (o :: outcomes)[i - k]? = some .holds)
          = (List.range' (k + 1) outcomes.length).filter
            (fun i => outcomes[i - (k + 1)]? = some .holds) := by
        apply List.filter_congr
        intro i hi
        obtain ⟨j, hj, rfl⟩ := List.mem_range'.mp hi
        rw [show k + 1 + 1 * j - k = j + 1 by omega, show k + 1 + 1 * j - (k + 1) = j by omega]
        simp
      rw [List.length_cons, List.range'_succ, List.filter_cons, List.countP_cons, hcongr,
        ← ih (k + 1)]
      by_cases ho : o = .holds <;> simp [ho]
  simpa [satisfiedIndices, satisfiedCount, total, List.range_eq_range'] using h r.outcomes 0

end Report

end GraphDependency
