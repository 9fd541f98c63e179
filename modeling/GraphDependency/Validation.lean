import GraphDependency.Configuration
import GraphDependency.Validation.Distributed
import GraphDependency.Validation.Indexed

set_option autoImplicit false

/-!
# Validation

Runs a list of dependencies against a data graph with the strategy of a
configuration, and picks out the dependencies that hold.

Main statement: `report_ok_strategy`, a report says how it was made.
-/

namespace GraphDependency

namespace Validation

/-- The outcomes and the work of a strategy. -/
def run (data : Graph) (ds : List Dependency) (c : Configuration) :
    Except Fault (List Outcome × Stats) :=
  match c.strategy with
  | .naive => .ok (exhaustive data ds)
  | .distributed => distributed data ds c.threads
  | .index => .ok (indexed data ds)

/-- Validates dependencies.  Every strategy asks for at least one worker. -/
def report (data : Graph) (ds : List Dependency) (c : Configuration) : Except Fault Report :=
  match c.check with
  | .error fault => .error fault
  | .ok () => (run data ds c).map fun r => ⟨c.strategy, c.threads, r.1, r.2⟩

/-- A report says how it was made. -/
theorem report_ok_strategy {data : Graph} {ds : List Dependency} {c : Configuration}
    {r : Report} (h : report data ds c = .ok r) :
    r.strategy = c.strategy ∧ r.threads = c.threads := by
  unfold report at h
  split at h
  · simp at h
  · cases hr : run data ds c with
    | error f => simp [hr, Except.map] at h
    | ok p => simp only [hr, Except.map, Except.ok.injEq] at h; simp [← h]

/-- The dependencies at the given positions. -/
def select (ds : List Dependency) (positions : List Nat) : List Dependency :=
  positions.filterMap fun i => ds[i]?

/-- The dependencies that hold, in order. -/
def satisfied (data : Graph) (ds : List Dependency) (c : Configuration) :
    Except Fault (List Dependency) :=
  (report data ds c).map fun r => select ds r.satisfiedIndices

end Validation

end GraphDependency
