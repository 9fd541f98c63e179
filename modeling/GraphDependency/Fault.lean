import GraphDependency.Dependency

set_option autoImplicit false

/-!
# Faults of a validation

Everything that can go wrong between a loaded set of dependencies and a report,
and the wording of it.
-/

namespace GraphDependency

/-- Why a validation has no result. -/
inductive Fault where
  /-- there has to be a worker -/
  | threadCount (got : Nat)
  /-- a setting has no valid value -/
  | setting (key message : String)
  /-- a worker of a phase broke down -/
  | workerPanicked (phase message : String)
  /-- the parts of a dependency do not fit together -/
  | malformed (reason : String)
  /-- an edge does not fit into a graph -/
  | graph (fault : GraphFault)
  /-- so many entries cannot be kept side by side -/
  | capacity (count : Nat)
  deriving DecidableEq, Repr, Inhabited

/-- The wording of a fault. -/
def Fault.message : Fault → String
  | .threadCount got => "thread count must be at least 1, got " ++ toString got
  | .setting key message => "invalid value for " ++ key ++ ": " ++ message
  | .workerPanicked phase message => "worker panicked during " ++ phase ++ ": " ++ message
  | .malformed reason => malformedMessage reason
  | .graph fault => fault.message
  | .capacity count => "no room for " ++ toString count ++ " entries"

end GraphDependency
