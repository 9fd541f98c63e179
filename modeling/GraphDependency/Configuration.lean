import GraphDependency.Fault
import GraphDependency.Strategy

set_option autoImplicit false

/-!
# Configurations

The strategy and the number of workers of a validation, and how they are read
from settings: texts that may or may not be there.

Main statement: `check_ok_iff`, there has to be a worker.
-/

namespace GraphDependency

open GraphDependency.Text

/-- How a validation is to be run. -/
structure Configuration where
  strategy : Strategy
  /-- Workers; only the distributed strategy uses more than one. -/
  threads : Nat
  deriving DecidableEq, Repr

namespace Configuration

/-- Asks for at least one worker. -/
def check (c : Configuration) : Except Fault Unit :=
  if c.threads = 0 then .error (.threadCount c.threads) else .ok ()

/-- There has to be a worker. -/
theorem check_ok_iff (c : Configuration) : c.check = .ok () ↔ 0 < c.threads := by
  unfold check
  by_cases h : c.threads = 0
  · simp [h]
  · simp [h, Nat.pos_of_ne_zero h]

/-- The strategy of a setting. -/
def strategyOf (raw : String) : Except Fault Strategy :=
  (Strategy.parse raw).mapError (.setting strategyKey)

/-- The number of workers of a setting. -/
def threadsOf (raw : String) : Except Fault Nat :=
  (readNumber64 (trim raw)).mapError fun fault =>
    .setting threadsKey ("'" ++ raw ++ "': " ++ fault.message)

/-- The configuration of two settings; what is not set is the index strategy and
the given number of workers.  The strategy is read first. -/
def ofSettings (defaultThreads : Nat) (strategy? threads? : Option String) :
    Except Fault Configuration := do
  let strategy ← match strategy? with
    | some raw => strategyOf raw
    | none => .ok default
  let threads ← match threads? with
    | some raw => threadsOf raw
    | none => .ok defaultThreads
  let c : Configuration := ⟨strategy, threads⟩
  c.check
  .ok c

/-- Replaces what is given. -/
def override (c : Configuration) (strategy? : Option Strategy) (threads? : Option Nat) :
    Configuration :=
  ⟨strategy?.getD c.strategy, threads?.getD c.threads⟩

end Configuration

end GraphDependency
