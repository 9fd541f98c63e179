import GraphDependency.Fault

set_option autoImplicit false

/-!
# Phases

Workers run side by side, and a phase ends when all of them have ended.  It
yields what the workers yield, in order, or the failure of the first one that
failed.

Main statement: `run_finished`, a phase succeeds if every worker does.
-/

namespace GraphDependency.Phase

/-- How a worker ended. -/
inductive Ending (α : Type) where
  /-- with a result -/
  | finished (result : α)
  /-- with a fault of its own -/
  | failed (fault : Fault)
  /-- it broke down, with a message if it had one -/
  | panicked (message? : Option String)
  deriving Repr

/-- The message of a breakdown that has none. -/
def noMessage : String := "non-string panic payload"

/-- What an ending means for the phase. -/
def Ending.result {α : Type} (phase : String) : Ending α → Except Fault α
  | .finished result => .ok result
  | .failed fault => .error fault
  | .panicked message? => .error (.workerPanicked phase (message?.getD noMessage))

/-- The results of a phase, given how its workers ended. -/
def run {α : Type} (phase : String) (workers : List (Ending α)) : Except Fault (List α) :=
  workers.mapM (Ending.result phase)

theorem run_cons {α : Type} (phase : String) (worker : Ending α) (workers : List (Ending α)) :
    run phase (worker :: workers)
      = (worker.result phase).bind fun x => (run phase workers).map (x :: ·) := by
  rw [run, List.mapM_cons]
  rfl

/-- If every worker finished, their results are the result of the phase. -/
theorem run_finished {α β : Type} (phase : String) (inputs : List α) (f : α → β) :
    run phase (inputs.map fun x => .finished (f x)) = .ok (inputs.map f) := by
  induction inputs with
  | nil => rfl
  | cons x rest ih =>
    rw [List.map_cons, run_cons, ih]
    rfl

end GraphDependency.Phase
