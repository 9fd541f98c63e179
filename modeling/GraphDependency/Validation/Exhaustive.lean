import GraphDependency.Dependency
import GraphDependency.Matching.Search
import GraphDependency.Report

set_option autoImplicit false

/-!
# Exhaustive validation

Every embedding of a pattern in the whole data graph is tested, up to the first
counterexample.
-/

namespace GraphDependency.Validation

/-- Goes on after an embedding that is no counterexample. -/
def seekCounterexample (d : Dependency) (data : Graph) (_ : Unit) (embedding : Embedding) :
    ForInStep Unit :=
  if d.satisfiedBy data embedding then .yield () else .done ()

/-- The outcome that a run up to the first counterexample stands for. -/
def outcomeOf {σ : Type} (run : Matching.Run σ) : Outcome :=
  if run.stopped then .violated else .holds

/-- Checks one dependency. -/
def checkExhaustive (data : Graph) (d : Dependency) : Outcome × Stats :=
  if d.triviallyHolds data then (.holds, .zero)
  else
    let run := Matching.forEachEmbedding (.plain d.pattern data) none
      (seekCounterexample d data) ()
    (outcomeOf run, ⟨1, run.embeddings⟩)

/-- The outcomes and the work of a list of checks. -/
def collect (checks : List (Outcome × Stats)) : List Outcome × Stats :=
  (checks.map Prod.fst, Stats.total (checks.map Prod.snd))

/-- Checks every dependency. -/
def exhaustive (data : Graph) (ds : List Dependency) : List Outcome × Stats :=
  collect (ds.map (checkExhaustive data))

end GraphDependency.Validation
