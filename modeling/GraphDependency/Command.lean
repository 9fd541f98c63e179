import GraphDependency.Command.Files
import GraphDependency.Command.Help
import GraphDependency.Dependency.Text
import GraphDependency.Json.Report
import GraphDependency.Validation
import GraphDependency.Workload

set_option autoImplicit false

/-!
# The program

What the program answers to its arguments: a code and two texts.  A validation
reads a data graph and dependencies from files and says which dependencies hold.
A benchmark validates a random workload with every strategy and says how long
each took; the clock is a parameter, and so are the files and the settings.

The code is zero if all went well, two if the arguments make no request, three
if a file cannot be read or has no valid text, and one for every other fault.

Main statements: `validate_of_config_error`, settings are looked at before files,
and `run_help`, help needs neither.
-/

namespace GraphDependency.Command

/-- What a program has around it. -/
structure World where
  /-- The setting of the strategy. -/
  strategy? : Option String
  /-- The setting of the number of workers. -/
  threads? : Option String
  /-- The number of workers if nothing is set. -/
  defaultThreads : Nat
  /-- The text at a path. -/
  read : String → Except ReadFault String

/-- What a program says in the end. -/
structure Answer where
  code : Nat
  output : String
  errors : String
  deriving DecidableEq, Repr, Inhabited

namespace Answer

/-- All went well. -/
def success (output : String) : Answer := ⟨0, output, ""⟩

/-- Something went wrong after some output. -/
def failure (code : Nat) (output message : String) : Answer :=
  ⟨code, output, "Error: " ++ message ++ "\n"⟩

end Answer

/-! ## Validating files -/

/-- Why nothing was loaded from a file. -/
inductive LoadFault where
  /-- the file cannot be read -/
  | file (path : String) (fault : ReadFault)
  /-- it has no graph text -/
  | graph (fault : Dot.Fault)
  /-- it has no dependency text -/
  | dependency (fault : DependencyTextFault)
  deriving DecidableEq, Repr, Inhabited

namespace LoadFault

/-- The wording of a fault. -/
def message : LoadFault → String
  | .file path fault => "failed to read '" ++ path ++ "': " ++ fault.message
  | .graph fault => fault.message
  | .dependency fault => fault.message

/-- The code of a fault. -/
def code : LoadFault → Nat
  | .dependency (.malformed _) => 1
  | _ => 3

end LoadFault

/-- Loads the data graph. -/
def loadGraph (w : World) (path : String) : Except LoadFault Graph := do
  let text ← (w.read path).mapError (.file path)
  (Dot.read text).mapError .graph

/-- Loads a dependency. -/
def loadDependency (w : World) (path : String) : Except LoadFault Dependency := do
  let text ← (w.read path).mapError (.file path)
  (readDependency text).mapError .dependency

/-- The configuration of the settings, with what is given instead. -/
def configuration (w : World) (strategy? : Option Strategy) (threads? : Option Nat) :
    Except Fault Configuration := do
  let c ← Configuration.ofSettings w.defaultThreads w.strategy? w.threads?
  let c := c.override strategy? threads?
  c.check
  .ok c

/-- The members of a report, by their names in alphabetical order. -/
def reportValue (r : Report) : Json.Value :=
  .object [("outcomes", .array (r.outcomes.map Json.ofOutcome)),
    ("stats", .object [("embeddings_checked", .natural r.stats.embeddingsChecked),
      ("matcher_runs", .natural r.stats.matcherRuns)]),
    ("strategy", Json.ofStrategy r.strategy), ("threads", .natural r.threads)]

/-- The output of a validation: the report and the paths of the dependencies that
hold. -/
def validateOutput (json : Bool) (r : Report) (satisfied : List String) : String :=
  if json then
    Json.Value.pretty (.object [("report", reportValue r),
      ("satisfied", .array (satisfied.map Json.Value.text))]) ++ "\n"
  else
    toString r.satisfiedCount ++ "/" ++ toString r.total ++ "\n"
      ++ String.join (satisfied.map fun path => path ++ "\n")

/-- Loads the dependencies of several files; the first one that fails decides,
with its path. -/
def loadDependencies (w : World) : List String → Except (String × LoadFault) (List Dependency)
  | [] => .ok []
  | path :: rest => do
    let d ← (loadDependency w path).mapError fun fault => (path, fault)
    .ok (d :: (← loadDependencies w rest))

/-- Validates the dependencies of files on the graph of a file. -/
def validate (w : World) (o : ValidateOptions) : Answer :=
  match configuration w o.strategy? o.threads? with
  | .error fault => .failure 1 "" fault.message
  | .ok c =>
    match loadGraph w o.graph with
    | .error fault =>
      .failure fault.code "" ("failed to load graph '" ++ o.graph ++ "': " ++ fault.message)
    | .ok data =>
      match loadDependencies w o.dependencies with
      | .error (path, fault) =>
        .failure fault.code "" ("failed to load GFD '" ++ path ++ "': " ++ fault.message)
      | .ok ds =>
        match Validation.report data ds c with
        | .error fault => ⟨1, "", "Validation error: " ++ fault.message ++ "\n"⟩
        | .ok r =>
          .success (validateOutput o.json r (r.satisfiedIndices.filterMap (o.dependencies[·]?)))

/-- Settings are looked at before files. -/
theorem validate_of_config_error {w : World} {o : ValidateOptions} {fault : Fault}
    (h : configuration w o.strategy? o.threads? = .error fault) :
    validate w o = .failure 1 "" fault.message := by
  simp [validate, h]

/-! ## Benchmarks -/

/-- Takes the time of something; the time is given as a text. -/
structure Clock (m : Type → Type) where
  time : {α : Type} → (Unit → α) → m (α × String)

/-- The line about the run of one strategy. -/
def benchLine (r : Report) (time : String) : String :=
  padRight 12 r.strategy.name ++ " " ++ toString r.satisfiedCount ++ "/" ++ toString r.total
    ++ " satisfied" ++ time ++ "  " ++ toString r.stats.matcherRuns ++ " matcher runs  "
    ++ toString r.stats.embeddingsChecked ++ " embeddings\n"

/-- The line about the workload. -/
def workloadLine (workload : Workload) (seed : Nat) : String :=
  "workload: " ++ toString workload.graph.size ++ " vertices, "
    ++ toString workload.graph.edgeCount ++ " edges, "
    ++ toString workload.dependencies.length ++ " GFDs (seed " ++ toString seed ++ ")\n"

/-- Runs strategies one after the other, each of which has to find the outcomes of
the first one. -/
def benchStrategies {m : Type → Type} [Monad m] (clock : Clock m) (workload : Workload)
    (threads : Nat) : Option (List Outcome) → List Strategy → String → m Answer
  | _, [], output => return .success output
  | expected?, s :: rest, output => do
    let (result, time) ← clock.time fun _ =>
      Validation.report workload.graph workload.dependencies ⟨s, threads⟩
    match result with
    | .error fault =>
      return ⟨1, output, "Validation error (" ++ s.name ++ "): " ++ fault.message ++ "\n"⟩
    | .ok r =>
      let output := output ++ benchLine r time
      if (expected?.getD r.outcomes) = r.outcomes then
        benchStrategies clock workload threads (some r.outcomes) rest output
      else
        return .failure 1 output (s.name ++ " disagrees with " ++ Strategy.name .naive)

/-- Times every strategy on a random workload. -/
def bench {m : Type → Type} [Monad m] (clock : Clock m) (w : World) (o : BenchOptions) :
    m Answer := do
  let parameters : Workload.Parameters :=
    { (default : Workload.Parameters) with
      vertices := o.vertices, dependencies := o.dependencies, seed := .ofNat o.seed }
  match Workload.ofParameters parameters with
  | .error fault => return .failure 1 "" fault.message
  | .ok workload =>
    let output := workloadLine workload o.seed
    match configuration w none o.threads? with
    | .error fault => return .failure 1 output fault.message
    | .ok c => benchStrategies clock workload c.threads none Strategy.all output

/-! ## The program -/

/-- The answer to a request. -/
def answer {m : Type → Type} [Monad m] (clock : Clock m) (w : World) : Request → m Answer
  | .help topic => return .success topic.text
  | .validate o => return validate w o
  | .bench o => bench clock w o

/-- The answer to arguments that make no request. -/
def usage (fault : UsageFault) : Answer :=
  ⟨2, "", "error: " ++ fault.message ++ "\n\nFor more information, try '--help'.\n"⟩

/-- The answer to arguments. -/
def run {m : Type → Type} [Monad m] (clock : Clock m) (w : World) (arguments : List String) :
    m Answer :=
  match parse arguments with
  | .error fault => return usage fault
  | .ok request => answer clock w request

/-- Help needs neither settings nor files. -/
theorem run_help {m : Type → Type} [Monad m] (clock : Clock m) (w : World) :
    run clock w ["--help"] = pure (.success (Topic.text .general)) := rfl

end GraphDependency.Command
