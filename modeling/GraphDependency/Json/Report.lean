import GraphDependency.Configuration
import GraphDependency.Json.Record
import GraphDependency.Json.Value
import GraphDependency.Report

set_option autoImplicit false

/-!
# The forms of configurations and reports

Strategies and outcomes stand under their names.

Main statements: `strategyNamed?_name` and `outcomeNamed?_name`, every name is
read back.
-/

namespace GraphDependency.Json

/-! ## Writing -/

/-- The value of a strategy. -/
def ofStrategy (s : Strategy) : Value := .text s.name

/-- The value of a configuration. -/
def ofConfiguration (c : Configuration) : Value :=
  .object [("strategy", ofStrategy c.strategy), ("threads", .natural c.threads)]

/-- The value of an outcome. -/
def ofOutcome (o : Outcome) : Value := .text o.name

/-- The value of the work done. -/
def ofStats (s : Stats) : Value :=
  .object [("matcher_runs", .natural s.matcherRuns),
    ("embeddings_checked", .natural s.embeddingsChecked)]

/-- The value of a report. -/
def ofReport (r : Report) : Value :=
  .object [("strategy", ofStrategy r.strategy), ("threads", .natural r.threads),
    ("outcomes", .array (r.outcomes.map ofOutcome)), ("stats", ofStats r.stats)]

/-- The text of a configuration. -/
def writeConfiguration (c : Configuration) : String := (ofConfiguration c).compact

/-- The text of a report. -/
def writeReport (r : Report) : String := (ofReport r).compact

/-! ## Reading -/

/-- The strategy of a name. -/
def strategyNamed? (name : String) : Option Strategy := Strategy.all.find? fun s => s.name = name

/-- The outcome of a name. -/
def outcomeNamed? (name : String) : Option Outcome :=
  [Outcome.holds, .violated].find? fun o => o.name = name

/-- Every strategy is read back from its name. -/
theorem strategyNamed?_name (s : Strategy) : strategyNamed? s.name = some s := by
  cases s <;> decide

/-- Every outcome is read back from its name. -/
theorem outcomeNamed?_name (o : Outcome) : outcomeNamed? o.name = some o := by
  cases o <;> decide

/-- Reads a strategy. -/
def toStrategy : Reader Strategy := readName strategyNamed?

/-- Reads a configuration. -/
def toConfiguration : Reader Configuration := fun d => do
  let (strategy, threads) ← readPair "strategy" toStrategy "threads" readNatural d
  .ok ⟨strategy, threads⟩

/-- Reads an outcome. -/
def toOutcome : Reader Outcome := readName outcomeNamed?

/-- Reads the work done. -/
def toStats : Reader Stats := fun d => do
  let (runs, checked) ← readPair "matcher_runs" readNatural "embeddings_checked" readNatural d
  .ok ⟨runs, checked⟩

/-- What was read of a report. -/
structure ReportSlots where
  strategy? : Option Strategy
  threads? : Option Nat
  outcomes? : Option (List Outcome)
  stats? : Option Stats

namespace ReportSlots

/-- Nothing was read yet. -/
def free : ReportSlots := ⟨none, none, none, none⟩

/-- The fields of a report. -/
def fields : List (Field ReportSlots) :=
  [⟨"strategy", fun s d => (fill s.strategy? toStrategy d).map
      fun r => { s with strategy? := r }⟩,
    ⟨"threads", fun s d => (fill s.threads? readNatural d).map fun r => { s with threads? := r }⟩,
    ⟨"outcomes", fun s d => (fill s.outcomes? (readList toOutcome) d).map
      fun r => { s with outcomes? := r }⟩,
    ⟨"stats", fun s d => (fill s.stats? toStats d).map fun r => { s with stats? := r }⟩]

end ReportSlots

/-- Reads a report. -/
def toReport : Reader Report := fun d => do
  let slots ← readRecord ReportSlots.fields .free d
  .ok ⟨← required slots.strategy?, ← required slots.threads?, ← required slots.outcomes?,
    ← required slots.stats?⟩

/-- Reads a configuration from a text. -/
def readConfiguration (text : String) : Except Fault Configuration := readText toConfiguration text

/-- Reads a report from a text. -/
def readReport (text : String) : Except Fault Report := readText toReport text

end GraphDependency.Json
