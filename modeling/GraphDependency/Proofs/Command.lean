import GraphDependency.Command
import GraphDependency.Proofs.Json.RoundTrip

set_option autoImplicit false

/-!
# What a validation prints

For other programs a validation prints one object, laid out for people and with a line
break behind it: the report, its members in alphabetical order, and the paths of the
dependencies that hold.  The readers take members in any order, so whoever reads the
output has the report and the paths again.

Main statement: `readText_validateOutput`.
-/

namespace GraphDependency.Command

open GraphDependency.Json GraphDependency.Text

/-- Reads what a validation prints. -/
def toPrinted : Reader (Report × List String) :=
  readPair "report" toReport "satisfied" (readList readString)

variable {r : Report}

/-- The work done stands in a report with the counts in the other order. -/
theorem toStats_printed {s : Stats} (hruns : s.matcherRuns ≤ max64)
    (hchecked : s.embeddingsChecked ≤ max64) :
    toStats (.object [(some "embeddings_checked", .natural s.embeddingsChecked),
      (some "matcher_runs", .natural s.matcherRuns)]) = .ok s := by
  simp [toStats, readPair, readRecord, members?, readMembers,
    fill_free (readNatural_natural hruns), fill_free (readNatural_natural hchecked), required,
    bind, Except.bind, Except.map]

theorem readsBack_reportValue (hthreads : r.threads ≤ max64)
    (hruns : r.stats.matcherRuns ≤ max64) (hchecked : r.stats.embeddingsChecked ≤ max64) :
    ReadsBack reportValue toReport r := by
  have hstrategy : toStrategy (ofStrategy r.strategy).document = .ok r.strategy :=
    readsBack_strategy r.strategy
  have houtcomes : ∀ o ∈ r.outcomes, ReadsBack ofOutcome toOutcome o := fun o _ =>
    readName_string (outcomeNamed?_name o)
  have hform : (reportValue r).document = .object
      [(some "outcomes", (Value.array (r.outcomes.map ofOutcome)).document),
        (some "stats", .object [(some "embeddings_checked", .natural r.stats.embeddingsChecked),
          (some "matcher_runs", .natural r.stats.matcherRuns)]),
        (some "strategy", (ofStrategy r.strategy).document),
        (some "threads", .natural r.threads)] := rfl
  have hrecord : readRecord ReportSlots.fields .free (reportValue r).document
      = .ok ⟨some r.strategy, some r.threads, some r.outcomes, some r.stats⟩ := by
    simp [hform, readRecord, members?, readMembers, ReportSlots.fields, ReportSlots.free,
      fill_free hstrategy, fill_free (readNatural_natural hthreads),
      fill_free (readList_array houtcomes), fill_free (toStats_printed hruns hchecked),
      bind, Except.bind, Except.map]
  rw [ReadsBack, toReport, hrecord]
  rfl

/-- What a validation prints for other programs is read back as the report and the paths of
the dependencies that hold, if its numbers are of 64 binary digits. -/
theorem readText_validateOutput (hthreads : r.threads ≤ max64)
    (hruns : r.stats.matcherRuns ≤ max64) (hchecked : r.stats.embeddingsChecked ≤ max64)
    (satisfied : List String) :
    readText toPrinted (validateOutput true r satisfied) = .ok (r, satisfied) := by
  have hprinted : ReadsBack (fun p : Report × List String =>
      .object [("report", reportValue p.1), ("satisfied", .array (p.2.map .text))])
      toPrinted (r, satisfied) :=
    readPair_object (by decide) (readsBack_reportValue hthreads hruns hchecked)
      (readList_array fun _ _ => rfl)
  have hbreak : ∀ c ∈ "\n".toList, isSpace c = true := by simp [isSpace]
  exact hprinted.readText_pretty hbreak

end GraphDependency.Command
