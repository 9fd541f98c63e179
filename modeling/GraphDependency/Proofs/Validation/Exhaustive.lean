import GraphDependency.Proofs.Matching.Enumeration
import GraphDependency.Validation.Exhaustive

set_option autoImplicit false

/-!
# What a violation means

A dependency is violated by an embedding of its pattern that satisfies all premises
and fails a literal of the conclusion.  Nothing embeds if the dependency is trivial.
The exhaustive check goes through the embeddings in the order of the matcher, and stops
at the first counterexample.

Main statements: `checkExhaustive_iff`, the exhaustive check finds the violations, and
`checkExhaustive_exact`, what it counts.
-/

namespace GraphDependency

open GraphDependency.Matching

/-! ## Values of terms -/

/-- What a term stands for under an embedding: a constant for itself, an attribute of a
pattern vertex for what the image of the vertex has under that name. -/
def Term.HasValue (data : Graph) (m : Embedding) (value : String) : Term → Prop
  | .constant c => c = value
  | .vertex u name => ∃ x, data.vertex? (m.image u) = some x ∧ x.value? name = some value

theorem Term.resolve_eq_some_iff {data : Graph} {m : Embedding} {value : String} {t : Term}
    (h : ∀ u ∈ t.index?, u < m.size) :
    t.resolve data m = some value ↔ t.HasValue data m value := by
  cases t with
  | constant c => simp [resolve, HasValue]
  | vertex u name =>
    have hu : u < m.size := h u rfl
    simp [resolve, HasValue, Option.bind_eq_some_iff, Embedding.image, hu]

/-- A literal holds if both of its sides have the same value; so it fails if one of them
has none. -/
theorem Literal.holds_iff_hasValue {data : Graph} {m : Embedding} {l : Literal}
    (h : l.InRange m.size) :
    l.holds data m = true
      ↔ ∃ value, l.lhs.HasValue data m value ∧ l.rhs.HasValue data m value := by
  have hlhs : ∀ u ∈ l.lhs.index?, u < m.size := fun u hu =>
    h u (List.mem_append_left _ (by simpa using hu))
  have hrhs : ∀ u ∈ l.rhs.index?, u < m.size := fun u hu =>
    h u (List.mem_append_right _ (by simpa using hu))
  rw [Literal.holds_iff]
  simp only [Term.resolve_eq_some_iff hlhs, Term.resolve_eq_some_iff hrhs]

/-! ## Counterexamples -/

namespace Dependency

/-- The embedding shows that the dependency does not hold. -/
structure IsCounterexample (d : Dependency) (data : Graph) (m : Embedding) : Prop where
  embedding : (Query.plain d.pattern data).IsEmbedding m
  premises : ∀ l ∈ d.premises, l.holds data m = true
  conclusion : ∃ l ∈ d.conclusion, l.holds data m = false

/-- Some embedding shows that the dependency does not hold. -/
def Violated (d : Dependency) (data : Graph) : Prop := ∃ m, d.IsCounterexample data m

/-- The first counterexample in a list of embeddings is the one with number `k`, counted
from one. -/
def FirstAt (d : Dependency) (data : Graph) (ms : List Embedding) (k : Nat) : Prop :=
  ∃ before m after, ms = before ++ m :: after ∧ k = before.length + 1
    ∧ d.IsCounterexample data m ∧ ∀ m' ∈ before, ¬ d.IsCounterexample data m'

/-- A label of the pattern is not found in the data. -/
def HasAbsentLabel (d : Dependency) (data : Graph) : Prop :=
  ∃ u < d.pattern.size, ∀ v < data.size, data.label v ≠ d.pattern.label u

variable {d : Dependency} {data : Graph} {m : Embedding}

theorem satisfied_eq_false_iff {literals : List Literal} :
    satisfied data m literals = false ↔ ∃ l ∈ literals, l.holds data m = false :=
  List.all_eq_false.trans (by simp)

theorem satisfiedBy_eq_false_iff :
    d.satisfiedBy data m = false
      ↔ satisfied data m d.premises = true ∧ satisfied data m d.conclusion = false := by
  rw [satisfiedBy, Bool.or_eq_false_iff, Bool.not_eq_false']

theorem isCounterexample_iff :
    d.IsCounterexample data m
      ↔ (Query.plain d.pattern data).IsEmbedding m ∧ d.satisfiedBy data m = false := by
  rw [satisfiedBy_eq_false_iff, satisfied_iff, satisfied_eq_false_iff]
  exact ⟨fun h => ⟨h.embedding, h.premises, h.conclusion⟩, fun h => ⟨h.1, h.2.1, h.2.2⟩⟩

theorem satisfiedBy_of_not_isCounterexample (hm : (Query.plain d.pattern data).IsEmbedding m)
    (h : ¬ d.IsCounterexample data m) : d.satisfiedBy data m = true := by
  by_contra hno
  exact h (isCounterexample_iff.mpr ⟨hm, by simpa using hno⟩)

/-- A list with a counterexample has a first one. -/
theorem exists_firstAt {ms : List Embedding} (hm : m ∈ ms) (h : d.IsCounterexample data m) :
    ∃ k, d.FirstAt data ms k := by
  induction ms with
  | nil => cases hm
  | cons m' rest ih =>
    by_cases hfirst : d.IsCounterexample data m'
    · exact ⟨1, [], m', rest, rfl, rfl, hfirst, by simp⟩
    · -- The first one of the rest comes after one more.
      have hrest : m ∈ rest := (List.mem_cons.mp hm).resolve_left (by rintro rfl; exact hfirst h)
      obtain ⟨k, before, x, after, rfl, rfl, hx, hbefore⟩ := ih hrest
      exact ⟨before.length + 2, m' :: before, x, after, rfl, rfl, hx,
        List.forall_mem_cons.mpr ⟨hfirst, hbefore⟩⟩

/-- The embeddings in a list that holds all of them show whether there is a
counterexample. -/
theorem any_iff_violated {ms : List Embedding}
    (hms : ∀ m, m ∈ ms ↔ (Query.plain d.pattern data).IsEmbedding m) :
    (ms.any fun m => !d.satisfiedBy data m) = true ↔ d.Violated data := by
  rw [List.any_eq_true]
  refine exists_congr ?_
  intro m
  rw [hms, isCounterexample_iff, Bool.not_eq_true']

theorem labelsAbsentFrom_iff : d.labelsAbsentFrom data = true ↔ d.HasAbsentLabel data := by
  rw [labelsAbsentFrom, List.any_eq_true]
  constructor
  · rintro ⟨label, hlabel, hno⟩
    obtain ⟨u, hu, rfl⟩ := (Graph.mem_labels_iff _).mp hlabel
    rw [Bool.not_eq_true', ← Bool.not_eq_true, Graph.hasLabel_iff] at hno
    exact ⟨u, hu, fun v hv heq => hno ⟨v, hv, heq⟩⟩
  · rintro ⟨u, hu, hno⟩
    refine ⟨d.pattern.label u, (Graph.mem_labels_iff _).mpr ⟨u, hu, rfl⟩, ?_⟩
    rw [Bool.not_eq_true', ← Bool.not_eq_true, Graph.hasLabel_iff]
    rintro ⟨v, hv, heq⟩
    exact hno v hv heq

/-- A dependency is trivial if there is nothing to search for. -/
theorem triviallyHolds_iff :
    d.triviallyHolds data = true ↔ d.pattern.size = 0 ∨ d.HasAbsentLabel data := by
  rw [triviallyHolds, Bool.or_eq_true, labelsAbsentFrom_iff]
  simp [Graph.isEmpty]

theorem not_isEmbedding_of_hasAbsentLabel (h : d.HasAbsentLabel data) :
    ¬ (Query.plain d.pattern data).IsEmbedding m := by
  obtain ⟨u, hu, hno⟩ := h
  exact fun hm => hno (m.image u) (hm.image_lt u hu) (hm.label_eq u hu)

/-- A pattern that is empty or has a label of its own is not found anywhere. -/
theorem not_isEmbedding_of_triviallyHolds (h : d.triviallyHolds data = true) :
    ¬ (Query.plain d.pattern data).IsEmbedding m := by
  rcases triviallyHolds_iff.mp h with hempty | habsent
  · exact fun hm => absurd hm.nonempty (by simp [Query.plain, hempty])
  · exact not_isEmbedding_of_hasAbsentLabel habsent

theorem triviallyHolds_eq_false (h : (Query.plain d.pattern data).IsEmbedding m) :
    d.triviallyHolds data = false :=
  Bool.eq_false_iff.mpr fun htrivial => not_isEmbedding_of_triviallyHolds htrivial h

theorem not_violated_of_triviallyHolds (h : d.triviallyHolds data = true) :
    ¬ d.Violated data :=
  fun ⟨_, hm⟩ => not_isEmbedding_of_triviallyHolds h hm.embedding

/-- Nothing fails an empty conclusion. -/
theorem not_violated_of_conclusion_eq_nil (h : d.conclusion = []) : ¬ d.Violated data := by
  rintro ⟨m, -, -, l, hl, -⟩
  rw [h] at hl
  cases hl

end Dependency

namespace Validation

/-- A run over a list has stopped if its visitor has. -/
theorem stopped_runOver {σ : Type} {visit : σ → Embedding → ForInStep σ}
    {stop : Embedding → Bool} (h : ∀ state m, halts (visit state m) = stop m) (state : σ)
    (ms : List Embedding) : (runOver visit state ms).stopped = ms.any stop := by
  have hcounting : ∀ s, ∀ m ∈ ms, halts (counting visit s m) = stop m := by
    intro s m _
    rw [← h s.1, counting]
    cases visit s.1 m <;> rfl
  rw [← halts_visitAll hcounting (state, 0), runOver]
  cases visitAll (counting visit) (state, 0) ms <;> rfl

/-- An outcome is known from whether it is a violation. -/
theorem outcome_ext {a b : Outcome} (h : a = .violated ↔ b = .violated) : a = b := by
  cases a with
  | violated => exact (h.mp rfl).symm
  | holds =>
    cases b with
    | violated => exact h.mpr rfl
    | holds => rfl

theorem ite_eq_violated_iff {p : Prop} [Decidable p] :
    (if p then Outcome.violated else .holds) = .violated ↔ p := by
  split <;> simp [*]

theorem outcomeOf_eq_violated_iff {σ : Type} {run : Run σ} :
    outcomeOf run = .violated ↔ run.stopped = true :=
  ite_eq_violated_iff

theorem halts_seekCounterexample (d : Dependency) (data : Graph) (state : Unit)
    (m : Embedding) :
    halts (seekCounterexample d data state m) = !d.satisfiedBy data m := by
  rw [seekCounterexample]
  cases d.satisfiedBy data m <;> rfl

/-- The exhaustive check says that a dependency is violated if it is. -/
theorem checkExhaustive_iff (data : Graph) (d : Dependency) :
    (checkExhaustive data d).1 = .violated ↔ d.Violated data := by
  unfold checkExhaustive
  split
  · rename_i htrivial
    simp [Dependency.not_violated_of_triviallyHolds htrivial]
  · have hms : ∀ m, m ∈ listed (.plain d.pattern data) none
        ↔ (Query.plain d.pattern data).IsEmbedding m := fun m => mem_listed_iff nofun
    rw [← Dependency.any_iff_violated hms, ← stopped_runOver (halts_seekCounterexample d data) (),
      ← forEachEmbedding_eq_runOver]
    exact outcomeOf_eq_violated_iff

/-! ## What the check counts -/

section Counts

variable {d : Dependency} {data : Graph} {ms : List Embedding} {k : Nat}

theorem visitAll_seekCounterexample (h : ∀ m ∈ ms, d.satisfiedBy data m = true) :
    visitAll (seekCounterexample d data) () ms = .yield () := by
  induction ms with
  | nil => rfl
  | cons m rest ih =>
    obtain ⟨hm, hrest⟩ := List.forall_mem_cons.mp h
    rw [visitAll, seekCounterexample, if_pos hm]
    exact ih hrest

variable (hms : ∀ m ∈ ms, (Query.plain d.pattern data).IsEmbedding m)

include hms

/-- Without a counterexample, a run sees all of its embeddings. -/
theorem runOver_seekCounterexample (h : ∀ m ∈ ms, ¬ d.IsCounterexample data m) :
    runOver (seekCounterexample d data) () ms = ⟨(), ms.length, false⟩ :=
  runOver_of_yield <| visitAll_seekCounterexample fun m hm =>
    Dependency.satisfiedBy_of_not_isCounterexample (hms m hm) (h m hm)

/-- A run ends at the first counterexample. -/
theorem runOver_seekCounterexample_of_firstAt (h : d.FirstAt data ms k) :
    runOver (seekCounterexample d data) () ms = ⟨(), k, true⟩ := by
  obtain ⟨before, m, after, rfl, rfl, hm, hbefore⟩ := h
  refine runOver_of_done (visitAll_seekCounterexample fun m' hm' => ?_) ?_
  · exact Dependency.satisfiedBy_of_not_isCounterexample
      (hms m' (List.mem_append_left _ hm')) (hbefore m' hm')
  · rw [seekCounterexample, (Dependency.isCounterexample_iff.mp hm).2]
    rfl

end Counts

section Check

variable {d : Dependency} {data : Graph} {k : Nat}

theorem mem_reported_iff {m : Embedding} :
    m ∈ reported (Query.plain d.pattern data) none
      ↔ (Query.plain d.pattern data).IsEmbedding m := by
  rw [reported_eq_listed, mem_listed_iff (by simp)]

theorem checkExhaustive_of_triviallyHolds (h : d.triviallyHolds data = true) :
    checkExhaustive data d = (.holds, .zero) :=
  if_pos h

theorem checkExhaustive_of_not_triviallyHolds (h : d.triviallyHolds data = false) :
    checkExhaustive data d
      = let run := runOver (seekCounterexample d data) ()
          (reported (Query.plain d.pattern data) none)
        (outcomeOf run, ⟨1, run.embeddings⟩) := by
  rw [checkExhaustive, if_neg (by simp [h]), forEachEmbedding_eq_runOver, reported_eq_listed]

theorem checkExhaustive_of_firstAt
    (h : d.FirstAt data (reported (Query.plain d.pattern data) none) k) :
    checkExhaustive data d = (.violated, ⟨1, k⟩) := by
  have htrivial : d.triviallyHolds data = false := by
    obtain ⟨-, m, -, -, -, hm, -⟩ := h
    exact Dependency.triviallyHolds_eq_false hm.embedding
  rw [checkExhaustive_of_not_triviallyHolds htrivial,
    runOver_seekCounterexample_of_firstAt (fun _ => mem_reported_iff.mp) h]
  rfl

/-- Without a counterexample, every embedding is counted. -/
theorem checkExhaustive_of_not_violated (h : ¬ d.Violated data) :
    checkExhaustive data d
      = (.holds, ⟨if d.triviallyHolds data then 0 else 1,
          (reported (Query.plain d.pattern data) none).length⟩) := by
  by_cases ht : d.triviallyHolds data = true
  · have hnil : reported (Query.plain d.pattern data) none = [] :=
      List.eq_nil_iff_forall_not_mem.mpr fun m hm =>
        Dependency.not_isEmbedding_of_triviallyHolds ht (mem_reported_iff.mp hm)
    rw [checkExhaustive_of_triviallyHolds ht, if_pos ht, hnil]
    rfl
  · rw [checkExhaustive_of_not_triviallyHolds (by simpa using ht), if_neg ht,
      runOver_seekCounterexample (fun _ => mem_reported_iff.mp) fun m _ hm => h ⟨m, hm⟩]
    rfl

/-- The answer is a violation and a number exactly if the first counterexample has that
number. -/
theorem checkExhaustive_violated_iff :
    (checkExhaustive data d).1 = .violated ∧ (checkExhaustive data d).2.embeddingsChecked = k
      ↔ d.FirstAt data (reported (Query.plain d.pattern data) none) k := by
  constructor
  · rintro ⟨hviolated, hk⟩
    obtain ⟨m, hm⟩ := (checkExhaustive_iff data d).mp hviolated
    obtain ⟨j, hj⟩ := Dependency.exists_firstAt (mem_reported_iff.mpr hm.embedding) hm
    rw [checkExhaustive_of_firstAt hj] at hk
    exact hk ▸ hj
  · intro h
    rw [checkExhaustive_of_firstAt h]
    exact ⟨rfl, rfl⟩

/-- The answer is that the dependency holds exactly if it does, with the number of all
embeddings. -/
theorem checkExhaustive_holds_iff :
    (checkExhaustive data d).1 = .holds ∧ (checkExhaustive data d).2.embeddingsChecked = k
      ↔ ¬ d.Violated data ∧ k = (reported (Query.plain d.pattern data) none).length := by
  constructor
  · rintro ⟨houtcome, rfl⟩
    have hnot : ¬ d.Violated data := fun h => by
      rw [(checkExhaustive_iff data d).mpr h] at houtcome
      cases houtcome
    rw [checkExhaustive_of_not_violated hnot]
    exact ⟨hnot, rfl⟩
  · rintro ⟨h, rfl⟩
    rw [checkExhaustive_of_not_violated h]
    exact ⟨rfl, rfl⟩

end Check

/-- The check goes through the embeddings of the pattern in the order of the matcher,
each once.  It answers with a violation and a number exactly if the first counterexample
has that number, and otherwise with the number of all embeddings.  A literal holds if
both sides have the same value.  A pattern with a label that the data does not have is
not embedded at all, and for such a one and for the empty pattern nothing is run; for any
other pattern the matcher is run once. -/
theorem checkExhaustive_exact (data : Graph) (d : Dependency) :
    let q := Query.plain d.pattern data
    let ms := reported q none
    (ms.Nodup ∧ ∀ m, m ∈ ms ↔ q.IsEmbedding m)
      ∧ (∀ m, q.IsEmbedding m → ∀ l ∈ d.premises ++ d.conclusion,
          l.holds data m = true
            ↔ ∃ value, l.lhs.HasValue data m value ∧ l.rhs.HasValue data m value)
      ∧ (∀ k, (checkExhaustive data d).1 = .violated
            ∧ (checkExhaustive data d).2.embeddingsChecked = k ↔ d.FirstAt data ms k)
      ∧ (∀ n, (checkExhaustive data d).1 = .holds
            ∧ (checkExhaustive data d).2.embeddingsChecked = n
          ↔ ¬ d.Violated data ∧ n = ms.length)
      ∧ (d.HasAbsentLabel data → ∀ m, ¬ q.IsEmbedding m)
      ∧ (d.pattern.size = 0 ∨ d.HasAbsentLabel data →
          checkExhaustive data d = (.holds, ⟨0, 0⟩))
      ∧ (¬ (d.pattern.size = 0 ∨ d.HasAbsentLabel data) →
          (checkExhaustive data d).2.matcherRuns = 1) := by
  intro q ms
  refine ⟨⟨?_, fun _ => mem_reported_iff⟩, ?_, fun _ => checkExhaustive_violated_iff,
    fun _ => checkExhaustive_holds_iff, ?_, ?_, ?_⟩
  · rw [show ms = listed q none from reported_eq_listed q none]
    exact nodup_listed q none
  · intro m hm l hl
    refine Literal.holds_iff_hasValue ?_
    rw [hm.size_eq]
    exact d.inRange l hl
  · exact fun h m => Dependency.not_isEmbedding_of_hasAbsentLabel h
  · exact fun h => checkExhaustive_of_triviallyHolds (Dependency.triviallyHolds_iff.mpr h)
  · intro h
    rw [← Dependency.triviallyHolds_iff, Bool.not_eq_true] at h
    rw [checkExhaustive_of_not_triviallyHolds h]

end Validation

end GraphDependency
