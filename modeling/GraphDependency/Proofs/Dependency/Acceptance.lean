import GraphDependency.Dependency.Text
import GraphDependency.Json.Dependency
import GraphDependency.Proofs.Graph.Simple
import GraphDependency.Workload

set_option autoImplicit false

/-!
# Which dependencies there are

Parts make a dependency if their literals refer to vertices of the pattern only and the pattern
is connected: it is empty, or any two of its vertices are joined by a path.  Of several
references to missing vertices the first is reported, and that the pattern falls apart is
reported if there is none.  Both readers apply this test to the parts that they have read.

Main statements: `ofParts_eq_vertexMissing_iff`, `ofParts_eq_disconnected_iff` and
`acceptance_exact`.
-/

namespace GraphDependency

variable {pattern : Graph} {premises conclusion literals : List Literal} {l : Literal}
  {size i : Nat}

/-! ## References -/

/-- The references of literals to vertices, each with its literal: literal by literal, the left
side first. -/
def references (literals : List Literal) : List (Literal × Nat) :=
  literals.flatMap fun l => l.indices.map fun i => (l, i)

/-- This reference is the first one to a vertex that is missing. -/
def FirstMissing (size : Nat) (literals : List Literal) (l : Literal) (i : Nat) : Prop :=
  ∃ before after, references literals = before ++ (l, i) :: after
    ∧ (∀ r ∈ before, r.2 < size) ∧ size ≤ i

theorem firstMissing?_eq_find? (size : Nat) (literals : List Literal) :
    Dependency.firstMissing? size literals
      = (references literals).find? fun r => decide (size ≤ r.2) := by
  induction literals with
  | nil => rfl
  | cons l rest ih =>
    have hcons : references (l :: rest) = l.indices.map (fun i => (l, i)) ++ references rest :=
      List.flatMap_cons
    rw [hcons, List.find?_append, List.find?_map, ← ih, Dependency.firstMissing?]
    change _ = (Option.map _ (l.indices.find? fun i => decide (size ≤ i))).or _
    cases l.indices.find? fun i => decide (size ≤ i) <;> rfl

theorem firstMissing?_eq_some_iff :
    Dependency.firstMissing? size literals = some (l, i) ↔ FirstMissing size literals l i := by
  rw [firstMissing?_eq_find?, List.find?_eq_some_iff_append]
  constructor
  · rintro ⟨hi, before, after, hsplit, hbefore⟩
    refine ⟨before, after, hsplit, fun r hr => ?_, of_decide_eq_true hi⟩
    simpa using hbefore r hr
  · rintro ⟨before, after, hsplit, hbefore, hi⟩
    refine ⟨decide_eq_true hi, before, after, hsplit, fun r hr => ?_⟩
    simpa using hbefore r hr

theorem forall_inRange_iff :
    (∀ l ∈ literals, l.InRange size) ↔ ∀ r ∈ references literals, r.2 < size := by
  constructor
  · intro h r hr
    obtain ⟨l, hl, hr⟩ := List.mem_flatMap.mp hr
    obtain ⟨i, hi, rfl⟩ := List.mem_map.mp hr
    exact h l hl i hi
  · intro h l hl i hi
    exact h (l, i) (List.mem_flatMap.mpr ⟨l, hl, List.mem_map_of_mem hi⟩)

/-! ## The test -/

theorem ofParts_of_firstMissing?
    (h : Dependency.firstMissing? pattern.size (premises ++ conclusion) = some (l, i)) :
    Dependency.ofParts pattern premises conclusion
      = .error (.vertexMissing l i pattern.size) := by
  unfold Dependency.ofParts
  split
  · rename_i hmissing
    cases h.symm.trans hmissing
    rfl
  · rename_i hnone
    cases h.symm.trans hnone

theorem ofParts_of_not_isConnected
    (h : Dependency.firstMissing? pattern.size (premises ++ conclusion) = none)
    (hconn : ¬ pattern.isConnected = true) :
    Dependency.ofParts pattern premises conclusion = .error .disconnected := by
  unfold Dependency.ofParts
  split
  · rename_i hmissing
    cases h.symm.trans hmissing
  · exact dif_neg hconn

theorem exists_ofParts_of_isConnected
    (h : Dependency.firstMissing? pattern.size (premises ++ conclusion) = none)
    (hconn : pattern.isConnected = true) :
    ∃ d, Dependency.ofParts pattern premises conclusion = .ok d :=
  Dependency.ofParts_ok_iff.mpr ⟨Dependency.firstMissing?_eq_none_iff.mp h, hconn⟩

/-- The parts make a dependency: no reference is to a missing vertex, and the pattern is empty
or any two of its vertices are joined by a path. -/
structure Acceptable (pattern : Graph) (premises conclusion : List Literal) : Prop where
  inRange : ∀ r ∈ references (premises ++ conclusion), r.2 < pattern.size
  joined : pattern.size = 0 ∨ ∀ u w, ∃ p : pattern.toSimpleGraph.Walk u w, p.IsPath

theorem acceptable_iff : Acceptable pattern premises conclusion
    ↔ (∀ l ∈ premises ++ conclusion, l.InRange pattern.size) ∧ pattern.isConnected = true := by
  rw [forall_inRange_iff, Graph.isConnected_iff_isPath]
  exact ⟨fun h => ⟨h.inRange, h.joined⟩, fun h => ⟨h.1, h.2⟩⟩

/-- Every dependency is made of such parts. -/
theorem Dependency.acceptable (d : Dependency) :
    Acceptable d.pattern d.premises d.conclusion :=
  acceptable_iff.mpr ⟨d.inRange, d.connected⟩

theorem exists_ofParts_iff :
    (∃ d, Dependency.ofParts pattern premises conclusion = .ok d)
      ↔ Acceptable pattern premises conclusion := by
  rw [acceptable_iff, Dependency.ofParts_ok_iff]

theorem ofParts_eq_vertexMissing_iff :
    Dependency.ofParts pattern premises conclusion = .error (.vertexMissing l i size)
      ↔ size = pattern.size ∧ FirstMissing pattern.size (premises ++ conclusion) l i := by
  rw [← firstMissing?_eq_some_iff]
  constructor
  · intro h
    cases hmissing : Dependency.firstMissing? pattern.size (premises ++ conclusion) with
    | some r =>
      rw [ofParts_of_firstMissing? hmissing] at h
      cases h
      exact ⟨rfl, rfl⟩
    | none =>
      by_cases hconn : pattern.isConnected = true
      · obtain ⟨d, hd⟩ := exists_ofParts_of_isConnected hmissing hconn
        cases hd.symm.trans h
      · rw [ofParts_of_not_isConnected hmissing hconn] at h
        cases h
  · rintro ⟨rfl, hmissing⟩
    exact ofParts_of_firstMissing? hmissing

theorem ofParts_eq_disconnected_iff :
    Dependency.ofParts pattern premises conclusion = .error .disconnected
      ↔ (∀ r ∈ references (premises ++ conclusion), r.2 < pattern.size)
        ∧ ¬ pattern.isConnected = true := by
  rw [← forall_inRange_iff, ← Dependency.firstMissing?_eq_none_iff]
  constructor
  · intro h
    cases hmissing : Dependency.firstMissing? pattern.size (premises ++ conclusion) with
    | some r =>
      rw [ofParts_of_firstMissing? hmissing] at h
      cases h
    | none =>
      refine ⟨rfl, fun hconn => ?_⟩
      obtain ⟨d, hd⟩ := exists_ofParts_of_isConnected hmissing hconn
      cases hd.symm.trans h
  · rintro ⟨hnone, hconn⟩
    exact ofParts_of_not_isConnected hnone hconn

/-! ## Readers -/

/-- Makes a dependency of parts that were read, if they pass the test. -/
def testParts (p : Workload.Parts) : Except DependencyFault Dependency :=
  Dependency.ofParts p.pattern p.premises p.conclusion

/-- What is read and tested is a dependency exactly if acceptable parts are read. -/
theorem exists_bind_testParts_iff {ε : Type} (x : Except ε Workload.Parts)
    (reword : DependencyFault → ε) :
    (∃ d, (x.bind fun p => (testParts p).mapError reword) = .ok d)
      ↔ ∃ p, x = .ok p ∧ Acceptable p.pattern p.premises p.conclusion := by
  constructor
  · rintro ⟨d, h⟩
    obtain ⟨p, hp, hd⟩ := bind_eq_ok_iff.mp h
    exact ⟨p, hp, exists_ofParts_iff.mp ⟨d, mapError_eq_ok_iff.mp hd⟩⟩
  · rintro ⟨p, hp, hacceptable⟩
    obtain ⟨d, hd⟩ := exists_ofParts_iff.mpr hacceptable
    exact ⟨d, bind_eq_ok_iff.mpr ⟨p, hp, mapError_eq_ok_iff.mpr hd⟩⟩

/-- Reads the parts of a dependency from a text, without testing them. -/
def readParts (text : String) : Except DependencyTextFault Workload.Parts := do
  let (first, rest) := splitLine text.toList
  let (second, rest) := splitLine rest
  let premises ← parseLiteralLine 1 first
  let conclusion ← parseLiteralLine 2 second
  let pattern ← (Dot.readGraph 3 (String.ofList rest)).mapError .pattern
  .ok ⟨pattern, premises, conclusion⟩

theorem readDependency_eq_readParts (text : String) :
    readDependency text
      = (readParts text).bind fun p => (testParts p).mapError .malformed := by
  simp only [readDependency, readParts, bind]
  cases parseLiteralLine 1 (splitLine text.toList).1 with
  | error fault => rfl
  | ok premises =>
    cases parseLiteralLine 2 (splitLine (splitLine text.toList).2).1 with
    | error fault => rfl
    | ok conclusion =>
      cases Dot.readGraph 3 (String.ofList (splitLine (splitLine text.toList).2).2) <;> rfl

namespace Json

/-- Reads the parts of a dependency from a document, without testing them. -/
def toParts : Reader Workload.Parts := fun d => do
  let slots ← readRecord DependencySlots.fields .free d
  .ok ⟨← required slots.pattern?, ← required slots.premises?, ← required slots.conclusion?⟩

theorem toDependency_eq_toParts (d : Document) :
    toDependency d = (toParts d).bind fun p => (testParts p).mapError .dependency := by
  simp only [toDependency, toParts, bind]
  cases readRecord DependencySlots.fields .free d with
  | error fault => rfl
  | ok slots =>
    obtain ⟨pattern?, premises?, conclusion?⟩ := slots
    cases pattern? <;> cases premises? <;> cases conclusion? <;> rfl

/-- A text is refused for what follows it only if its parts have passed the test. -/
theorem readDependency_eq_toParts (text : String) :
    readDependency text
      = ((toParts (Document.ofText text).document).bind fun p =>
          (testParts p).mapError .dependency).bind fun d =>
            if (Document.ofText text).whole then .ok d else .error .form := by
  rw [← toDependency_eq_toParts]
  rfl

theorem exists_readDependency_iff {text : String} :
    (∃ d, readDependency text = .ok d)
      ↔ (Document.ofText text).whole = true ∧ ∃ p, toParts (Document.ofText text).document = .ok p
        ∧ Acceptable p.pattern p.premises p.conclusion := by
  rw [readDependency_eq_toParts,
    ← exists_bind_testParts_iff (toParts (Document.ofText text).document) Fault.dependency]
  cases (toParts (Document.ofText text).document).bind fun p =>
      (testParts p).mapError Fault.dependency with
  | error fault => exact iff_of_false nofun fun h => nomatch h.2
  | ok d =>
    cases (Document.ofText text).whole with
    | true => exact iff_of_true ⟨d, rfl⟩ ⟨rfl, d, rfl⟩
    | false => exact iff_of_false nofun fun h => nomatch h.1

end Json

/-- Parts make a dependency exactly if every reference is to a vertex of the pattern and the
pattern is empty or any two of its vertices are joined by a path of its edges.  Otherwise the
first reference to a missing vertex is reported, and that the pattern falls apart is reported
if there is no such reference.  Both readers are followed by this very test, so they accept the
acceptable parts and no others, and there are no other dependencies. -/
theorem acceptance_exact :
    (∀ pattern premises conclusion,
      ((∃ d, Dependency.ofParts pattern premises conclusion = .ok d)
          ↔ Acceptable pattern premises conclusion)
        ∧ (∀ l i size, Dependency.ofParts pattern premises conclusion
              = .error (.vertexMissing l i size)
            ↔ size = pattern.size ∧ FirstMissing pattern.size (premises ++ conclusion) l i)
        ∧ (Dependency.ofParts pattern premises conclusion = .error .disconnected
            ↔ (∀ r ∈ references (premises ++ conclusion), r.2 < pattern.size)
              ∧ ¬ (pattern.size = 0 ∨ ∀ u w, ∃ p : pattern.toSimpleGraph.Walk u w, p.IsPath)))
      ∧ (∀ text,
        (readDependency text
            = (readParts text).bind fun p => (testParts p).mapError .malformed)
          ∧ ((∃ d, readDependency text = .ok d)
            ↔ ∃ p, readParts text = .ok p ∧ Acceptable p.pattern p.premises p.conclusion))
      ∧ (∀ text,
        (Json.readDependency text
            = ((Json.toParts (Json.Document.ofText text).document).bind fun p =>
                (testParts p).mapError .dependency).bind fun d =>
                  if (Json.Document.ofText text).whole then .ok d else .error .form)
          ∧ ((∃ d, Json.readDependency text = .ok d)
            ↔ (Json.Document.ofText text).whole = true
              ∧ ∃ p, Json.toParts (Json.Document.ofText text).document = .ok p
                ∧ Acceptable p.pattern p.premises p.conclusion))
      ∧ ∀ d : Dependency, Acceptable d.pattern d.premises d.conclusion := by
  refine ⟨fun pattern premises conclusion => ⟨exists_ofParts_iff, ?_, ?_⟩, fun text => ?_,
    fun text => ?_, Dependency.acceptable⟩
  · exact fun l i size => ofParts_eq_vertexMissing_iff
  · rw [← Graph.isConnected_iff_isPath]
    exact ofParts_eq_disconnected_iff
  · rw [readDependency_eq_readParts]
    exact ⟨rfl, exists_bind_testParts_iff _ _⟩
  · exact ⟨Json.readDependency_eq_toParts text, Json.exists_readDependency_iff⟩

end GraphDependency
