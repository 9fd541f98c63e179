import GraphDependency.Graph.Reach
import GraphDependency.Literal

set_option autoImplicit false

/-!
# Graph functional dependencies

A dependency is a connected pattern with two lists of literals about its
vertices.  It holds on a data graph if every embedding of the pattern that
satisfies the premises satisfies the conclusion.

Main statement: `ofParts_ok_iff`, exactly which parts make a dependency.
-/

namespace GraphDependency

/-- Every vertex that a literal refers to is below the bound. -/
def Literal.InRange (size : Nat) (l : Literal) : Prop := ∀ i ∈ l.indices, i < size

instance (size : Nat) (l : Literal) : Decidable (l.InRange size) :=
  inferInstanceAs (Decidable (∀ i ∈ l.indices, i < size))

/-- A pattern with premises and a conclusion. -/
structure Dependency where
  pattern : Graph
  premises : List Literal
  conclusion : List Literal
  /-- Literals refer to pattern vertices only. -/
  inRange : ∀ l ∈ premises ++ conclusion, l.InRange pattern.size
  connected : pattern.isConnected = true
  deriving DecidableEq, Repr

/-- Why parts make no dependency. -/
inductive DependencyFault where
  /-- a literal refers to a vertex that the pattern does not have -/
  | vertexMissing (literal : Literal) (index size : Nat)
  /-- the pattern falls apart -/
  | disconnected
  deriving DecidableEq, Repr, Inhabited

/-- The wording of the reason. -/
def DependencyFault.reason : DependencyFault → String
  | .vertexMissing literal index size =>
    "literal '" ++ literal.text ++ "' references vertex " ++ toString index
      ++ " but the pattern has " ++ toString size ++ " vertices"
  | .disconnected => "pattern graph is not connected"

/-- The message about parts that make no dependency, for a given reason. -/
def malformedMessage (reason : String) : String := "malformed GFD: " ++ reason

/-- The message about parts that make no dependency. -/
def DependencyFault.message (fault : DependencyFault) : String :=
  malformedMessage fault.reason

namespace Dependency

/-- The first reference to a vertex not below the bound, with its literal. -/
def firstMissing? (size : Nat) : List Literal → Option (Literal × Nat)
  | [] => none
  | l :: rest =>
    match l.indices.find? fun i => size ≤ i with
    | some i => some (l, i)
    | none => firstMissing? size rest

theorem firstMissing?_eq_none_iff {size : Nat} {literals : List Literal} :
    firstMissing? size literals = none ↔ ∀ l ∈ literals, l.InRange size := by
  induction literals with
  | nil => simp [firstMissing?]
  | cons l rest ih =>
    rw [firstMissing?]
    cases h : l.indices.find? fun i => size ≤ i with
    | some i =>
      have hi := List.find?_some h
      have hm := List.mem_of_find?_eq_some h
      simp only [reduceCtorEq, List.mem_cons, forall_eq_or_imp, false_iff, not_and]
      intro hr
      exact absurd (hr i hm) (by simpa using hi)
    | none =>
      rw [List.find?_eq_none] at h
      simp only [ih, List.mem_cons, forall_eq_or_imp, iff_and_self]
      intro _ i hi
      simpa using h i hi

/-- Makes a dependency.  References are checked first, premises before the
conclusion; then the pattern has to be connected. -/
def ofParts (pattern : Graph) (premises conclusion : List Literal) :
    Except DependencyFault Dependency :=
  match h : firstMissing? pattern.size (premises ++ conclusion) with
  | some (l, i) => .error (.vertexMissing l i pattern.size)
  | none =>
    if hc : pattern.isConnected = true then
      .ok ⟨pattern, premises, conclusion, firstMissing?_eq_none_iff.mp h, hc⟩
    else .error .disconnected

/-- Exactly which parts make a dependency. -/
theorem ofParts_ok_iff {pattern : Graph} {premises conclusion : List Literal} :
    (∃ d, ofParts pattern premises conclusion = .ok d)
      ↔ (∀ l ∈ premises ++ conclusion, l.InRange pattern.size)
        ∧ pattern.isConnected = true := by
  unfold ofParts
  split
  · rename_i l i h
    refine ⟨fun hd => by simp at hd, fun hr => ?_⟩
    rw [firstMissing?_eq_none_iff.mpr hr.1] at h
    simp at h
  · rename_i h
    by_cases hc : pattern.isConnected = true
    · exact ⟨fun _ => ⟨firstMissing?_eq_none_iff.mp h, hc⟩, fun _ => by simp [hc]⟩
    · simp [hc]

/-- The embedding is no counterexample: it fails a premise or satisfies the
conclusion. -/
def satisfiedBy (d : Dependency) (data : Graph) (embedding : Embedding) : Bool :=
  !satisfied data embedding d.premises || satisfied data embedding d.conclusion

/-- Some label of the pattern does not occur in the data. -/
def labelsAbsentFrom (d : Dependency) (data : Graph) : Bool :=
  d.pattern.labels.any fun label => !data.hasLabel label

/-- The pattern is empty or has a label that the data does not have, so there is
nothing to search for. -/
def triviallyHolds (d : Dependency) (data : Graph) : Bool :=
  d.pattern.isEmpty || d.labelsAbsentFrom data

end Dependency

end GraphDependency
