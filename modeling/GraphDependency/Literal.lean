import GraphDependency.Graph

set_option autoImplicit false

/-!
# Literals

A literal asks two terms to have equal values under an embedding.  A term is a
constant or an attribute of a pattern vertex, read at the data vertex to which
the embedding sends it.  A term without a value makes its literal fail.

Main statements: `holds_iff` and `satisfied_iff`.
-/

namespace GraphDependency

/-- A map from pattern vertices to data vertices, listed by pattern vertex. -/
abbrev Embedding : Type := Array Nat

/-- One side of a literal. -/
inductive Term where
  /-- an attribute of a pattern vertex -/
  | vertex (index : Nat) (name : String)
  /-- a fixed value -/
  | constant (value : String)
  deriving DecidableEq, Repr, Inhabited

namespace Term

/-- The pattern vertex that a term refers to. -/
def index? : Term → Option Nat
  | .vertex index _ => some index
  | .constant _ => none

/-- The value of a term under an embedding, if it has one. -/
def resolve (data : Graph) (embedding : Embedding) : Term → Option String
  | .constant value => some value
  | .vertex index name =>
    embedding[index]?.bind fun v => (data.vertex? v).bind fun x => x.value? name

/-- The text of a term. -/
def text : Term → String
  | .vertex index name => toString index ++ "." ++ name
  | .constant value => value

end Term

/-- An equation between two terms. -/
structure Literal where
  lhs : Term
  rhs : Term
  deriving DecidableEq, Repr, Inhabited

namespace Literal

/-- Both sides have a value, and the values are equal. -/
def holds (data : Graph) (embedding : Embedding) (l : Literal) : Bool :=
  match l.lhs.resolve data embedding, l.rhs.resolve data embedding with
  | some a, some b => a = b
  | _, _ => false

/-- The pattern vertices that a literal refers to, left side first. -/
def indices (l : Literal) : List Nat := l.lhs.index?.toList ++ l.rhs.index?.toList

/-- The text of a literal. -/
def text (l : Literal) : String := l.lhs.text ++ "=" ++ l.rhs.text

theorem holds_iff {data : Graph} {embedding : Embedding} {l : Literal} :
    l.holds data embedding = true
      ↔ ∃ value, l.lhs.resolve data embedding = some value
          ∧ l.rhs.resolve data embedding = some value := by
  unfold holds
  split
  · rename_i a b ha hb
    simp [ha, hb, eq_comm]
  · rename_i hn
    constructor
    · intro h; simp at h
    · rintro ⟨value, ha, hb⟩
      exact absurd hb (hn value value ha)

end Literal

/-- Every literal of a list holds. -/
def satisfied (data : Graph) (embedding : Embedding) (literals : List Literal) : Bool :=
  literals.all (Literal.holds data embedding)

theorem satisfied_iff {data : Graph} {embedding : Embedding} {literals : List Literal} :
    satisfied data embedding literals = true
      ↔ ∀ l ∈ literals, l.holds data embedding = true :=
  List.all_eq_true

end GraphDependency
