import GraphDependency.Json.Graph

set_option autoImplicit false

/-!
# The forms of literals and dependencies

A literal is a record of two terms, each of which is an object whose only member
is named for the kind of the term.  A dependency is a record of its three parts.

Main statement: `toTerm_constant`, a constant is read back.
-/

namespace GraphDependency.Json

/-! ## Writing -/

/-- The value of a term. -/
def ofTerm : Term → Value
  | .vertex index name =>
    .object [("Vertex", .object [("index", .natural index), ("attribute", .text name)])]
  | .constant value => .object [("Constant", .text value)]

/-- The value of a literal. -/
def ofLiteral (l : Literal) : Value := .object [("lhs", ofTerm l.lhs), ("rhs", ofTerm l.rhs)]

/-- The value of a dependency. -/
def ofDependency (d : Dependency) : Value :=
  .object [("pattern", ofGraph d.pattern), ("premises", .array (d.premises.map ofLiteral)),
    ("conclusion", .array (d.conclusion.map ofLiteral))]

/-- The text of a literal. -/
def writeLiteral (l : Literal) : String := (ofLiteral l).compact

/-- The text of a dependency. -/
def writeDependency (d : Dependency) : String := (ofDependency d).compact

/-! ## Reading -/

/-- Reads a term. -/
def toTerm : Reader Term
  | .object [(some kind, d)] =>
    if kind = "Vertex" then do
      let (index, name) ← readPair "index" readNatural "attribute" readString d
      .ok (.vertex index name)
    else if kind = "Constant" then (readString d).map .constant
    else .error .form
  | _ => .error .form

/-- Reads a literal. -/
def toLiteral : Reader Literal := fun d => do
  let (lhs, rhs) ← readPair "lhs" toTerm "rhs" toTerm d
  .ok ⟨lhs, rhs⟩

/-- What was read of a dependency. -/
structure DependencySlots where
  pattern? : Option Graph
  premises? : Option (List Literal)
  conclusion? : Option (List Literal)

namespace DependencySlots

/-- Nothing was read yet. -/
def free : DependencySlots := ⟨none, none, none⟩

/-- The fields of a dependency. -/
def fields : List (Field DependencySlots) :=
  [⟨"pattern", fun s d => (fill s.pattern? toGraph d).map fun r => { s with pattern? := r }⟩,
    ⟨"premises", fun s d => (fill s.premises? (readList toLiteral) d).map
      fun r => { s with premises? := r }⟩,
    ⟨"conclusion", fun s d => (fill s.conclusion? (readList toLiteral) d).map
      fun r => { s with conclusion? := r }⟩]

end DependencySlots

/-- Reads a dependency. -/
def toDependency : Reader Dependency := fun d => do
  let slots ← readRecord DependencySlots.fields .free d
  let pattern ← required slots.pattern?
  let premises ← required slots.premises?
  let conclusion ← required slots.conclusion?
  (Dependency.ofParts pattern premises conclusion).mapError .dependency

/-- Reads a literal from a text. -/
def readLiteral (text : String) : Except Fault Literal := readText toLiteral text

/-- Reads a dependency from a text. -/
def readDependency (text : String) : Except Fault Dependency := readText toDependency text

/-- A constant is read back. -/
theorem toTerm_constant (value : String) :
    toTerm (.object [(some "Constant", .string (some value))]) = .ok (.constant value) := by
  simp [toTerm, readString, required, Except.map]

end GraphDependency.Json
