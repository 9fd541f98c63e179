import GraphDependency.Binary64.Shortest
import GraphDependency.Capacity
import GraphDependency.Fault
import GraphDependency.Random.Source

set_option autoImplicit false

/-!
# Workloads

A workload is a random data graph with random dependencies to validate on it.
Any two vertices of the data graph are joined with the same probability.  A
pattern is grown in the data graph: it starts at one vertex and takes in
neighbors of what it has, one at a time, with the edge to each; of the other
edges between its vertices every one is kept with probability one half.  So a
pattern has an embedding, namely the vertices that it was grown from.

Main statements: `generate_of_not_inUnit`, an edge probability outside the unit
interval is refused, and `mem_pairsBelow_iff`, the pairs of vertices that may be
joined.
-/

namespace GraphDependency

open GraphDependency.Random

namespace Workload

/-- What a workload is to be like. -/
structure Parameters where
  vertices : Nat
  /-- The probability of an edge between two vertices. -/
  edgeProbability : Binary64
  /-- Vertex labels, at least one. -/
  labels : Nat
  /-- Edge labels, at least one. -/
  edgeLabels : Nat
  /-- Values of each attribute, at least one. -/
  attributeValues : Nat
  dependencies : Nat
  /-- The most vertices of a pattern. -/
  patternVertices : Nat
  seed : UInt64
  deriving DecidableEq, Repr

/-- A workload of middling size, with an edge probability of 0.03. -/
instance : Inhabited Parameters :=
  ⟨⟨200, ⟨false, 8646911284551352, -58⟩, 4, 2, 3, 20, 4, 42⟩⟩

variable {σ : Type}

/-- The names of the attributes. -/
def attributeNames : List String := ["a", "b"]

/-- An attribute value by its number. -/
def valueName (i : Nat) : String := "v" ++ toString i

/-! ## The data graph -/

/-- An attribute with a random value. -/
def drawAttribute (source : Source σ) (values : Nat) (name : String) :
    StateM σ (String × String) := do
  return (name, valueName (← source.wide values))

/-- A random vertex. -/
def drawVertex (source : Source σ) (p : Parameters) : StateM σ Vertex := do
  let label := "L" ++ toString (← source.wide (max p.labels 1))
  let attributes ← attributeNames.mapM (drawAttribute source (max p.attributeValues 1))
  return ⟨label, .ofList attributes⟩

/-- The pairs of numbers below a bound, each with the smaller number first. -/
def pairsBelow (n : Nat) : List (Nat × Nat) :=
  (List.range n).flatMap fun i => (List.range' (i + 1) (n - (i + 1))).map fun j => (i, j)

theorem mem_pairsBelow_iff {n i j : Nat} : (i, j) ∈ pairsBelow n ↔ i < j ∧ j < n := by
  simp only [pairsBelow, List.mem_flatMap, List.mem_range, List.mem_map, List.mem_range'_1,
    Prod.mk.injEq, exists_eq_right_right]
  omega

/-- Appends a random vertex, as long as there are names for all of them. -/
def appendVertex (source : Source σ) (p : Parameters) (vertices : Option (Array Vertex)) (_ : Nat) :
    StateM σ (Option (Array Vertex)) := do
  match vertices with
  | none => return none
  | some vertices => return Capacity.push? vertices (← drawVertex source p)

/-- Whether a pair of vertices is joined, and the label of the edge. -/
def drawLabel? (source : Source σ) (p : Parameters) : StateM σ (Option String) := do
  if ← source.coin p.edgeProbability then
    return some ("e" ++ toString (← source.wide (max p.edgeLabels 1)))
  else return none

/-- Joins a pair of vertices, or does not, as long as there are names for all edges. -/
def drawEdge (source : Source σ) (p : Parameters) (edges : Option (Array Edge))
    (pair : Nat × Nat) : StateM σ (Option (Array Edge)) := do
  match edges with
  | none => return none
  | some edges =>
    match ← drawLabel? source p with
    | some label => return Capacity.push? edges ⟨pair.1, pair.2, label⟩
    | none => return some edges

/-- Random vertices, if there are names for all of them. -/
def drawVertices (source : Source σ) (p : Parameters) : StateM σ (Option (Array Vertex)) :=
  (List.range p.vertices).foldlM (appendVertex source p) (some #[])

/-- Random edges, if there are names for all of them. -/
def drawEdges (source : Source σ) (p : Parameters) : StateM σ (Option (Array Edge)) :=
  (pairsBelow p.vertices).foldlM (drawEdge source p) (some #[])

/-- A random data graph, if its vertices and edges can be named. -/
def drawGraph (source : Source σ) (p : Parameters) : StateM σ (Except Fault Graph) := do
  match ← drawVertices source p with
  | none => return .error (.capacity p.vertices)
  | some vertices =>
    match ← drawEdges source p with
    | none => return .error (.capacity (Capacity.indices + 1))
    | some edges => return (Graph.ofLists vertices.toList edges.toList).mapError .graph

/-! ## Patterns -/

/-- A pattern that is being grown: the data vertices it was given, in order, and
the pairs of positions whose edge took in a vertex. -/
structure Growth where
  chosen : List Nat
  tree : List (Nat × Nat)
  deriving DecidableEq, Repr, Inhabited

/-- The data vertices that can be taken in, each with the position of the one it
is a neighbor of. -/
def Growth.frontier (g : Growth) (data : Graph) : List (Nat × Nat) :=
  (g.chosen.zipIdx.flatMap fun e => (data.neighbors e.1).map fun w => (e.2, w)).filter
    fun e => !g.chosen.contains e.2

/-- Takes in a vertex. -/
def Growth.take (g : Growth) (e : Nat × Nat) : Growth :=
  ⟨g.chosen ++ [e.2], g.tree ++ [(e.1, g.chosen.length)]⟩

/-- Takes in up to a number of vertices, as long as there are any. -/
def grow (source : Source σ) (data : Graph) : Nat → Growth → StateM σ Growth
  | 0, g => return g
  | room + 1, g => do
    match ← source.choose (g.frontier data) with
    | some e => grow source data room (g.take e)
    | none => return g

/-- The edge between two positions is part of the tree. -/
def Growth.isTreeEdge (g : Growth) (i j : Nat) : Bool :=
  g.tree.contains (i, j) || g.tree.contains (j, i)

/-- Keeps the data edge between two positions of a pattern, if there is one, or
does not. -/
def drawPatternEdge (source : Source σ) (data : Graph) (g : Growth) (edges : Array Edge)
    (pair : Nat × Nat) : StateM σ (Array Edge) := do
  match g.chosen[pair.1]?, g.chosen[pair.2]? with
  | some v, some w =>
    match data.edgeLabel? v w with
    | none => return edges
    | some label =>
      if g.isTreeEdge pair.1 pair.2 then return edges.push ⟨pair.1, pair.2, label⟩
      else if ← source.coin .half then return edges.push ⟨pair.1, pair.2, label⟩
      else return edges
  | _, _ => return edges

/-- A random pattern, if there is a vertex to start at and room for one. -/
def drawPattern? (source : Source σ) (data : Graph) (room : Nat) : StateM σ (Option Graph) := do
  if data.size = 0 ∨ room = 0 then return none
  else
    let start ← source.wide data.size
    let g ← grow source data (room - 1) ⟨[start], []⟩
    let edges ← (pairsBelow g.chosen.length).foldlM (drawPatternEdge source data g) #[]
    return (Graph.ofLists (g.chosen.map fun v => ⟨data.label v, .empty⟩) edges.toList).toOption

/-! ## Dependencies -/

/-- An attribute of a random vertex of a pattern. -/
def drawVertexTerm (source : Source σ) (size : Nat) : StateM σ Term := do
  let index ← source.wide size
  let name ← source.wide attributeNames.length
  return .vertex index (attributeNames[name]?.getD "")

/-- A random term: an attribute or a value, with equal chances. -/
def drawTerm (source : Source σ) (size values : Nat) : StateM σ Term := do
  if ← source.coin .half then drawVertexTerm source size
  else return .constant (valueName (← source.wide values))

/-- A random literal, with an attribute on its left side. -/
def drawLiteral (source : Source σ) (size values : Nat) : StateM σ Literal := do
  let lhs ← drawVertexTerm source size
  let rhs ← drawTerm source size values
  return ⟨lhs, rhs⟩

/-- What a dependency is made of. -/
structure Parts where
  pattern : Graph
  premises : List Literal
  conclusion : List Literal
  deriving DecidableEq, Repr

/-- The literals of a dependency: at most one premise, and one literal as the
conclusion. -/
def drawParts (source : Source σ) (p : Parameters) (pattern : Graph) : StateM σ Parts := do
  let values := max p.attributeValues 1
  let count ← source.narrow 2
  let premises ← (List.range count).mapM fun _ => drawLiteral source pattern.size values
  let conclusion ← drawLiteral source pattern.size values
  return ⟨pattern, premises, [conclusion]⟩

/-- The parts of a number of dependencies, or none if there is no pattern. -/
def drawAllParts (source : Source σ) (p : Parameters) (data : Graph) :
    Nat → StateM σ (List Parts)
  | 0 => return []
  | count + 1 => do
    match ← drawPattern? source data p.patternVertices with
    | none => return []
    | some pattern =>
      let parts ← drawParts source p pattern
      return parts :: (← drawAllParts source p data count)

/-- Makes a dependency of its parts. -/
def Parts.toDependency (parts : Parts) : Except Fault Dependency :=
  (Dependency.ofParts parts.pattern parts.premises parts.conclusion).mapError
    fun fault => .malformed fault.reason

end Workload

/-- A data graph and dependencies. -/
structure Workload where
  graph : Graph
  dependencies : List Dependency
  deriving DecidableEq, Repr

namespace Workload

variable {σ : Type}

/-- The setting of the edge probability. -/
def probabilityKey : String := "edge_probability"

/-- A random workload.  The edge probability has to be between zero and one, there have to be
names for the vertices and edges of the data graph, and there has to be room for the
dependencies, also for those that are not made.  A pattern has no more vertices and edges than
the data graph, so all of them can be named. -/
def generate (source : Source σ) (p : Parameters) : StateM σ (Except Fault Workload) := do
  if !p.edgeProbability.inUnit then
    return .error (.setting probabilityKey (p.edgeProbability.text ++ " is not in [0, 1]"))
  else
    match ← drawGraph source p with
    | .error fault => return .error fault
    | .ok graph =>
      if Capacity.fits Capacity.dependencyBytes p.dependencies then
        let parts ← drawAllParts source p graph p.dependencies
        return (parts.mapM Parts.toDependency).map fun ds => ⟨graph, ds⟩
      else return .error (.capacity p.dependencies)

/-- The workload of a seed. -/
def ofParameters (p : Parameters) : Except Fault Workload :=
  (generate chacha p (Stream.start (.ofSeed p.seed))).1

theorem ofParameters_eq (p : Parameters) :
    ofParameters p = (generate chacha p (Stream.start (.ofSeed p.seed))).1 := rfl

/-- An edge probability outside the unit interval is refused. -/
theorem generate_of_not_inUnit {source : Source σ} {p : Parameters} (s : σ)
    (h : p.edgeProbability.inUnit = false) :
    (generate source p s).1
      = .error (.setting probabilityKey (p.edgeProbability.text ++ " is not in [0, 1]")) := by
  rw [generate, if_pos (by simp [h])]
  rfl

end Workload

end GraphDependency
