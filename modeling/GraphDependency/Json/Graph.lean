import GraphDependency.Except
import GraphDependency.Json.Record
import GraphDependency.Json.Value

set_option autoImplicit false

/-!
# The form of a graph

A graph is given by the list of its vertices and the list of its edges, inside a
record that leaves room for graphs of other kinds: with directed edges, or with
holes in the numbering of the vertices.  Neither is accepted.

Main statement: `toGraph_ok_iff`, what is read is a graph of lists that the graph
itself accepts.
-/

namespace GraphDependency.Json

/-! ## Writing -/

/-- The value of a vertex. -/
def ofVertex (v : Vertex) : Value :=
  .object [("label", .text v.label),
    ("attributes", .object (v.attributes.entries.map fun e => (e.1, .text e.2)))]

/-- The value of an edge. -/
def ofEdge (e : Edge) : Value :=
  .array [.natural e.first, .natural e.second, .object [("label", .text e.label)]]

/-- The value of a graph. -/
def ofGraph (g : Graph) : Value :=
  .object [("inner", .object
    [("nodes", .array (g.vertices.toList.map ofVertex)),
      ("node_holes", .array []),
      ("edge_property", .text "undirected"),
      ("edges", .array (g.edges.toList.map ofEdge))])]

/-- The text of a graph. -/
def writeGraph (g : Graph) : String := (ofGraph g).compact

/-! ## Reading -/

/-- Reads a vertex. -/
def toVertex : Reader Vertex := fun d => do
  let (label, entries) ← readPair "label" readString "attributes" readEntries d
  .ok ⟨label, .ofList entries⟩

/-- Reads an edge. -/
def toEdge : Reader Edge
  | .array [a, b, weight] => do
    .ok ⟨← readNatural a, ← readNatural b, ← readSingle "label" readString weight⟩
  | _ => .error .form

/-- Reads the list of holes in the numbering of the vertices: there are none. -/
def toHoles : Reader Unit
  | .array [] => .ok ()
  | _ => .error .form

/-- Reads the kind of the edges: they have no direction. -/
def toEdgeProperty : Reader Unit :=
  readName fun name => if name = "undirected" then some () else none

/-- What was read of a graph. -/
structure GraphSlots where
  vertices? : Option (List Vertex)
  holes? : Option Unit
  edgeProperty? : Option Unit
  edges? : Option (List Edge)

namespace GraphSlots

/-- Nothing was read yet. -/
def free : GraphSlots := ⟨none, none, none, none⟩

/-- The fields of a graph. -/
def fields : List (Field GraphSlots) :=
  [⟨"nodes", fun s d => (fill s.vertices? (readList toVertex) d).map
      fun r => { s with vertices? := r }⟩,
    ⟨"node_holes", fun s d => (fill s.holes? toHoles d).map fun r => { s with holes? := r }⟩,
    ⟨"edge_property", fun s d => (fill s.edgeProperty? toEdgeProperty d).map
      fun r => { s with edgeProperty? := r }⟩,
    ⟨"edges", fun s d => (fill s.edges? (readList toEdge) d).map fun r => { s with edges? := r }⟩]

end GraphSlots

/-- Both ends of an edge are among the vertices. -/
def endsBelow (size : Nat) (e : Edge) : Bool := e.first < size && e.second < size

/-- Reads the lists of vertices and edges.  The ends of the edges have to be
vertices; that holes are left out is all right. -/
def toGraphLists : Reader (List Vertex × List Edge) := fun d => do
  let slots ← readRecord GraphSlots.fields .free d
  let vertices ← required slots.vertices?
  required slots.edgeProperty?
  let edges ← required slots.edges?
  if edges.all (endsBelow vertices.length) then .ok (vertices, edges) else .error .form

/-- Reads a graph. -/
def toGraph : Reader Graph := fun d => do
  let (vertices, edges) ← readSingle "inner" toGraphLists d
  (Graph.ofLists vertices edges).mapError .graph

/-- What is read is the graph of the lists that are read, and the graph itself accepts them. -/
theorem toGraph_ok_iff {d : Document} {g : Graph} :
    toGraph d = .ok g
      ↔ ∃ vertices edges, readSingle "inner" toGraphLists d = .ok (vertices, edges)
          ∧ Graph.ofLists vertices edges = .ok g := by
  change (readSingle "inner" toGraphLists d).bind
    (fun lists => (Graph.ofLists lists.1 lists.2).mapError Fault.graph) = .ok g ↔ _
  simp only [bind_eq_ok_iff, mapError_eq_ok_iff, Prod.exists]

/-- Reads a graph from a text. -/
def readGraph (text : String) : Except Fault Graph := readText toGraph text

end GraphDependency.Json
