import GraphDependency.Dot.Statement

set_option autoImplicit false

/-!
# From statements to graphs

A draft is a graph whose vertices have names: the statements of a text add to
it one after the other.  Nodes stand in the order in which their names first
appear, and a graph numbers its vertices in that order.

Main statement: `names_touch`, a name is listed once, where it first appeared.
-/

namespace GraphDependency.Dot

/-- The attribute that only identifies a node; it is not kept. -/
def identityName : String := "node_id"

/-- An edge between named nodes, with the line of its statement. -/
structure DraftEdge where
  first : String
  second : String
  label : String
  line : Nat
  deriving DecidableEq, Repr, Inhabited

/-- Named nodes in the order of first appearance, and edges in order. -/
structure Draft where
  nodes : List (String × Attributes)
  edges : List DraftEdge
  deriving DecidableEq, Repr

namespace Draft

/-- The draft without nodes. -/
def empty : Draft := ⟨[], []⟩

instance : Inhabited Draft := ⟨empty⟩

/-- The node names, in order. -/
def names (d : Draft) : List String := d.nodes.map Prod.fst

/-- Merges attributes into a node; an unknown name becomes a new node. -/
def mergeInto (name : String) (attributes : List (String × String)) :
    List (String × Attributes) → List (String × Attributes)
  | [] => [(name, Attributes.empty.insertAll attributes)]
  | node :: rest =>
    if node.1 = name then (name, node.2.insertAll attributes) :: rest
    else node :: mergeInto name attributes rest

/-- Adds attributes to a node. -/
def merge (d : Draft) (name : String) (attributes : Attributes) : Draft :=
  { d with nodes := mergeInto name attributes.entries d.nodes }

/-- Makes sure that a node is there. -/
def touch (d : Draft) (name : String) : Draft := d.merge name .empty

/-- The edges between neighbors of a chain. -/
def chainEdges (label : String) (line : Nat) : List String → List DraftEdge
  | a :: b :: rest => ⟨a, b, label, line⟩ :: chainEdges label line (b :: rest)
  | _ => []

/-- Takes a statement into account. -/
def apply (d : Draft) : Statement → Draft
  | .defaults => d
  | .assignment => d
  | .node name attributes => d.merge name attributes
  | .chain names attributes line =>
    let label := (attributes.find? labelName).getD ""
    let d := names.foldl touch d
    { d with edges := d.edges ++ chainEdges label line names }

/-- The draft of a list of statements. -/
def ofStatements (statements : List Statement) : Draft := statements.foldl apply empty

/-- The vertex of a node: its label attribute becomes the label. -/
def vertexOf (attributes : Attributes) : Vertex where
  label := (attributes.find? labelName).getD ""
  attributes := (attributes.erase labelName).erase identityName

/-- Adds an edge to the graph, between the positions of its names. -/
def addEdge (d : Draft) (g : Graph) (e : DraftEdge) : Except Fault Graph :=
  match g.addEdge (d.names.idxOf e.first) (d.names.idxOf e.second) e.label with
  | .ok g => .ok g
  | .error fault => .error ⟨e.line, .edge fault⟩

/-- The graph of a draft; a refused edge is reported on the line of its
statement. -/
def toGraph (d : Draft) : Except Fault Graph :=
  d.edges.foldlM d.addEdge (Graph.empty.addVertices (d.nodes.map fun n => vertexOf n.2))

theorem map_fst_mergeInto (name : String) (attributes : List (String × String))
    (nodes : List (String × Attributes)) :
    (mergeInto name attributes nodes).map Prod.fst
      = if name ∈ nodes.map Prod.fst then nodes.map Prod.fst
        else nodes.map Prod.fst ++ [name] := by
  induction nodes with
  | nil => simp [mergeInto]
  | cons node rest ih =>
    by_cases h : node.1 = name
    · simp [mergeInto, h]
    · have h' : ¬ name = node.1 := fun hn => h hn.symm
      simp only [mergeInto, h, if_false, List.map_cons, ih, List.mem_cons, h', false_or]
      split <;> simp

/-- A name is listed once, where it first appeared. -/
theorem names_touch (d : Draft) (name : String) :
    (d.touch name).names = if name ∈ d.names then d.names else d.names ++ [name] :=
  map_fst_mergeInto name _ d.nodes

end Draft

/-- Reads a graph text whose first line has the given number. -/
def readGraph (firstLine : Nat) (text : String) : Except Fault Graph := do
  let toks ← tokens firstLine text
  let statements ← readDocument toks
  (Draft.ofStatements statements).toGraph

/-- Reads a graph text. -/
def read (text : String) : Except Fault Graph := readGraph 1 text

end GraphDependency.Dot
