import GraphDependency.Attributes
import GraphDependency.Graph.LabelIndex

set_option autoImplicit false

/-!
# Labeled graphs

Data graphs and patterns are the same kind of graph: undirected and simple, with
a label and attributes on every vertex and a label on every edge.  Vertices are
named by their position.

A graph keeps, besides its vertices and edges in the order of insertion, the
edges at every vertex: first those that have it as their first endpoint, then
those that have it as their second one, the newest edge first in both.  This is
the order in which neighbors are visited.  It also keeps an index of the vertex
labels and the degree of every vertex.

Main statements: `incidence_eq`, `labelIndex_eq` and `degrees_eq` tie the tables to
the vertices and the edges, `addEdge_ok_iff` says exactly which edges are accepted,
`mem_incident_iff` says what stands at a vertex.
-/

namespace GraphDependency

/-- The name under which the label of a vertex is read as an attribute. -/
def labelName : String := "label"

/-- A vertex: its label, compared by every embedding, and its attributes. -/
structure Vertex where
  label : String
  attributes : Attributes := .empty
  deriving DecidableEq, Repr, Inhabited

namespace Vertex

/-- Sets an attribute; setting the label attribute replaces the label. -/
def set (v : Vertex) (name value : String) : Vertex :=
  if name = labelName then { v with label := value }
  else { v with attributes := v.attributes.insert name value }

/-- The value of an attribute; the label attribute always reads the label. -/
def value? (v : Vertex) (name : String) : Option String :=
  if name = labelName then some v.label else v.attributes.find? name

end Vertex

/-- An undirected edge, with its endpoints in the order in which they were given. -/
structure Edge where
  first : Nat
  second : Nat
  label : String
  deriving DecidableEq, Repr, Inhabited

namespace Edge

/-- The edge joins `a` and `b`, in either order. -/
def Joins (e : Edge) (a b : Nat) : Prop :=
  (e.first = a ∧ e.second = b) ∨ (e.first = b ∧ e.second = a)

instance (e : Edge) (a b : Nat) : Decidable (e.Joins a b) :=
  inferInstanceAs (Decidable (_ ∨ _))

theorem Joins.symm {e : Edge} {a b : Nat} (h : e.Joins a b) : e.Joins b a :=
  Or.symm h

theorem joins_comm {e : Edge} {a b : Nat} : e.Joins a b ↔ e.Joins b a :=
  ⟨Joins.symm, Joins.symm⟩

/-- The vertex is an endpoint of the edge. -/
def touches (e : Edge) (v : Nat) : Bool := e.first = v || e.second = v

end Edge

/-! ## The edges at a vertex -/

/-- The edges at one vertex as pairs of other endpoint and label, newest first. -/
structure Incidence where
  /-- Edges that have the vertex as their first endpoint. -/
  asFirst : List (Nat × String)
  /-- Edges that have the vertex as their second endpoint. -/
  asSecond : List (Nat × String)
  deriving DecidableEq, Repr, Inhabited

namespace Incidence

/-- A vertex without edges. -/
def empty : Incidence := ⟨[], []⟩

/-- Adds an edge that has the vertex as its first endpoint. -/
def pushFirst (i : Incidence) (e : Edge) : Incidence :=
  { i with asFirst := (e.second, e.label) :: i.asFirst }

/-- Adds an edge that has the vertex as its second endpoint. -/
def pushSecond (i : Incidence) (e : Edge) : Incidence :=
  { i with asSecond := (e.first, e.label) :: i.asSecond }

/-- Takes an edge into account at vertex `v`. -/
def record (v : Nat) (i : Incidence) (e : Edge) : Incidence :=
  if e.first = v then i.pushFirst e
  else if e.second = v then i.pushSecond e
  else i

/-- The edges at vertex `v` of a list of edges. -/
def ofEdges (v : Nat) (edges : Array Edge) : Incidence :=
  edges.foldl (record v) empty

/-- All edges at the vertex, in visiting order. -/
def toList (i : Incidence) : List (Nat × String) := i.asFirst ++ i.asSecond

theorem ofEdges_push (v : Nat) (edges : Array Edge) (e : Edge) :
    ofEdges v (edges.push e) = record v (ofEdges v edges) e := by
  simp [ofEdges]

theorem ofEdges_eq_empty {v : Nat} {edges : Array Edge}
    (h : ∀ e ∈ edges, e.first ≠ v ∧ e.second ≠ v) : ofEdges v edges = empty := by
  obtain ⟨es⟩ := edges
  simp only [ofEdges, List.foldl_toArray']
  simp only [List.mem_toArray] at h
  induction es with
  | nil => rfl
  | cons e es ih =>
    have he := h e (by simp)
    simp only [List.foldl_cons, record, if_neg he.1, if_neg he.2]
    exact ih fun e' h' => h e' (by simp [h'])

end Incidence

/-- The edges at each of the vertices below `n`. -/
def incidenceTable (n : Nat) (edges : Array Edge) : Array Incidence :=
  Array.ofFn (n := n) fun v => Incidence.ofEdges v.val edges

/-- The number of edges at each of the vertices below `n`. -/
def degreeTable (n : Nat) (edges : Array Edge) : Array Nat :=
  Array.ofFn (n := n) fun v => edges.countP fun e => e.touches v.val

/-- The labels of vertices, by position. -/
def labelsOf (vertices : Array Vertex) : List String := vertices.toList.map Vertex.label

/-- An undirected simple graph with labeled, attributed vertices and labeled
edges. -/
structure Graph where
  /-- The vertices, by position. -/
  vertices : Array Vertex
  /-- The edges, oldest first. -/
  edges : Array Edge
  /-- The edges at every vertex. -/
  incidence : Array Incidence
  incidence_eq : incidence = incidenceTable vertices.size edges
  /-- Endpoints are vertices. -/
  inRange : ∀ e ∈ edges, e.first < vertices.size ∧ e.second < vertices.size
  /-- No edge joins a vertex to itself. -/
  loopless : ∀ e ∈ edges, e.first ≠ e.second
  /-- No two edges join the same vertices. -/
  simple : edges.toList.Pairwise fun e f => ¬ e.Joins f.first f.second
  /-- The vertices of every label. -/
  labelIndex : LabelIndex := .ofLabels (labelsOf vertices)
  labelIndex_eq : labelIndex = .ofLabels (labelsOf vertices) := by rfl
  /-- The number of edges at every vertex. -/
  degrees : Array Nat := degreeTable vertices.size edges
  degrees_eq : degrees = degreeTable vertices.size edges := by rfl
  deriving DecidableEq, Repr

/-- Why a graph refuses an edge. -/
inductive GraphFault where
  /-- an endpoint is not a vertex -/
  | vertexMissing (id : Nat)
  /-- the endpoints are joined already -/
  | duplicateEdge (a b : Nat)
  /-- both endpoints are the same vertex -/
  | selfLoop (id : Nat)
  deriving DecidableEq, Repr, Inhabited

/-- The wording of a refusal. -/
def GraphFault.message : GraphFault → String
  | .vertexMissing id => "vertex not found: VertexId(" ++ toString id ++ ")"
  | .duplicateEdge a b => "duplicate edge between " ++ toString a ++ " and " ++ toString b
  | .selfLoop id => "self-loop on vertex " ++ toString id

namespace Graph

/-- The graph without vertices. -/
def empty : Graph where
  vertices := #[]
  edges := #[]
  incidence := #[]
  incidence_eq := rfl
  inRange := by simp
  loopless := by simp
  simple := by simp

instance : Inhabited Graph := ⟨empty⟩

/-- The number of vertices. -/
def size (g : Graph) : Nat := g.vertices.size

/-- The number of edges. -/
def edgeCount (g : Graph) : Nat := g.edges.size

/-- The graph has no vertex. -/
def isEmpty (g : Graph) : Bool := g.size == 0

/-- The vertices, ascending. -/
def ids (g : Graph) : List Nat := List.range g.size

/-- The vertex at a position, if there is one. -/
def vertex? (g : Graph) (v : Nat) : Option Vertex := g.vertices[v]?

/-- The label of a vertex, if there is such a vertex. -/
def label? (g : Graph) (v : Nat) : Option String := (g.vertex? v).map Vertex.label

/-- The label of a vertex, empty for a vertex that does not exist. -/
def label (g : Graph) (v : Nat) : String := (g.label? v).getD ""

/-- The edges at a vertex as pairs of neighbor and edge label, in visiting order. -/
def incident (g : Graph) (v : Nat) : List (Nat × String) :=
  match g.incidence[v]? with
  | some i => i.toList
  | none => []

/-- The neighbors of a vertex, in visiting order. -/
def neighbors (g : Graph) (v : Nat) : List Nat := (g.incident v).map Prod.fst

/-- The number of edges at a vertex, if there is such a vertex. -/
def degree? (g : Graph) (v : Nat) : Option Nat := g.degrees[v]?

/-- The number of edges at a vertex, zero for a vertex that does not exist. -/
def degree (g : Graph) (v : Nat) : Nat := (g.degree? v).getD 0

/-- The label of the edge between two vertices, if they are adjacent. -/
def edgeLabel? (g : Graph) (a b : Nat) : Option String :=
  ((g.incident a).find? fun p => p.1 = b).map Prod.snd

/-- Two vertices are joined by an edge. -/
def adjacent (g : Graph) (a b : Nat) : Bool := (g.edgeLabel? a b).isSome

/-- The vertices with a label, ascending. -/
def withLabel (g : Graph) (label : String) : List Nat := g.labelIndex.find label

/-- Some vertex has the label. -/
def hasLabel (g : Graph) (label : String) : Bool := g.labelIndex.contains label

/-- The distinct elements of a list of texts, ascending by code points. -/
def sortDistinct (texts : List String) : List String :=
  texts.foldr insertDistinct []
where
  /-- Puts a text at its place in an ascending list, unless it is there. -/
  insertDistinct (text : String) : List String → List String
    | [] => [text]
    | t :: rest =>
      if text < t then text :: t :: rest
      else if text = t then t :: rest
      else t :: insertDistinct text rest

/-- The distinct vertex labels, ascending. -/
def labels (g : Graph) : List String := sortDistinct g.labelIndex.labels

/-! ## The tables and the edges -/

theorem pairwise_ids (g : Graph) : g.ids.Pairwise (· < ·) := List.pairwise_lt_range

theorem pairwise_withLabel (g : Graph) (label : String) :
    (g.withLabel label).Pairwise (· < ·) := by
  rw [withLabel, g.labelIndex_eq]
  exact LabelIndex.pairwise_find_ofLabels _ label

theorem size_incidence (g : Graph) : g.incidence.size = g.size := by
  rw [g.incidence_eq, incidenceTable, Array.size_ofFn, size]

/-- At every vertex stand the edges of the graph that have it as an endpoint. -/
theorem incident_eq (g : Graph) {v : Nat} (h : v < g.size) :
    g.incident v = (Incidence.ofEdges v g.edges).toList := by
  have h' : v < g.vertices.size := h
  simp [incident, g.incidence_eq, incidenceTable, h']

theorem incident_eq_nil (g : Graph) {v : Nat} (h : g.size ≤ v) : g.incident v = [] := by
  have h' : g.incidence.size ≤ v := by rw [size_incidence]; exact h
  simp [incident, Array.getElem?_eq_none h']

/-- At a vertex stand as many entries as edges that have it as an endpoint. -/
theorem length_toList_ofEdges (v : Nat) (edges : Array Edge) :
    (Incidence.ofEdges v edges).toList.length = edges.countP fun e => e.touches v := by
  obtain ⟨es⟩ := edges
  rw [← List.reverse_reverse es]
  induction es.reverse with
  | nil => rfl
  | cons e rs ih =>
    have hpush : Array.mk (e :: rs).reverse = (Array.mk rs.reverse).push e := by simp
    rw [hpush, Incidence.ofEdges_push, Array.countP_push, ← ih]
    unfold Incidence.record Edge.touches
    by_cases h1 : e.first = v
    · simp [h1, Incidence.pushFirst, Incidence.toList]
    · by_cases h2 : e.second = v
      · simp [h1, h2, Incidence.pushSecond, Incidence.toList]
        omega
      · simp [h1, h2]

theorem degree?_eq (g : Graph) {v : Nat} (h : v < g.size) :
    g.degree? v = some (g.edges.countP fun e => e.touches v) := by
  have h' : v < g.vertices.size := h
  simp [degree?, g.degrees_eq, degreeTable, h']

theorem degree?_eq_none (g : Graph) {v : Nat} (h : g.size ≤ v) : g.degree? v = none := by
  rw [degree?, g.degrees_eq, degreeTable, Array.getElem?_eq_none]
  rw [Array.size_ofFn]
  exact h

/-- The degree of a vertex is the number of entries at it. -/
theorem degree_eq_length_incident (g : Graph) (v : Nat) :
    g.degree v = (g.incident v).length := by
  rw [degree]
  by_cases h : v < g.size
  · rw [degree?_eq g h, incident_eq g h, length_toList_ofEdges, Option.getD_some]
  · rw [degree?_eq_none g (Nat.le_of_not_lt h), incident_eq_nil g (Nat.le_of_not_lt h)]
    rfl

theorem mem_toList_ofEdges {v w : Nat} {label : String} (edges : Array Edge)
    (hl : ∀ e ∈ edges, e.first ≠ e.second) :
    (w, label) ∈ (Incidence.ofEdges v edges).toList
      ↔ ∃ e ∈ edges, e.Joins v w ∧ e.label = label := by
  obtain ⟨es⟩ := edges
  simp only [List.mem_toArray] at hl ⊢
  rw [← List.reverse_reverse es] at hl ⊢
  generalize es.reverse = rs at hl ⊢
  induction rs with
  | nil => simp [Incidence.ofEdges, Incidence.empty, Incidence.toList]
  | cons e rs ih =>
    have hpush : Array.mk (e :: rs).reverse = (Array.mk rs.reverse).push e := by simp
    have he := hl e (by simp)
    have ih := ih fun e' h' => hl e' (by simp at h' ⊢; exact Or.inl h')
    rw [hpush, Incidence.ofEdges_push]
    have hstep : (w, label) ∈ (Incidence.record v
          (Incidence.ofEdges v (Array.mk rs.reverse)) e).toList
        ↔ (e.Joins v w ∧ e.label = label)
          ∨ (w, label) ∈ (Incidence.ofEdges v (Array.mk rs.reverse)).toList := by
      unfold Incidence.record Edge.Joins
      by_cases h1 : e.first = v
      · have h2 : ¬ e.second = v := fun h => he (h1.trans h.symm)
        simp [h1, h2, Incidence.pushFirst, Incidence.toList, eq_comm]
      · by_cases h2 : e.second = v
        · simp [h1, h2, Incidence.pushSecond, Incidence.toList, eq_comm]
          grind
        · simp [h1, h2]
    rw [hstep, ih]
    simp only [List.reverse_cons, List.mem_append, List.mem_singleton]
    constructor
    · rintro (h | ⟨e', h', hj⟩)
      · exact ⟨e, Or.inr rfl, h⟩
      · exact ⟨e', Or.inl h', hj⟩
    · rintro ⟨e', h' | rfl, hj⟩
      · exact Or.inr ⟨e', h', hj⟩
      · exact Or.inl hj

/-- What stands at a vertex: every neighbor with the label of the joining edge. -/
theorem mem_incident_iff (g : Graph) {v w : Nat} {label : String} :
    (w, label) ∈ g.incident v ↔ ∃ e ∈ g.edges, e.Joins v w ∧ e.label = label := by
  by_cases h : v < g.size
  · rw [incident_eq g h, mem_toList_ofEdges g.edges g.loopless]
  · rw [incident_eq_nil g (Nat.le_of_not_lt h)]
    simp only [List.not_mem_nil, false_iff]
    rintro ⟨e, he, hj, -⟩
    have := g.inRange e he
    unfold Edge.Joins at hj
    unfold size at h
    omega

theorem edgeLabel?_eq_none_iff (g : Graph) {a b : Nat} :
    g.edgeLabel? a b = none ↔ ∀ e ∈ g.edges, ¬ e.Joins a b := by
  simp only [edgeLabel?, Option.map_eq_none_iff, List.find?_eq_none, decide_eq_true_eq]
  constructor
  · intro h e he hj
    exact h (b, e.label) ((mem_incident_iff g).mpr ⟨e, he, hj, rfl⟩) rfl
  · rintro h ⟨w, label⟩ hm rfl
    obtain ⟨e, he, hj, -⟩ := (mem_incident_iff g).mp hm
    exact h e he hj

theorem adjacent_iff (g : Graph) {a b : Nat} :
    g.adjacent a b = true ↔ ∃ e ∈ g.edges, e.Joins a b := by
  rw [adjacent, Option.isSome_iff_ne_none, ne_eq, edgeLabel?_eq_none_iff]
  simp

/-- What the index holds are vertices. -/
theorem lt_size_of_mem_withLabel (g : Graph) {v : Nat} {label : String}
    (h : v ∈ g.withLabel label) : v < g.size := by
  rw [withLabel, g.labelIndex_eq, LabelIndex.find_ofLabels] at h
  obtain ⟨e, he, rfl⟩ := List.mem_map.mp h
  have hlt := List.snd_lt_of_mem_zipIdx (List.mem_filter.mp he).1
  rwa [labelsOf, List.length_map, Array.length_toList] at hlt

/-! ## Growing a graph -/

/-- Appends a vertex. -/
def addVertex (g : Graph) (vertex : Vertex) : Graph where
  vertices := g.vertices.push vertex
  edges := g.edges
  incidence := g.incidence.push .empty
  incidence_eq := by
    rw [g.incidence_eq]
    unfold incidenceTable
    rw [Array.size_push, Array.ofFn_succ]
    congr 1
    refine (Incidence.ofEdges_eq_empty fun e he => ?_).symm
    have := g.inRange e he
    simp only
    omega
  inRange e he := by
    have := g.inRange e he
    rw [Array.size_push]
    omega
  loopless := g.loopless
  simple := g.simple
  labelIndex := g.labelIndex.add vertex.label g.size
  labelIndex_eq := by
    have hlength : (labelsOf g.vertices).length = g.size := by simp [labelsOf, size]
    rw [g.labelIndex_eq, ← hlength, ← LabelIndex.ofLabels_append_singleton]
    simp [labelsOf]
  degrees := g.degrees.push 0
  degrees_eq := by
    rw [g.degrees_eq]
    unfold degreeTable
    rw [Array.size_push, Array.ofFn_succ]
    congr 1
    refine (Array.countP_eq_zero.mpr fun e he => ?_).symm
    have := g.inRange e he
    simp only [Edge.touches, Bool.or_eq_true, decide_eq_true_eq]
    omega

/-- The table after an edge was added at both of its endpoints. -/
def pushIncidence (table : Array Incidence) (e : Edge) : Array Incidence :=
  (table.modify e.first (·.pushFirst e)).modify e.second (·.pushSecond e)

theorem pushIncidence_table {n : Nat} {edges : Array Edge} {e : Edge}
    (hne : e.first ≠ e.second) :
    pushIncidence (incidenceTable n edges) e = incidenceTable n (edges.push e) := by
  apply Array.ext
  · simp [pushIncidence, incidenceTable]
  · intro i h1 h2
    simp only [pushIncidence, incidenceTable, Array.getElem_modify, Array.getElem_ofFn,
      Incidence.ofEdges_push, Incidence.record]
    by_cases h : e.first = i
    · have h' : ¬ e.second = i := fun h' => hne (h.trans h'.symm)
      simp [h, h']
    · simp [h]

/-- The degrees after an edge was added: both of its endpoints have one edge more. -/
def bumpDegrees (degrees : Array Nat) (e : Edge) : Array Nat :=
  (degrees.modify e.first (· + 1)).modify e.second (· + 1)

theorem bumpDegrees_table {n : Nat} {edges : Array Edge} {e : Edge} (hne : e.first ≠ e.second) :
    bumpDegrees (degreeTable n edges) e = degreeTable n (edges.push e) := by
  apply Array.ext
  · simp [bumpDegrees, degreeTable]
  · intro i h1 h2
    simp only [bumpDegrees, degreeTable, Array.getElem_modify, Array.getElem_ofFn,
      Array.countP_push, Edge.touches]
    by_cases h : e.first = i
    · have h' : ¬ e.second = i := fun h' => hne (h.trans h'.symm)
      simp [h, h']
    · by_cases h' : e.second = i <;> simp [h, h']

/-- The graph with one more edge, between two vertices that are not adjacent yet. -/
def pushEdge (g : Graph) (a b : Nat) (label : String) (ha : a < g.size) (hb : b < g.size)
    (hab : a ≠ b) (hadj : ¬ g.adjacent a b = true) : Graph where
  vertices := g.vertices
  edges := g.edges.push ⟨a, b, label⟩
  incidence := pushIncidence g.incidence ⟨a, b, label⟩
  incidence_eq := by
    rw [g.incidence_eq]
    exact pushIncidence_table hab
  inRange := by
    intro e he
    rcases Array.mem_push.mp he with h | rfl
    · exact g.inRange e h
    · exact ⟨ha, hb⟩
  loopless := by
    intro e he
    rcases Array.mem_push.mp he with h | rfl
    · exact g.loopless e h
    · exact hab
  simple := by
    rw [Array.toList_push, List.pairwise_append]
    refine ⟨g.simple, by simp, ?_⟩
    intro e he f hf hj
    rw [List.mem_singleton] at hf
    subst hf
    exact hadj ((adjacent_iff g).mpr ⟨e, Array.mem_toList_iff.mp he, hj⟩)
  labelIndex := g.labelIndex
  labelIndex_eq := g.labelIndex_eq
  degrees := bumpDegrees g.degrees ⟨a, b, label⟩
  degrees_eq := by
    rw [g.degrees_eq]
    exact bumpDegrees_table hab

/-- Asks a graph to join two existing, distinct and not yet adjacent vertices: the graph
as the call leaves it, and the answer.  The first endpoint is looked up before the second,
a loop is reported before a repeated edge. -/
def join (g : Graph) (a b : Nat) (label : String) : Graph × Except GraphFault Unit :=
  if ha : a < g.size then
    if hb : b < g.size then
      if hab : a = b then (g, .error (.selfLoop a))
      else if hadj : g.adjacent a b = true then (g, .error (.duplicateEdge a b))
      else (g.pushEdge a b label ha hb hab hadj, .ok ())
    else (g, .error (.vertexMissing b))
  else (g, .error (.vertexMissing a))

/-- A refused call leaves the graph as it was. -/
theorem join_fst_of_error {g : Graph} {a b : Nat} {label : String} {fault : GraphFault}
    (h : (g.join a b label).2 = .error fault) : (g.join a b label).1 = g := by
  unfold join at h ⊢
  split
  · split
    · split
      · rfl
      · split
        · rfl
        · simp_all
    · rfl
  · rfl

/-- The graph after it was asked to join two vertices, if it did. -/
def addEdge (g : Graph) (a b : Nat) (label : String) : Except GraphFault Graph :=
  match g.join a b label with
  | (g', .ok ()) => .ok g'
  | (_, .error fault) => .error fault

theorem addEdge_eq_ok_iff_join {g g' : Graph} {a b : Nat} {label : String} :
    g.addEdge a b label = .ok g' ↔ g.join a b label = (g', .ok ()) := by
  rw [addEdge]
  split <;> simp_all

theorem addEdge_eq_error_iff_join {g : Graph} {a b : Nat} {label : String}
    {fault : GraphFault} :
    g.addEdge a b label = .error fault ↔ (g.join a b label).2 = .error fault := by
  rw [addEdge]
  split <;> simp_all

/-- Exactly which edges are accepted. -/
theorem addEdge_ok_iff (g : Graph) (a b : Nat) (label : String) :
    (∃ g', g.addEdge a b label = .ok g')
      ↔ a < g.size ∧ b < g.size ∧ a ≠ b ∧ g.adjacent a b = false := by
  unfold addEdge join
  by_cases ha : a < g.size
  · by_cases hb : b < g.size
    · by_cases hab : a = b
      · simp [hb, hab]
      · by_cases hadj : g.adjacent a b = true <;> simp [ha, hb, hab, hadj]
    · simp [ha, hb]
  · simp [ha]

/-- Appends vertices in order. -/
def addVertices (g : Graph) (vs : List Vertex) : Graph := vs.foldl addVertex g

/-- Adds edges in order, up to the first one that is refused. -/
def addEdges (g : Graph) (es : List Edge) : Except GraphFault Graph :=
  es.foldlM (fun g e => g.addEdge e.first e.second e.label) g

/-- The graph with these vertices and edges, added in order. -/
def ofLists (vs : List Vertex) (es : List Edge) : Except GraphFault Graph :=
  (empty.addVertices vs).addEdges es

end Graph

end GraphDependency
