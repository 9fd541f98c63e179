import Mathlib.Algebra.GroupWithZero.Nat
import GraphDependency.Json.Graph
import GraphDependency.Except
import GraphDependency.Proofs.Graph.Growth

set_option autoImplicit false

/-!
# What a graph keeps

A graph grows from the empty one by calls that add a vertex or an edge, and calls for edges
may be refused.  Whatever the calls were, the index of labels, the degrees and the edges at
every vertex say the same as the vertices and edges themselves.  The same is true of a graph
that was read from lists of vertices and edges.

Main statements: `sum_degrees`, `consistent`, `afterAll_of_refused`, `addEdges_ok_iff` and,
from them, `history_consistent`.
-/

namespace GraphDependency.Graph

/-- The tables of a graph say what its vertices and edges say. -/
structure Consistent (g : Graph) : Prop where
  withLabel_ascending : ∀ label, (g.withLabel label).Pairwise (· < ·)
  mem_withLabel : ∀ label v,
    v ∈ g.withLabel label ↔ ∃ x, g.vertices[v]? = some x ∧ x.label = label
  hasLabel : ∀ label, g.hasLabel label = true ↔ g.withLabel label ≠ []
  degree_eq_edges : ∀ v < g.size,
    g.degree? v = some (g.edges.toList.filter fun e => e.first = v ∨ e.second = v).length
  degree_eq_neighbors : ∀ v < g.size, g.degree? v = some (g.neighbors v).length
  neighbors_nodup : ∀ v, (g.neighbors v).Nodup
  mem_neighbors : ∀ v w, w ∈ g.neighbors v ↔ g.adjacent v w = true
  endpoints : ∀ e ∈ g.edges, e.first < g.size ∧ e.second < g.size ∧ e.first ≠ e.second
  once : g.edges.toList.Pairwise fun e f => ¬ e.Joins f.first f.second
  adjacent_self : ∀ v, g.adjacent v v = false
  adjacent_symm : ∀ a b, g.adjacent a b = g.adjacent b a
  edgeLabel_symm : ∀ a b, g.edgeLabel? a b = g.edgeLabel? b a
  adjacent_iff : ∀ a b, g.adjacent a b = true ↔ ∃ e ∈ g.edges, e.Joins a b
  edgeLabel_iff : ∀ a b label,
    g.edgeLabel? a b = some label ↔ ∃ e ∈ g.edges, e.Joins a b ∧ e.label = label
  incident_iff : ∀ a b label, (b, label) ∈ g.incident a ↔ g.edgeLabel? a b = some label
  sum_degrees : (g.ids.map g.degree).sum = 2 * g.edgeCount

variable {g : Graph} {a b n : Nat} {label : String}

/-! ## The sum of the degrees -/

/-- An edge has two endpoints among the vertices. -/
theorem countP_touches {e : Edge} (hfirst : e.first < n) (hsecond : e.second < n)
    (hne : e.first ≠ e.second) : (List.range n).countP e.touches = 2 := by
  have hsplit : ∀ vs : List Nat,
      vs.countP e.touches = vs.count e.first + vs.count e.second := by
    intro vs
    induction vs with
    | nil => rfl
    | cons v vs ih =>
      rw [List.countP_cons, List.count_cons, List.count_cons, ih]
      by_cases h : e.first = v
      · have h' : ¬ e.second = v := fun h' => hne (h.trans h'.symm)
        simp [Edge.touches, h, Ne.symm h']
        omega
      · by_cases h' : e.second = v
        · simp [Edge.touches, h', Ne.symm h]
          omega
        · simp [Edge.touches, h, h', Ne.symm h, Ne.symm h']
  rw [hsplit, List.count_eq_one_of_mem List.nodup_range (List.mem_range.mpr hfirst),
    List.count_eq_one_of_mem List.nodup_range (List.mem_range.mpr hsecond)]

theorem sum_countP_cons (e : Edge) (es : List Edge) (vs : List Nat) :
    (vs.map fun v => (e :: es).countP fun e => e.touches v).sum
      = vs.countP e.touches + (vs.map fun v => es.countP fun e => e.touches v).sum := by
  induction vs with
  | nil => rfl
  | cons v vs ih =>
    rw [List.map_cons, List.sum_cons, ih, List.countP_cons, List.countP_cons, List.map_cons,
      List.sum_cons]
    omega

/-- Every edge counts at both of its endpoints. -/
theorem sum_countP_touches {es : List Edge}
    (hes : ∀ e ∈ es, e.first < n ∧ e.second < n ∧ e.first ≠ e.second) :
    ((List.range n).map fun v => es.countP fun e => e.touches v).sum = 2 * es.length := by
  induction es with
  | nil => simp
  | cons e es ih =>
    obtain ⟨⟨hfirst, hsecond, hne⟩, hes⟩ := List.forall_mem_cons.mp hes
    rw [sum_countP_cons, countP_touches hfirst hsecond hne, ih hes, List.length_cons]
    omega

theorem endpoints_of_mem {e : Edge} (he : e ∈ g.edges) :
    e.first < g.size ∧ e.second < g.size ∧ e.first ≠ e.second :=
  ⟨(g.inRange e he).1, (g.inRange e he).2, g.loopless e he⟩

/-- The degrees add up to twice the number of edges. -/
theorem sum_degrees (g : Graph) : (g.ids.map g.degree).sum = 2 * g.edgeCount := by
  have hdegree : ∀ v ∈ g.ids, g.degree v = g.edges.toList.countP fun e => e.touches v := by
    intro v hv
    rw [degree, degree?_eq g ((mem_ids g).mp hv), Option.getD_some, Array.countP_toList]
  rw [List.map_congr_left hdegree, ids, sum_countP_touches, Array.length_toList, edgeCount]
  intro e he
  exact endpoints_of_mem (Array.mem_toList_iff.mp he)

/-! ## Every graph is consistent -/

theorem hasLabel_iff_withLabel : g.hasLabel label = true ↔ g.withLabel label ≠ [] := by
  rw [hasLabel_iff, ne_eq, List.eq_nil_iff_forall_not_mem]
  simp only [mem_withLabel_iff, not_forall, not_not]

theorem mem_neighbors_iff_adjacent {v w : Nat} :
    w ∈ g.neighbors v ↔ g.adjacent v w = true := by
  rw [mem_neighbors_iff, adjacent_iff]

theorem adjacent_comm (a b : Nat) : g.adjacent a b = g.adjacent b a := by
  rw [adjacent, adjacent, edgeLabel?_comm]

theorem adjacent_self (v : Nat) : g.adjacent v v = false := by
  rw [Bool.eq_false_iff, ne_eq, ← mem_neighbors_iff_adjacent]
  exact fun h => g.ne_of_mem_neighbors h rfl

theorem degree?_eq_length_neighbors {v : Nat} (h : v < g.size) :
    g.degree? v = some (g.neighbors v).length := by
  rw [← degree_eq_length_neighbors, degree, degree?_eq g h, Option.getD_some]

theorem degree?_eq_length_filter {v : Nat} (h : v < g.size) :
    g.degree? v = some (g.edges.toList.filter fun e => e.first = v ∨ e.second = v).length := by
  rw [degree?_eq g h, ← Array.countP_toList, List.countP_eq_length_filter]
  simp only [Edge.touches, Bool.decide_or]

/-- The tables are kept as the graph grows, so they are right in every graph. -/
theorem consistent (g : Graph) : g.Consistent where
  withLabel_ascending := g.pairwise_withLabel
  mem_withLabel label v := by
    rw [mem_withLabel_iff_label?, label?, Option.map_eq_some_iff]
    rfl
  hasLabel _ := hasLabel_iff_withLabel
  degree_eq_edges _ := degree?_eq_length_filter
  degree_eq_neighbors _ := degree?_eq_length_neighbors
  neighbors_nodup := g.nodup_neighbors
  mem_neighbors _ _ := mem_neighbors_iff_adjacent
  endpoints _ := endpoints_of_mem
  once := g.simple
  adjacent_self := adjacent_self
  adjacent_symm := adjacent_comm
  edgeLabel_symm := g.edgeLabel?_comm
  adjacent_iff _ _ := g.adjacent_iff
  edgeLabel_iff _ _ _ := g.edgeLabel?_eq_some_iff
  incident_iff _ _ _ := g.mem_incident_iff_edgeLabel?
  sum_degrees := g.sum_degrees

/-! ## Calls -/

/-- A call that asks a graph to grow. -/
inductive Call where
  | vertex (vertex : Vertex)
  | edge (edge : Edge)

/-- The graph as a call leaves it, refused or not. -/
def after (g : Graph) : Call → Graph
  | .vertex vertex => g.addVertex vertex
  | .edge e => (g.join e.first e.second e.label).1

/-- The graph after several calls. -/
def afterAll (g : Graph) (calls : List Call) : Graph := calls.foldl after g

/-- The vertex that a call adds. -/
def Call.vertex? : Call → Option Vertex
  | .vertex v => some v
  | .edge _ => none

theorem after_of_ok {e : Edge} {g' : Graph}
    (h : g.addEdge e.first e.second e.label = .ok g') : g.after (.edge e) = g' := by
  rw [after, addEdge_eq_ok_iff_join.mp h]

/-- A call that is refused leaves the graph as it was. -/
theorem after_of_error {e : Edge} {fault : GraphFault}
    (h : g.addEdge e.first e.second e.label = .error fault) : g.after (.edge e) = g :=
  join_fst_of_error (addEdge_eq_error_iff_join.mp h)

theorem afterAll_append (g : Graph) (calls calls' : List Call) :
    g.afterAll (calls ++ calls') = (g.afterAll calls).afterAll calls' :=
  List.foldl_append

/-- A refused call might as well not have been made. -/
theorem afterAll_of_refused {before rest : List Call} {e : Edge} {fault : GraphFault}
    (h : (g.afterAll before).addEdge e.first e.second e.label = .error fault) :
    g.afterAll (before ++ .edge e :: rest) = g.afterAll (before ++ rest) := by
  rw [afterAll_append, afterAll_append]
  exact congrArg (afterAll · rest) (after_of_error h)

theorem vertices_after (g : Graph) (call : Call) :
    (g.after call).vertices = g.vertices ++ call.vertex?.toList.toArray := by
  cases call with
  | vertex vertex => simp [after, addVertex, Call.vertex?]
  | edge e =>
    cases h : g.addEdge e.first e.second e.label with
    | error fault => simp [after_of_error h, Call.vertex?]
    | ok g' => simp [after_of_ok h, (addEdge_eq_ok_iff.mp h).2.1, Call.vertex?]

/-- Every vertex that is added is kept, in order. -/
theorem vertices_afterAll (g : Graph) (calls : List Call) :
    (g.afterAll calls).vertices.toList = g.vertices.toList ++ calls.filterMap Call.vertex? := by
  induction calls generalizing g with
  | nil => simp [afterAll]
  | cons call calls ih =>
    change ((g.after call).afterAll calls).vertices.toList = _
    rw [ih, vertices_after, List.filterMap_cons]
    cases call.vertex? <;> simp

theorem afterAll_map_vertex (g : Graph) (vs : List Vertex) :
    g.afterAll (vs.map .vertex) = g.addVertices vs := by
  rw [afterAll, List.foldl_map]
  rfl

/-! ## Lists of edges -/

/-- Every edge of a list is accepted after the edges before it. -/
def AcceptsAll (g : Graph) (es : List Edge) : Prop :=
  ∀ before e rest, es = before ++ e :: rest →
    ∃ g', (g.afterAll (before.map .edge)).addEdge e.first e.second e.label = .ok g'

theorem addEdges_cons (g : Graph) (e : Edge) (es : List Edge) :
    g.addEdges (e :: es)
      = (g.addEdge e.first e.second e.label).bind fun g' => g'.addEdges es :=
  rfl

/-- Adding edges one after the other has the result of the calls. -/
theorem eq_afterAll_of_addEdges {g' : Graph} {es : List Edge} (h : g.addEdges es = .ok g') :
    g' = g.afterAll (es.map .edge) := by
  induction es generalizing g with
  | nil =>
    cases h
    rfl
  | cons e es ih =>
    rw [addEdges_cons] at h
    obtain ⟨g₁, hadd, hrest⟩ := bind_eq_ok_iff.mp h
    rw [ih hrest]
    change _ = (g.after (.edge e)).afterAll (es.map .edge)
    rw [after_of_ok hadd]

/-- All edges of a list are added if each is accepted in its turn. -/
theorem addEdges_ok_iff {es : List Edge} : (∃ g', g.addEdges es = .ok g') ↔ g.AcceptsAll es := by
  induction es generalizing g with
  | nil => exact iff_of_true ⟨g, rfl⟩ fun before _ _ h => by simp at h
  | cons e es ih =>
    rw [addEdges_cons]
    cases hadd : g.addEdge e.first e.second e.label with
    | error fault =>
      refine iff_of_false nofun fun h => ?_
      obtain ⟨g', h'⟩ := h [] e es rfl
      exact absurd (hadd.symm.trans h') nofun
    | ok g₁ =>
      have hafter : ∀ before : List Edge,
          g.afterAll ((e :: before).map .edge) = g₁.afterAll (before.map .edge) :=
        fun before => congrArg (afterAll · (before.map .edge)) (after_of_ok hadd)
      change (∃ g', g₁.addEdges es = .ok g') ↔ _
      rw [ih]
      constructor
      · intro h before f rest heq
        cases before with
        | nil =>
          obtain ⟨rfl, -⟩ := List.cons.inj heq
          exact ⟨g₁, hadd⟩
        | cons e' before =>
          obtain ⟨rfl, htail⟩ := List.cons.inj heq
          rw [hafter]
          exact h before f rest htail
      · intro h before f rest heq
        rw [← hafter]
        exact h (e :: before) f rest (congrArg (e :: ·) heq)

theorem ofLists_ok_iff {vs : List Vertex} {es : List Edge} :
    (∃ g, ofLists vs es = .ok g) ↔ (empty.afterAll (vs.map .vertex)).AcceptsAll es := by
  rw [ofLists, addEdges_ok_iff, afterAll_map_vertex]

theorem edges_of_addEdges {g' : Graph} {es : List Edge} (h : g.addEdges es = .ok g') :
    g'.vertices = g.vertices ∧ g'.edges.toList = g.edges.toList ++ es := by
  induction es generalizing g with
  | nil =>
    cases h
    simp
  | cons e es ih =>
    rw [addEdges_cons] at h
    obtain ⟨g₁, hadd, hrest⟩ := bind_eq_ok_iff.mp h
    obtain ⟨hvertices, hedges⟩ := ih hrest
    obtain ⟨-, hvertices₁, hedges₁⟩ := addEdge_eq_ok_iff.mp hadd
    refine ⟨hvertices.trans hvertices₁, ?_⟩
    rw [hedges, hedges₁, Array.toList_push, List.append_assoc, List.singleton_append]

/-- A graph of lists has the vertices and edges of the lists, and it is the graph after the
calls that add them. -/
theorem of_ofLists {vs : List Vertex} {es : List Edge} (h : ofLists vs es = .ok g) :
    g.vertices.toList = vs ∧ g.edges.toList = es
      ∧ g = empty.afterAll (vs.map .vertex ++ es.map .edge) := by
  obtain ⟨hvertices, hedges⟩ := edges_of_addEdges h
  refine ⟨?_, ?_, ?_⟩
  · rw [hvertices, vertices_addVertices]
    simp [empty]
  · rw [hedges, edges_addVertices]
    rfl
  · rw [afterAll_append, afterAll_map_vertex]
    exact eq_afterAll_of_addEdges h

/-! ## Documents -/

/-- Members of other names are passed over: tables in a document do not count. -/
theorem toGraph_filter {members : List Json.Member}
    (h : ∀ m ∈ members, m.1 ≠ some "inner" → m.1.isSome = true ∧ m.2.intact = true) :
    Json.toGraph (.object members)
      = Json.toGraph (.object (members.filter fun m => m.1 = some "inner")) := by
  let field : Json.Field (Option (List Vertex × List Edge)) :=
    ⟨"inner", fun s d => Json.fill s Json.toGraphLists d⟩
  have hknown : Json.known [field] = fun m => decide (m.1 = some "inner") := by
    funext m
    simp [Json.known, field]
  have hmembers : Json.readMembers [field] none (members.filter (Json.known [field]))
      = Json.readMembers [field] none members :=
    Json.readMembers_filter fun m hm hunknown => h m hm (by simpa [hknown] using hunknown)
  have hread : Json.readSingle "inner" Json.toGraphLists (.object members)
      = Json.readSingle "inner" Json.toGraphLists
        (.object (members.filter fun m => m.1 = some "inner")) := by
    change (Json.readMembers [field] none members).bind Json.required
      = (Json.readMembers [field] none _).bind Json.required
    rw [← hmembers, hknown]
  rw [Json.toGraph, Json.toGraph, hread]

/-! ## Histories -/

/-- After any calls the tables of a graph say what its vertices and edges say, and the vertices
are those that were added.  An edge is accepted if it joins two vertices that are not joined
yet, and it then goes behind the others; a call that is refused changes nothing, then or later.
A graph can be read from lists if every edge is accepted in its turn, and it then has these
vertices and edges and is as consistent as any other.  Only the lists of a document count, not
the tables that may stand beside them. -/
theorem history_consistent :
    (∀ calls, (empty.afterAll calls).Consistent
        ∧ (empty.afterAll calls).vertices.toList = calls.filterMap Call.vertex?)
      ∧ (∀ (g g' : Graph) (e : Edge), g.addEdge e.first e.second e.label = .ok g'
          ↔ (e.first < g.size ∧ e.second < g.size ∧ e.first ≠ e.second
              ∧ g.adjacent e.first e.second = false)
            ∧ g'.vertices = g.vertices ∧ g'.edges = g.edges.push e)
      ∧ (∀ calls e fault,
          (empty.afterAll calls).addEdge e.first e.second e.label = .error fault →
            ∀ rest, empty.afterAll (calls ++ .edge e :: rest) = empty.afterAll (calls ++ rest))
      ∧ (∀ vs es,
          ((∃ g, ofLists vs es = .ok g) ↔ (empty.afterAll (vs.map .vertex)).AcceptsAll es)
          ∧ ∀ g, ofLists vs es = .ok g →
            g.Consistent ∧ g.vertices.toList = vs ∧ g.edges.toList = es
              ∧ g = empty.afterAll (vs.map .vertex ++ es.map .edge))
      ∧ (∀ document g, Json.toGraph document = .ok g
          ↔ ∃ vs es, Json.readSingle "inner" Json.toGraphLists document = .ok (vs, es)
              ∧ ofLists vs es = .ok g)
      ∧ ∀ members : List Json.Member,
          (∀ m ∈ members, m.1 ≠ some "inner" → m.1.isSome = true ∧ m.2.intact = true) →
            Json.toGraph (.object members)
              = Json.toGraph (.object (members.filter fun m => m.1 = some "inner")) := by
  refine ⟨?calls, fun g g' e => addEdge_eq_ok_iff, fun calls e fault h rest =>
    afterAll_of_refused h, ?lists, fun document g => Json.toGraph_ok_iff,
    fun members => toGraph_filter⟩
  case calls =>
    intro calls
    refine ⟨consistent _, ?_⟩
    rw [vertices_afterAll]
    rfl
  case lists =>
    intro vs es
    exact ⟨ofLists_ok_iff, fun g h => ⟨g.consistent, of_ofLists h⟩⟩

end GraphDependency.Graph
