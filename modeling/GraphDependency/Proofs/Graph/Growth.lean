import GraphDependency.Graph.Reach
import GraphDependency.Proofs.Graph.Adjacency

set_option autoImplicit false

/-!
# Growing graphs

A graph is given by its vertices and edges: adding all vertices and then all edges of
a graph in order gives the graph back.  Neighbors depend on the edges only.

Main statements: `eq_of_vertices_edges`, `addEdge_eq_ok_iff`, `addEdges_eq_ok_iff`,
`ofLists_toList` and `isConnected_congr`.
-/

namespace GraphDependency.Graph

variable {g g' : Graph} {a b : Nat} {label : String}

/-- The tables follow from the vertices and the edges. -/
theorem eq_of_vertices_edges (hv : g.vertices = g'.vertices) (he : g.edges = g'.edges) :
    g = g' := by
  obtain ⟨vertices, edges, incidence, hincidence, _, _, _, index, hindex, degrees, hdegrees⟩ := g
  obtain ⟨vertices', edges', incidence', hincidence', _, _, _, index', hindex', degrees',
    hdegrees'⟩ := g'
  simp only at hv he
  subst hv he hincidence hincidence' hindex hindex' hdegrees hdegrees'
  rfl

/-! ## Graphs with the same edges -/

theorem neighbors_congr (hsize : g.size = g'.size) (he : g.edges = g'.edges) :
    g.neighbors = g'.neighbors := by
  have hincidence : g.incidence = g'.incidence := by
    rw [g.incidence_eq, g'.incidence_eq, he]
    exact congrArg (incidenceTable · g'.edges) hsize
  funext v
  rw [neighbors, neighbors, incident, incident, hincidence]

theorem spread_congr (h : g.neighbors = g'.neighbors) (depth : Nat) (frontier unseen : List Nat) :
    g.spread depth frontier unseen = g'.spread depth frontier unseen := by
  have hstep : ∀ frontier unseen, g.step frontier unseen = g'.step frontier unseen :=
    fun frontier unseen => by rw [step, step, h]
  induction depth generalizing frontier unseen with
  | zero => rfl
  | succ depth ih =>
    rw [spread, spread]
    simp only [hstep, ih]

/-- Labels and attributes do not matter to connectivity. -/
theorem isConnected_congr (hsize : g.size = g'.size) (he : g.edges = g'.edges) :
    g.isConnected = g'.isConnected := by
  have hspread := spread_congr (neighbors_congr hsize he)
  simp only [isConnected, isEmpty, reachable, layers, layersWithin, ids, hspread, hsize]

/-! ## Adding vertices and edges -/

@[simp] theorem vertices_addVertices (g : Graph) (vs : List Vertex) :
    (g.addVertices vs).vertices = g.vertices ++ vs.toArray := by
  induction vs generalizing g with
  | nil => simp [addVertices]
  | cons v vs ih =>
    change ((g.addVertex v).addVertices vs).vertices = _
    rw [ih]
    simp [addVertex]

@[simp] theorem edges_addVertices (g : Graph) (vs : List Vertex) :
    (g.addVertices vs).edges = g.edges := by
  induction vs generalizing g with
  | nil => rfl
  | cons v vs ih => exact ih (g.addVertex v)

/-- An edge that is accepted goes behind the edges, and nothing else changes. -/
theorem addEdge_eq_ok_iff :
    g.addEdge a b label = .ok g'
      ↔ (a < g.size ∧ b < g.size ∧ a ≠ b ∧ g.adjacent a b = false)
        ∧ g'.vertices = g.vertices ∧ g'.edges = g.edges.push ⟨a, b, label⟩ := by
  have hfields : ∀ {h : Graph}, g.addEdge a b label = .ok h →
      h.vertices = g.vertices ∧ h.edges = g.edges.push ⟨a, b, label⟩ := by
    intro h hadd
    rw [addEdge_eq_ok_iff_join, join] at hadd
    split at hadd <;> [skip; cases hadd]
    split at hadd <;> [skip; cases hadd]
    split at hadd <;> [cases hadd; skip]
    split at hadd <;> [cases hadd; skip]
    cases hadd
    exact ⟨rfl, rfl⟩
  constructor
  · intro hadd
    exact ⟨(addEdge_ok_iff g a b label).mp ⟨g', hadd⟩, hfields hadd⟩
  · rintro ⟨hok, hv, he⟩
    obtain ⟨h, hadd⟩ := (addEdge_ok_iff g a b label).mpr hok
    obtain ⟨hv', he'⟩ := hfields hadd
    rw [hadd, eq_of_vertices_edges (hv.trans hv'.symm) (he.trans he'.symm)]

/-- Edges that keep a graph simple are all accepted, in order. -/
theorem addEdges_eq_ok (g : Graph) (es : List Edge)
    (hrange : ∀ e ∈ es, e.first < g.size ∧ e.second < g.size)
    (hloop : ∀ e ∈ es, e.first ≠ e.second)
    (hsimple : (g.edges.toList ++ es).Pairwise fun e f => ¬ e.Joins f.first f.second) :
    ∃ g', g.addEdges es = .ok g' ∧ g'.vertices = g.vertices
      ∧ g'.edges = g.edges ++ es.toArray := by
  induction es generalizing g with
  | nil => exact ⟨g, rfl, rfl, by simp⟩
  | cons e es ih =>
    obtain ⟨⟨hfirst, hsecond⟩, hrange⟩ := List.forall_mem_cons.mp hrange
    obtain ⟨hne, hloop⟩ := List.forall_mem_cons.mp hloop
    have hnew : g.adjacent e.first e.second = false := by
      rw [Bool.eq_false_iff, ne_eq, adjacent_iff]
      rintro ⟨f, hf, hjoins⟩
      exact (List.pairwise_append.mp hsimple).2.2 f (Array.mem_toList_iff.mpr hf) e
        List.mem_cons_self hjoins
    obtain ⟨h, hadd⟩ := (addEdge_ok_iff g e.first e.second e.label).mpr ⟨hfirst, hsecond, hne, hnew⟩
    obtain ⟨-, hv, he⟩ := addEdge_eq_ok_iff.mp hadd
    have hsize : h.size = g.size := congrArg Array.size hv
    obtain ⟨g', hrest, hv', he'⟩ := ih h (by rwa [hsize]) hloop (by
      rwa [he, Array.toList_push, List.append_assoc, List.singleton_append])
    refine ⟨g', ?_, hv'.trans hv, ?_⟩
    · change (g.addEdge e.first e.second e.label).bind (fun g => g.addEdges es) = _
      rw [hadd]
      exact hrest
    · rw [he', he]
      simp

/-- Edges are accepted exactly if they make a graph, behind those that were there. -/
theorem addEdges_eq_ok_iff {es : List Edge} :
    g.addEdges es = .ok g' ↔ g'.vertices = g.vertices ∧ g'.edges = g.edges ++ es.toArray := by
  constructor
  · intro h
    induction es generalizing g with
    | nil =>
      cases h
      simp
    | cons e es ih =>
      change (g.addEdge e.first e.second e.label).bind (fun g => g.addEdges es) = .ok g' at h
      cases hone : g.addEdge e.first e.second e.label with
      | error fault =>
        rw [hone] at h
        cases h
      | ok k =>
        rw [hone] at h
        obtain ⟨-, hv, he⟩ := addEdge_eq_ok_iff.mp hone
        obtain ⟨hv', he'⟩ := ih h
        refine ⟨hv'.trans hv, ?_⟩
        rw [he', he]
        simp
  · rintro ⟨hv, he⟩
    have hmem : ∀ e ∈ es, e ∈ g'.edges := fun e hmem => by simp [he, hmem]
    have hsize : g'.size = g.size := congrArg Array.size hv
    have hsimple : (g.edges.toList ++ es).Pairwise fun e f => ¬ e.Joins f.first f.second := by
      have := g'.simple
      rwa [he, Array.toList_append] at this
    obtain ⟨k, hadd, hv', he'⟩ := addEdges_eq_ok g es
      (fun e h => hsize ▸ g'.inRange e (hmem e h)) (fun e h => g'.loopless e (hmem e h)) hsimple
    rw [hadd, eq_of_vertices_edges (hv'.trans hv.symm) (he'.trans he.symm)]

/-- The vertices and edges of a graph make that graph again. -/
theorem ofLists_toList (g : Graph) : ofLists g.vertices.toList g.edges.toList = .ok g := by
  rw [ofLists, addEdges_eq_ok_iff]
  simp [empty]

end GraphDependency.Graph
