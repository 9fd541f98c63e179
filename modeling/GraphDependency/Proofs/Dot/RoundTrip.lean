import GraphDependency.Proofs.Dot.Statement
import GraphDependency.Except
import GraphDependency.Proofs.Graph.Growth

set_option autoImplicit false

/-!
# Written graphs are read back

The statements of a written graph name its vertices by their positions, so the draft made
of them numbers the vertices as they were.  Nothing is lost but attributes under the two
names that a text keeps for itself.

Main statements: `readGraph_writeGraph`, `writtenVertex_eq_self_of_readGraph` and
`read_writeGraph`.
-/

namespace GraphDependency

/-! ## Attribute lists -/

namespace Attributes

variable {as bs : Attributes} {name value : String} {es : List (String × String)}

theorem eq_of_entries (h : as.entries = bs.entries) : as = bs := by
  cases as
  cases bs
  cases h
  rfl

theorem put_of_notMem (h : name ∉ es.map Prod.fst) : put name value es = es ++ [(name, value)] := by
  induction es with
  | nil => rfl
  | cons e es ih =>
    rw [List.map_cons, List.mem_cons, not_or] at h
    rw [put, if_neg (Ne.symm h.1), ih h.2]
    rfl

/-- Pairs with new names are appended as they are. -/
theorem entries_insertAll (as : Attributes) (h : ((as.entries ++ es).map Prod.fst).Nodup) :
    (as.insertAll es).entries = as.entries ++ es := by
  induction es generalizing as with
  | nil => exact (List.append_nil _).symm
  | cons e es ih =>
    have hnew : e.1 ∉ as.entries.map Prod.fst := fun hmem => by
      rw [List.map_append, List.nodup_append] at h
      exact h.2.2 e.1 hmem e.1 (by simp) rfl
    have hput : (as.insert e.1 e.2).entries = as.entries ++ [e] := put_of_notMem hnew
    change ((as.insert e.1 e.2).insertAll es).entries = _
    rw [ih (as.insert e.1 e.2) (by rwa [hput, List.append_assoc]), hput, List.append_assoc]
    rfl

theorem entries_ofList (h : (es.map Prod.fst).Nodup) : (ofList es).entries = es :=
  entries_insertAll empty h

theorem entries_erase_erase (as : Attributes) (a b : String) :
    ((as.erase a).erase b).entries = as.entries.filter fun e => e.1 ≠ a ∧ e.1 ≠ b := by
  simp only [erase, List.filter_filter]
  refine List.filter_congr fun e _ => ?_
  by_cases h : e.1 = b <;> simp [h]

/-- Dropping two attributes again changes nothing. -/
theorem erase_erase_again (as : Attributes) (a b : String) :
    (((as.erase a).erase b).erase a).erase b = (as.erase a).erase b := by
  apply eq_of_entries
  rw [entries_erase_erase, entries_erase_erase, List.filter_filter]
  simp only [Bool.and_self]

theorem insertAll_empty_entries (as : Attributes) : empty.insertAll as.entries = as :=
  eq_of_entries (entries_ofList as.nodup)

end Attributes

namespace Dot

/-- A vertex without the attributes that a text does not keep. -/
def writtenVertex (v : Vertex) : Vertex :=
  { v with attributes := (v.attributes.erase labelName).erase identityName }

theorem nodup_names_written (v : Vertex) :
    (((labelName, v.label) :: writtenEntries v).map Prod.fst).Nodup := by
  rw [List.map_cons, List.nodup_cons]
  constructor
  · intro hmem
    obtain ⟨e, he, hlabel⟩ := List.mem_map.mp hmem
    have := (List.mem_filter.mp he).2
    simp [hlabel] at this
  · exact v.attributes.nodup.sublist (List.filter_sublist.map Prod.fst)

/-! ## Drafts -/

namespace Draft

variable {d : Draft} {name : String} {g g' : Graph}

/-- What is written for a vertex makes the vertex. -/
theorem vertexOf_written (v : Vertex) :
    vertexOf (Attributes.ofList ((labelName, v.label) :: writtenEntries v)) = writtenVertex v := by
  have hentries := Attributes.entries_ofList (nodup_names_written v)
  have hlabel : (Attributes.ofList ((labelName, v.label) :: writtenEntries v)).find? labelName
      = some v.label := by
    rw [Attributes.find?, hentries, List.find?_cons_of_pos (by simp)]
    rfl
  rw [vertexOf, hlabel, writtenVertex]
  congr 1
  apply Attributes.eq_of_entries
  rw [Attributes.entries_erase_erase, Attributes.entries_erase_erase, hentries,
    List.filter_cons_of_neg (by simp), writtenEntries, List.filter_filter]
  simp only [Bool.and_self]

theorem mergeInto_of_notMem {attributes : List (String × String)}
    {nodes : List (String × Attributes)} (h : name ∉ nodes.map Prod.fst) :
    mergeInto name attributes nodes = nodes ++ [(name, Attributes.empty.insertAll attributes)] := by
  induction nodes with
  | nil => rfl
  | cons node nodes ih =>
    rw [List.map_cons, List.mem_cons, not_or] at h
    rw [mergeInto, if_neg (Ne.symm h.1), ih h.2]
    rfl

/-- Nodes with new names are appended as they are. -/
theorem foldl_apply_nodes {nodes : List (String × Attributes)}
    (h : (d.names ++ nodes.map Prod.fst).Nodup) :
    (nodes.map fun n => Statement.node n.1 n.2).foldl apply d = ⟨d.nodes ++ nodes, d.edges⟩ := by
  induction nodes generalizing d with
  | nil => simp
  | cons node nodes ih =>
    have hnew : node.1 ∉ d.nodes.map Prod.fst := fun hmem =>
      (List.nodup_append.mp h).2.2 node.1 hmem node.1 (by simp) rfl
    have hstep : d.apply (.node node.1 node.2) = ⟨d.nodes ++ [node], d.edges⟩ := by
      rw [apply, merge, mergeInto_of_notMem hnew, Attributes.insertAll_empty_entries]
    rw [List.map_cons, List.foldl_cons, hstep, ih (by simpa [names] using h)]
    simp

theorem mergeInto_nil_of_mem {nodes : List (String × Attributes)} (h : name ∈ nodes.map Prod.fst) :
    mergeInto name [] nodes = nodes := by
  induction nodes with
  | nil => cases h
  | cons node nodes ih =>
    rw [mergeInto]
    split
    · rename_i heq
      subst heq
      rfl
    · rename_i hne
      rw [ih ((List.mem_cons.mp h).resolve_left (Ne.symm hne))]

/-- A name that is there already stays as it is. -/
theorem touch_of_mem (h : name ∈ d.names) : d.touch name = d :=
  congrArg (fun nodes => (⟨nodes, d.edges⟩ : Draft)) (mergeInto_nil_of_mem h)

/-- The edge of a draft joins the names of the endpoints of an edge. -/
def Names (e : Edge) (x : DraftEdge) : Prop :=
  x.first = toString e.first ∧ x.second = toString e.second ∧ x.label = e.label

/-- Edges between names that are there add nothing but themselves. -/
theorem foldl_apply_edges {edges : List Edge} {statements : List Statement}
    (h : List.Forall₂ SaysEdge edges statements)
    (hmem : ∀ e ∈ edges, toString e.first ∈ d.names ∧ toString e.second ∈ d.names) :
    ∃ added, statements.foldl apply d = ⟨d.nodes, d.edges ++ added⟩
      ∧ List.Forall₂ Names edges added := by
  induction h generalizing d with
  | nil => exact ⟨[], by simp, .nil⟩
  | @cons e s edges statements hsays _ ih =>
    obtain ⟨⟨hfirst, hsecond⟩, hmem⟩ := List.forall_mem_cons.mp hmem
    obtain ⟨line, rfl⟩ := hsays
    -- Both names are there, so the chain adds nothing but its one edge.
    have hstep : d.apply (.chain [toString e.first, toString e.second]
        (Attributes.ofList [(labelName, e.label)]) line)
          = ⟨d.nodes, d.edges ++ [⟨toString e.first, toString e.second, e.label, line⟩]⟩ := by
      simp only [apply, List.foldl_cons, List.foldl_nil, touch_of_mem hfirst, touch_of_mem hsecond]
      rfl
    rw [List.foldl_cons, hstep]
    obtain ⟨added, hadded, hnames⟩ :=
      ih (d := ⟨d.nodes, d.edges ++ [⟨toString e.first, toString e.second, e.label, line⟩]⟩) hmem
    refine ⟨⟨toString e.first, toString e.second, e.label, line⟩ :: added, ?_,
      .cons ⟨rfl, rfl, rfl⟩ hnames⟩
    rw [hadded]
    simp

/-- The edge between the positions of two names. -/
def numbered (d : Draft) (e : DraftEdge) : Edge :=
  ⟨d.names.idxOf e.first, d.names.idxOf e.second, e.label⟩

/-- Adding the edges of a draft is adding edges between the positions of their names. -/
theorem foldlM_addEdge_eq_ok_iff {edges : List DraftEdge} :
    edges.foldlM d.addEdge g = .ok g' ↔ g.addEdges (edges.map d.numbered) = .ok g' := by
  induction edges generalizing g with
  | nil =>
    change Except.ok g = Except.ok g' ↔ Except.ok g = Except.ok g'
    simp only [Except.ok.injEq]
  | cons e edges ih =>
    have hsame : d.addEdge g e
        = (g.addEdge (d.numbered e).first (d.numbered e).second (d.numbered e).label).mapError
          (fun fault => ⟨e.line, .edge fault⟩) := by
      rw [addEdge, numbered]
      cases g.addEdge (d.names.idxOf e.first) (d.names.idxOf e.second) e.label <;> rfl
    change (d.addEdge g e).bind (fun k => edges.foldlM d.addEdge k) = _
      ↔ (g.addEdge (d.numbered e).first (d.numbered e).second (d.numbered e).label).bind
        (fun k => k.addEdges (edges.map d.numbered)) = _
    simp only [bind_eq_ok_iff, hsame, mapError_eq_ok_iff, ih]

/-- A draft makes the graph with its nodes as vertices and its edges between them. -/
theorem toGraph_eq_ok_iff : d.toGraph = .ok g
    ↔ g.vertices.toList = d.nodes.map (fun n => vertexOf n.2)
      ∧ g.edges.toList = d.edges.map d.numbered := by
  rw [toGraph, foldlM_addEdge_eq_ok_iff, Graph.addEdges_eq_ok_iff, Graph.vertices_addVertices,
    Graph.edges_addVertices, ← Array.toList_inj, ← Array.toList_inj]
  simp [Graph.empty]

/-- Edges that name the endpoints of others are those others. -/
theorem map_numbered {edges : List Edge} {added : List DraftEdge}
    (h : List.Forall₂ Names edges added)
    (hidx : ∀ e ∈ edges, d.names.idxOf (toString e.first) = e.first
      ∧ d.names.idxOf (toString e.second) = e.second) : added.map d.numbered = edges := by
  induction h with
  | nil => rfl
  | @cons e x edges added hnames _ ih =>
    obtain ⟨⟨hfirst, hsecond⟩, hidx⟩ := List.forall_mem_cons.mp hidx
    obtain ⟨h₁, h₂, h₃⟩ := hnames
    rw [List.map_cons, ih hidx, numbered, h₁, h₂, h₃, hfirst, hsecond]

end Draft

/-! ## The draft of a written graph -/

/-- The nodes of a written graph: the vertices, named by their positions. -/
def writtenNodes (g : Graph) : List (String × Attributes) :=
  g.vertices.toList.zipIdx.map fun p =>
    (toString p.2, Attributes.ofList ((labelName, p.1.label) :: writtenEntries p.1))

theorem map_fst_writtenNodes (g : Graph) :
    (writtenNodes g).map Prod.fst = (List.range g.size).map toString := by
  have : (writtenNodes g).map Prod.fst = (g.vertices.toList.zipIdx.map Prod.snd).map toString := by
    rw [writtenNodes, List.map_map, List.map_map]
    rfl
  rw [this, List.zipIdx_map_snd, ← List.range_eq_range', Array.length_toList, Graph.size]

theorem map_vertexOf_writtenNodes (g : Graph) :
    (writtenNodes g).map (fun n => Draft.vertexOf n.2) = g.vertices.toList.map writtenVertex := by
  have : (writtenNodes g).map (fun n => Draft.vertexOf n.2)
      = (g.vertices.toList.zipIdx.map Prod.fst).map writtenVertex := by
    rw [writtenNodes, List.map_map, List.map_map]
    exact List.map_congr_left fun p _ => Draft.vertexOf_written p.1
  rw [this, List.zipIdx_map_fst]

theorem nodup_names_writtenNodes (g : Graph) : ((writtenNodes g).map Prod.fst).Nodup := by
  rw [map_fst_writtenNodes]
  exact List.nodup_range.map fun _ _ h => Text.toString_injective h

theorem idxOf_names_writtenNodes {g : Graph} {i : Nat} (hi : i < g.size) :
    ((writtenNodes g).map Prod.fst).idxOf (toString i) = i := by
  have hlt : i < ((writtenNodes g).map Prod.fst).length := by
    simpa [map_fst_writtenNodes] using hi
  have hget : ((writtenNodes g).map Prod.fst)[i] = toString i := by
    simp only [map_fst_writtenNodes]
    simp
  rw [← hget, (nodup_names_writtenNodes g).idxOf_getElem i hlt]

theorem ofStatements_written {g : Graph} {chains : List Statement}
    (h : List.Forall₂ SaysEdge g.edges.toList chains) :
    ∃ added, List.Forall₂ Draft.Names g.edges.toList added
      ∧ Draft.ofStatements
          (g.vertices.toList.zipIdx.map (fun p => vertexStatement p.2 p.1) ++ chains)
        = ⟨writtenNodes g, added⟩ := by
  have hmem : ∀ e ∈ g.edges.toList,
      toString e.first ∈ (writtenNodes g).map Prod.fst
        ∧ toString e.second ∈ (writtenNodes g).map Prod.fst := by
    intro e he
    have hrange := g.inRange e (Array.mem_toList_iff.mp he)
    rw [map_fst_writtenNodes]
    exact ⟨List.mem_map_of_mem (List.mem_range.mpr hrange.1),
      List.mem_map_of_mem (List.mem_range.mpr hrange.2)⟩
  obtain ⟨added, hadded, hnames⟩ := Draft.foldl_apply_edges (d := ⟨writtenNodes g, []⟩) h hmem
  have hnodes : g.vertices.toList.zipIdx.map (fun p => vertexStatement p.2 p.1)
      = (writtenNodes g).map fun n => .node n.1 n.2 := by
    rw [writtenNodes, List.map_map]
    rfl
  refine ⟨added, hnames, ?_⟩
  rw [Draft.ofStatements, List.foldl_append, hnodes,
    Draft.foldl_apply_nodes (d := .empty) (nodup_names_writtenNodes g)]
  exact hadded

/-- The edges of a graph go in again between its written nodes. -/
theorem toGraph_written {g : Graph} {added : List DraftEdge}
    (h : List.Forall₂ Draft.Names g.edges.toList added) :
    ∃ g', (Draft.mk (writtenNodes g) added).toGraph = .ok g'
      ∧ g'.vertices = g.vertices.map writtenVertex ∧ g'.edges = g.edges := by
  let start := Graph.empty.addVertices ((writtenNodes g).map fun n => Draft.vertexOf n.2)
  have hstart : start.vertices = g.vertices.map writtenVertex := by
    simp only [start, Graph.vertices_addVertices, map_vertexOf_writtenNodes]
    simp [Graph.empty, ← Array.toList_map]
  have hnone : start.edges = #[] := Graph.edges_addVertices _ _
  have hsize : start.size = g.size := by
    rw [Graph.size, hstart, Array.size_map]
    rfl
  obtain ⟨g', hadd, hvertices, hedges⟩ := Graph.addEdges_eq_ok start g.edges.toList
    (fun e he => hsize ▸ g.inRange e (Array.mem_toList_iff.mp he))
    (fun e he => g.loopless e (Array.mem_toList_iff.mp he))
    (by rw [hnone]; exact g.simple)
  refine ⟨g', ?_, hvertices.trans hstart, by simpa [hnone] using hedges⟩
  rw [Draft.toGraph, Draft.foldlM_addEdge_eq_ok_iff, Draft.map_numbered h]
  · exact hadd
  · intro e he
    have hrange := g.inRange e (Array.mem_toList_iff.mp he)
    exact ⟨idxOf_names_writtenNodes hrange.1, idxOf_names_writtenNodes hrange.2⟩

/-! ## Reading what was written -/

theorem readGraph_eq_ok_iff {firstLine : Nat} {text : String} {g : Graph} :
    readGraph firstLine text = .ok g
      ↔ ∃ lexemes statements, lex firstLine true text.toList = .ok lexemes
        ∧ readDocument lexemes = .ok statements
        ∧ (Draft.ofStatements statements).toGraph = .ok g := by
  change (lex firstLine true text.toList).bind (fun lexemes => (readDocument lexemes).bind
    fun statements => (Draft.ofStatements statements).toGraph) = .ok g ↔ _
  simp only [bind_eq_ok_iff, exists_and_left]

/-- A written graph is read back, wherever it starts. -/
theorem readGraph_writeGraph (firstLine : Nat) (g : Graph) :
    ∃ g', readGraph firstLine (writeGraph g) = .ok g'
      ∧ g'.vertices = g.vertices.map writtenVertex ∧ g'.edges = g.edges := by
  obtain ⟨lexemes, hlex, htokens⟩ := readsAs_writeGraph g firstLine true
  obtain ⟨chains, hchains, hdocument⟩ := readDocument_written g htokens
  obtain ⟨added, hnames, hdraft⟩ := ofStatements_written hchains
  obtain ⟨g', hgraph, hsame⟩ := toGraph_written hnames
  exact ⟨g', readGraph_eq_ok_iff.mpr ⟨lexemes, _, hlex, hdocument, hdraft ▸ hgraph⟩, hsame⟩

/-- The vertices of a graph that was read have nothing left that a text does not keep. -/
theorem writtenVertex_eq_self_of_readGraph {firstLine : Nat} {text : String} {g : Graph}
    (h : readGraph firstLine text = .ok g) : ∀ v ∈ g.vertices, writtenVertex v = v := by
  obtain ⟨-, statements, -, -, hgraph⟩ := readGraph_eq_ok_iff.mp h
  intro v hv
  rw [← Array.mem_toList_iff, (Draft.toGraph_eq_ok_iff.mp hgraph).1, List.mem_map] at hv
  obtain ⟨node, -, rfl⟩ := hv
  rw [writtenVertex, Draft.vertexOf, Attributes.erase_erase_again]

/-- A graph that was read, from wherever, is read back as it is. -/
theorem readGraph_again {firstLine firstLine' : Nat} {text : String} {g : Graph}
    (h : readGraph firstLine text = .ok g) : readGraph firstLine' (writeGraph g) = .ok g := by
  obtain ⟨g', hback, hvertices, hedges⟩ := readGraph_writeGraph firstLine' g
  rw [Array.map_congr_left (writtenVertex_eq_self_of_readGraph h), Array.map_id'] at hvertices
  rw [hback, Graph.eq_of_vertices_edges hvertices hedges]

/-- A written graph is read back with the same vertices in the same order, but for the
attributes that a text does not keep, and with the same edges.  So what was read from any
text is read back as it is. -/
theorem read_writeGraph :
    (∀ g, ∃ g', read (writeGraph g) = .ok g'
        ∧ g'.vertices = g.vertices.map writtenVertex ∧ g'.edges = g.edges)
      ∧ ∀ text g, read text = .ok g → read (writeGraph g) = .ok g := by
  refine ⟨readGraph_writeGraph 1, fun text g hread => ?_⟩
  obtain ⟨g', hback, hvertices, hedges⟩ := readGraph_writeGraph 1 g
  rw [Array.map_congr_left (writtenVertex_eq_self_of_readGraph hread), Array.map_id'] at hvertices
  rw [read, hback, Graph.eq_of_vertices_edges hvertices hedges]

/-- A quoted label, a keyword and an empty label survive. -/
theorem read_writeGraph_segment :
    let g := Graph.segment "Joel \"Ethan\" Coen" "Graph" ""
    ∃ g', read (writeGraph g) = .ok g' ∧ g'.edges = g.edges ∧ read (writeGraph g') = .ok g' := by
  intro g
  obtain ⟨g', hread, -, hedges⟩ := read_writeGraph.1 g
  exact ⟨g', hread, hedges, read_writeGraph.2 _ g' hread⟩

end Dot

end GraphDependency
