import GraphDependency.Json.Dependency
import GraphDependency.Json.Report
import GraphDependency.Proofs.Dependency.Text
import GraphDependency.Proofs.Json.Text

set_option autoImplicit false

/-!
# Reading what was written

The written form of a graph, a dependency, a literal or a report is read back as the same
value.  Vertices and edges are added to an empty graph in the order in which they were added
before, so a graph has its tables again; the parts of a dependency pass the checks that
they passed before.  Numbers are of 64 binary digits.

Main statements: `ReadsBack.readText`, `readsBack_graph`, `readsBack_dependency` and
`read_write`.
-/

namespace GraphDependency.Json

open GraphDependency.Text

variable {α β : Type} {write : α → Value} {read : Reader α} {x : α}

/-- The reader takes the written value for what it was. -/
def ReadsBack (write : α → Value) (read : Reader α) (x : α) : Prop :=
  read (write x).document = .ok x

theorem ReadsBack.readText (h : ReadsBack write read x) :
    readText read (write x).compact = .ok x := by
  have hread : read (write x).document = .ok x := h
  rw [Json.readText, Document.ofText_compact, hread]
  rfl

/-- It does not matter how the value is laid out, nor whether blanks stand behind it. -/
theorem ReadsBack.readText_pretty (h : ReadsBack write read x) {behind : String}
    (hbehind : ∀ c ∈ behind.toList, isSpace c = true) :
    Json.readText read ((write x).pretty ++ behind) = .ok x := by
  rw [← h.readText, Json.readText, Json.readText, Document.ofText_compact,
    Document.ofText_pretty _ hbehind]

/-! ## Forms -/

theorem readNatural_natural {n : Nat} (h : n ≤ max64) : readNatural (.natural n) = .ok n :=
  if_pos h

theorem readList_array {xs : List α} (h : ∀ x ∈ xs, ReadsBack write read x) :
    readList read (Value.array (xs.map write)).document = .ok xs := by
  rw [Value.document, Value.itemDocuments_eq_map, List.map_map, readList]
  exact mapM_eq_ok h

theorem readEntries_object (entries : List (String × String)) :
    readEntries (Value.object (entries.map fun e => (e.1, .text e.2))).document = .ok entries := by
  rw [Value.document, Value.memberDocuments_eq_map, List.map_map, readEntries]
  exact mapM_eq_ok fun e _ => rfl

theorem readName_string {named? : String → Option α} {name : String} (h : named? name = some x) :
    readName named? (.string (some name)) = .ok x := by
  change required (named? name) = .ok x
  rw [h]
  rfl

/-- A slot that is free takes what is read. -/
theorem fill_free {d : Document} (h : read d = .ok x) : fill none read d = .ok (some x) := by
  change (read d).map some = .ok (some x)
  rw [h]
  rfl

theorem readSingle_object (name : String) {d : Document} (h : read d = .ok x) :
    readSingle name read (.object [(some name, d)]) = .ok x := by
  simp [readSingle, readRecord, members?, readMembers, fill_free h, required, bind, Except.bind]

theorem readPair_object {first second : String} (hne : first ≠ second) {readFirst : Reader α}
    {readSecond : Reader β} {a b : Document} {x : α} {y : β} (ha : readFirst a = .ok x)
    (hb : readSecond b = .ok y) :
    readPair first readFirst second readSecond (.object [(some first, a), (some second, b)])
      = .ok (x, y) := by
  simp [readPair, readRecord, members?, readMembers, hne, fill_free ha, fill_free hb, required,
    bind, Except.bind, Except.map]

/-! ## Graphs -/

theorem readsBack_vertex (v : Vertex) : ReadsBack ofVertex toVertex v := by
  have hparts : readPair "label" readString "attributes" readEntries (ofVertex v).document
      = .ok (v.label, v.attributes.entries) :=
    readPair_object (by decide) rfl (readEntries_object v.attributes.entries)
  have hattributes : Attributes.ofList v.attributes.entries = v.attributes :=
    Attributes.insertAll_empty_entries v.attributes
  rw [ReadsBack, toVertex, hparts]
  change Except.ok (Vertex.mk v.label (.ofList v.attributes.entries)) = .ok v
  rw [hattributes]

theorem readsBack_edge {e : Edge} (hfirst : e.first ≤ max64) (hsecond : e.second ≤ max64) :
    ReadsBack ofEdge toEdge e := by
  have hlabel : readSingle "label" readString (.object [(some "label", .string (some e.label))])
      = .ok e.label := readSingle_object "label" rfl
  change (readNatural (.natural e.first)).bind (fun a => (readNatural (.natural e.second)).bind
    fun b => (readSingle "label" readString (.object [(some "label", .string (some e.label))])).bind
      fun label => Except.ok ⟨a, b, label⟩) = .ok e
  rw [readNatural_natural hfirst, readNatural_natural hsecond, hlabel]
  rfl

theorem toGraphLists_object {vertices edges : Document} {vs : List Vertex} {es : List Edge}
    (hvertices : readList toVertex vertices = .ok vs) (hedges : readList toEdge edges = .ok es)
    (hends : ∀ e ∈ es, endsBelow vs.length e = true) :
    toGraphLists (.object [(some "nodes", vertices), (some "node_holes", .array []),
        (some "edge_property", .string (some "undirected")), (some "edges", edges)])
      = .ok (vs, es) := by
  have hproperty : toEdgeProperty (.string (some "undirected")) = .ok () :=
    readName_string (if_pos rfl)
  have hholes : toHoles (.array []) = .ok () := rfl
  have hrecord : readRecord GraphSlots.fields .free
      (.object [(some "nodes", vertices), (some "node_holes", .array []),
        (some "edge_property", .string (some "undirected")), (some "edges", edges)])
      = .ok ⟨some vs, some (), some (), some es⟩ := by
    simp [readRecord, members?, readMembers, GraphSlots.fields, GraphSlots.free,
      fill_free hvertices, fill_free hholes, fill_free hproperty, fill_free hedges,
      bind, Except.bind, Except.map]
  rw [toGraphLists, hrecord]
  exact if_pos (List.all_eq_true.mpr hends)

theorem readsBack_graph {g : Graph} (h : g.size ≤ max64) : ReadsBack ofGraph toGraph g := by
  have hedges : ∀ e ∈ g.edges.toList, ReadsBack ofEdge toEdge e := by
    intro e he
    obtain ⟨hfirst, hsecond⟩ := g.inRange e (Array.mem_toList_iff.mp he)
    exact readsBack_edge (hfirst.le.trans h) (hsecond.le.trans h)
  have hends : ∀ e ∈ g.edges.toList, endsBelow g.vertices.toList.length e = true := by
    intro e he
    obtain ⟨hfirst, hsecond⟩ := g.inRange e (Array.mem_toList_iff.mp he)
    simp [endsBelow, hfirst, hsecond]
  have hlists : toGraphLists _ = .ok (g.vertices.toList, g.edges.toList) :=
    toGraphLists_object (readList_array fun v _ => readsBack_vertex v) (readList_array hedges) hends
  have hinner : readSingle "inner" toGraphLists (ofGraph g).document
      = .ok (g.vertices.toList, g.edges.toList) := readSingle_object "inner" hlists
  exact toGraph_ok_iff.mpr ⟨_, _, hinner, g.ofLists_toList⟩

/-! ## Literals and dependencies -/

/-- The vertices that a term refers to have numbers of 64 binary digits. -/
theorem readsBack_term {t : Term} (h : ∀ i ∈ t.index?, i ≤ max64) : ReadsBack ofTerm toTerm t := by
  cases t with
  | vertex index name =>
    have hpair : readPair "index" readNatural "attribute" readString
        (.object [(some "index", .natural index), (some "attribute", .string (some name))])
        = .ok (index, name) :=
      readPair_object (by decide) (readNatural_natural (h index rfl)) rfl
    change ((readPair "index" readNatural "attribute" readString
      (.object [(some "index", .natural index), (some "attribute", .string (some name))])).bind
        fun parts => Except.ok (Term.vertex parts.1 parts.2)) = .ok (.vertex index name)
    rw [hpair]
    rfl
  | constant value => exact toTerm_constant value

theorem readsBack_literal {l : Literal} (h : ∀ i ∈ l.indices, i ≤ max64) :
    ReadsBack ofLiteral toLiteral l := by
  have hlhs : ReadsBack ofTerm toTerm l.lhs :=
    readsBack_term fun i hi => h i (List.mem_append_left _ (Option.mem_toList.mpr hi))
  have hrhs : ReadsBack ofTerm toTerm l.rhs :=
    readsBack_term fun i hi => h i (List.mem_append_right _ (Option.mem_toList.mpr hi))
  have hpair : readPair "lhs" toTerm "rhs" toTerm (ofLiteral l).document = .ok (l.lhs, l.rhs) :=
    readPair_object (by decide) hlhs hrhs
  rw [ReadsBack, toLiteral, hpair]
  rfl

theorem readsBack_dependency {d : Dependency} (h : d.pattern.size ≤ max64) :
    ReadsBack ofDependency toDependency d := by
  have hliteral : ∀ l ∈ d.premises ++ d.conclusion, ReadsBack ofLiteral toLiteral l :=
    fun l hl => readsBack_literal fun i hi => (d.inRange l hl i hi).le.trans h
  obtain ⟨hpremises, hconclusion⟩ := List.forall_mem_append.mp hliteral
  have hpattern : toGraph (ofGraph d.pattern).document = .ok d.pattern := readsBack_graph h
  have hform : (ofDependency d).document = .object
      [(some "pattern", (ofGraph d.pattern).document),
        (some "premises", (Value.array (d.premises.map ofLiteral)).document),
        (some "conclusion", (Value.array (d.conclusion.map ofLiteral)).document)] := rfl
  have hrecord : readRecord DependencySlots.fields .free (ofDependency d).document
      = .ok ⟨some d.pattern, some d.premises, some d.conclusion⟩ := by
    simp [hform, readRecord, members?, readMembers, DependencySlots.fields, DependencySlots.free,
      fill_free hpattern, fill_free (readList_array hpremises),
      fill_free (readList_array hconclusion), bind, Except.bind, Except.map]
  have hparts : Dependency.ofParts d.pattern d.premises d.conclusion = .ok d :=
    ofParts_eq_ok_iff.mpr ⟨rfl, rfl, rfl⟩
  rw [ReadsBack, toDependency, hrecord]
  change (Dependency.ofParts d.pattern d.premises d.conclusion).mapError _ = _
  rw [hparts]
  rfl

/-! ## Reports -/

theorem readsBack_strategy (s : Strategy) : ReadsBack ofStrategy toStrategy s :=
  readName_string (strategyNamed?_name s)

theorem readsBack_stats {s : Stats} (hruns : s.matcherRuns ≤ max64)
    (hchecked : s.embeddingsChecked ≤ max64) : ReadsBack ofStats toStats s := by
  have hpair : readPair "matcher_runs" readNatural "embeddings_checked" readNatural
      (ofStats s).document = .ok (s.matcherRuns, s.embeddingsChecked) :=
    readPair_object (by decide) (readNatural_natural hruns) (readNatural_natural hchecked)
  rw [ReadsBack, toStats, hpair]
  rfl

theorem readsBack_report {r : Report} (hthreads : r.threads ≤ max64)
    (hruns : r.stats.matcherRuns ≤ max64) (hchecked : r.stats.embeddingsChecked ≤ max64) :
    ReadsBack ofReport toReport r := by
  have hstrategy : toStrategy (ofStrategy r.strategy).document = .ok r.strategy :=
    readsBack_strategy r.strategy
  have houtcomes : ∀ o ∈ r.outcomes, ReadsBack ofOutcome toOutcome o := fun o _ =>
    readName_string (outcomeNamed?_name o)
  have hstats : toStats (ofStats r.stats).document = .ok r.stats := readsBack_stats hruns hchecked
  have hform : (ofReport r).document = .object
      [(some "strategy", (ofStrategy r.strategy).document), (some "threads", .natural r.threads),
        (some "outcomes", (Value.array (r.outcomes.map ofOutcome)).document),
        (some "stats", (ofStats r.stats).document)] := rfl
  have hrecord : readRecord ReportSlots.fields .free (ofReport r).document
      = .ok ⟨some r.strategy, some r.threads, some r.outcomes, some r.stats⟩ := by
    simp [hform, readRecord, members?, readMembers, ReportSlots.fields, ReportSlots.free,
      fill_free hstrategy, fill_free (readNatural_natural hthreads),
      fill_free (readList_array houtcomes), fill_free hstats, bind, Except.bind, Except.map]
  rw [ReadsBack, toReport, hrecord]
  rfl

/-! ## Texts -/

/-- The written form of a graph, a dependency, a literal or a report is read back as the same
value, if its numbers are of 64 binary digits: the same vertices, attributes and edges in the
same order, with the same tables, the same literals, and the same outcomes and counts. -/
theorem read_write :
    (∀ g : Graph, g.size ≤ max64 → readGraph (writeGraph g) = .ok g)
      ∧ (∀ d : Dependency, d.pattern.size ≤ max64 →
        readDependency (writeDependency d) = .ok d)
      ∧ (∀ l : Literal, (∀ i ∈ l.indices, i ≤ max64) → readLiteral (writeLiteral l) = .ok l)
      ∧ ∀ r : Report, r.threads ≤ max64 → r.stats.matcherRuns ≤ max64 →
        r.stats.embeddingsChecked ≤ max64 → readReport (writeReport r) = .ok r :=
  ⟨fun _ h => (readsBack_graph h).readText, fun _ h => (readsBack_dependency h).readText,
    fun _ h => (readsBack_literal h).readText,
    fun _ hthreads hruns hchecked => (readsBack_report hthreads hruns hchecked).readText⟩

/-- Control characters and quotes, an attribute named like the label, and an edge whose second
end comes first. -/
theorem read_write_escapes :
    let g : Graph :=
      { vertices := #[⟨"\n", .ofList [("label", "\"\\"), ("", "\t")]⟩, ⟨"", .empty⟩]
        edges := #[⟨1, 0, "\x01"⟩]
        incidence := incidenceTable 2 #[⟨1, 0, "\x01"⟩]
        incidence_eq := rfl
        inRange := by decide
        loopless := by decide
        simple := by decide }
    let d := Dependency.onVertex "person" ⟨.vertex 0 "label", .constant "0.name"⟩ (by decide)
    let l : Literal := ⟨.constant "", .vertex max64 "\x7f"⟩
    let r : Report := ⟨.distributed, 3, [.holds, .violated], ⟨2, max64⟩⟩
    readGraph (writeGraph g) = .ok g ∧ readDependency (writeDependency d) = .ok d
      ∧ readLiteral (writeLiteral l) = .ok l ∧ readReport (writeReport r) = .ok r := by
  intro g d l r
  obtain ⟨hgraph, hdependency, hliteral, hreport⟩ := read_write
  exact ⟨hgraph g (by decide), hdependency d (by decide), hliteral l (by decide),
    hreport r (by decide) (by decide) (by decide)⟩

end GraphDependency.Json
