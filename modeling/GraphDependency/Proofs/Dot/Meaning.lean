import GraphDependency.Proofs.Dot.Grammar
import GraphDependency.Proofs.Dot.RoundTrip

set_option autoImplicit false

/-!
# The meaning of graph text

The names in the statements of a graph text are the vertices, numbered in the order in which
they first appear.  What the node statements about a name say is put together in order: an
attribute stands where it was first set and has the value that was set last.  Each chain has
an edge between any two names that are next to each other in it.

Main statements: `Attributes.entries_ofList_eq`, `nodes_ofStatements`,
`toGraph_eq_ok_iff_means` and `readGraph_exact`.
-/

namespace GraphDependency

theorem eraseDups_append_singleton {α : Type} [BEq α] [LawfulBEq α] (xs : List α) (x : α)
    [Decidable (x ∈ xs)] :
    (xs ++ [x]).eraseDups = if x ∈ xs then xs.eraseDups else xs.eraseDups ++ [x] := by
  rw [List.eraseDups_append]
  split
  · rename_i h
    simp [List.removeAll, h]
  · rename_i h
    simp [List.removeAll, h, List.eraseDups_cons]

theorem nodup_eraseDups {α : Type} [BEq α] [LawfulBEq α] (xs : List α) : xs.eraseDups.Nodup := by
  classical
  induction xs using List.reverseRecOn with
  | nil => exact List.nodup_nil
  | append_singleton xs x ih =>
    rw [eraseDups_append_singleton]
    split
    · exact ih
    · rename_i h
      refine List.nodup_append.mpr ⟨ih, List.nodup_singleton x, fun y hy z hz heq => h ?_⟩
      rw [← List.mem_singleton.mp hz, ← heq]
      exact List.mem_eraseDups.mp hy

/-! ## Attributes set one after the other -/

namespace Attributes

/-- The value that a name was given last. -/
def lastValue? (name : String) (es : List (String × String)) : Option String :=
  (es.reverse.find? fun e => e.1 = name).map Prod.snd

/-- The names in the order in which they were first set, each with its last value. -/
def merged (es : List (String × String)) : List (String × String) :=
  (es.map Prod.fst).eraseDups.map fun name => (name, (lastValue? name es).getD "")

theorem ofList_append (es fs : List (String × String)) :
    ofList (es ++ fs) = (ofList es).insertAll fs := List.foldl_append

theorem names_ofList (es : List (String × String)) :
    (ofList es).names = (es.map Prod.fst).eraseDups := by
  induction es using List.reverseRecOn with
  | nil => rfl
  | append_singleton es e ih =>
    have hmem : e.1 ∈ (ofList es).names ↔ e.1 ∈ es.map Prod.fst := by
      rw [ih, List.mem_eraseDups]
    rw [ofList_append, List.map_append, List.map_singleton, eraseDups_append_singleton, ← ih]
    simp only [← hmem]
    exact names_insert (ofList es) e.1 e.2

theorem find?_ofList (es : List (String × String)) (name : String) :
    (ofList es).find? name = lastValue? name es := by
  induction es using List.reverseRecOn with
  | nil => rfl
  | append_singleton es e ih =>
    have hinsert : (ofList (es ++ [e])).find? name
        = if e.1 = name then some e.2 else (ofList es).find? name := by
      rw [ofList_append]
      exact find?_insert (ofList es) e.1 e.2 name
    rw [hinsert, ih, lastValue?, lastValue?, List.reverse_append, List.reverse_singleton,
      List.singleton_append, List.find?_cons]
    by_cases h : e.1 = name <;> simp [h]

theorem entries_eq_map_names (as : Attributes) :
    as.entries = as.names.map fun name => (name, (as.find? name).getD "") := by
  have hfind : ∀ e ∈ as.entries, as.find? e.1 = some e.2 := by
    intro e he
    rw [find?]
    cases hf : as.entries.find? fun f => f.1 = e.1 with
    | none => exact absurd (decide_eq_true rfl) (List.find?_eq_none.mp hf e he)
    | some f =>
      have hname : f.1 = e.1 := by simpa using List.find?_some hf
      rw [List.inj_on_of_nodup_map as.nodup (List.mem_of_find?_eq_some hf) he hname]
      rfl
  rw [names, List.map_map]
  conv_lhs => rw [← List.map_id as.entries]
  refine List.map_congr_left fun e he => ?_
  simp [hfind e he]

/-- Attributes stand where they were first set and have the values that were set last. -/
theorem entries_ofList_eq (es : List (String × String)) : (ofList es).entries = merged es := by
  rw [entries_eq_map_names, names_ofList, merged]
  simp only [find?_ofList]

end Attributes

namespace Dot

/-! ## What statements say -/

namespace Statement

/-- The nodes that a statement is about, in order. -/
def names : Statement → List String
  | .defaults => []
  | .assignment => []
  | .node name _ => [name]
  | .chain names _ _ => names

/-- The attributes that a statement gives to a node. -/
def givenTo (name : String) : Statement → List (String × String)
  | .node name' attributes => if name' = name then attributes.entries else []
  | _ => []

/-- The edges that a statement asks for. -/
def edges : Statement → List DraftEdge
  | .chain names attributes line =>
    (names.zip names.tail).map fun p =>
      ⟨p.1, p.2, (attributes.find? labelName).getD "", line⟩
  | _ => []

end Statement

/-- The nodes that some statements are about, in the order of first appearance. -/
def nodeNames (ss : List Statement) : List String := (ss.flatMap Statement.names).eraseDups

/-- The attributes that some statements give to a node, in order. -/
def given (ss : List Statement) (name : String) : List (String × String) :=
  ss.flatMap (Statement.givenTo name)

/-- A graph has what some statements say: its vertices are their nodes, labelled and with the
attributes given to them, apart from the two names that a text keeps for itself; and its edges
are theirs. -/
structure Means (ss : List Statement) (g : Graph) : Prop where
  vertices : (g.vertices.toList.map fun v => (v.label, v.attributes.entries))
    = (nodeNames ss).map fun name =>
      ((Attributes.lastValue? labelName (given ss name)).getD "",
        (Attributes.merged (given ss name)).filter fun e => e.1 ≠ labelName ∧ e.1 ≠ identityName)
  edges : g.edges.toList = (ss.flatMap Statement.edges).map fun e =>
    ⟨(nodeNames ss).idxOf e.first, (nodeNames ss).idxOf e.second, e.label⟩

namespace Draft

variable {d : Draft} {xs : List String} {name : String} {f : String → Attributes}
  {ss : List Statement} {g : Graph}

/-! ## The nodes of a draft -/

theorem mergeInto_map {ns : List String} (hns : ns.Nodup) (hnew : name ∉ ns → f name = .empty)
    (es : List (String × String)) :
    mergeInto name es (ns.map fun n => (n, f n))
      = (if name ∈ ns then ns else ns ++ [name]).map fun n =>
        (n, if n = name then (f n).insertAll es else f n) := by
  induction ns with
  | nil => simp [mergeInto, hnew]
  | cons n ns ih =>
    obtain ⟨hn, hns⟩ := List.nodup_cons.mp hns
    by_cases h : n = name
    · subst h
      have hrest : ∀ m ∈ ns, m ≠ n := fun m hm heq => hn (heq ▸ hm)
      rw [if_pos List.mem_cons_self, List.map_cons, List.map_cons, mergeInto, if_pos rfl,
        if_pos rfl]
      congr 1
      exact List.map_congr_left fun m hm => by rw [if_neg (hrest m hm)]
    · have ih := ih hns fun hnot => hnew (by simp [Ne.symm h, hnot])
      rw [List.map_cons, mergeInto, if_neg h, ih]
      by_cases hin : name ∈ ns <;> simp [hin, h, Ne.symm h]

theorem nodes_merge (h : d.nodes = xs.eraseDups.map fun n => (n, f n))
    (hnew : name ∉ xs → f name = .empty) (attributes : Attributes) :
    (d.merge name attributes).nodes = (xs ++ [name]).eraseDups.map fun n =>
      (n, if n = name then (f n).insertAll attributes.entries else f n) := by
  rw [merge, h, mergeInto_map (nodup_eraseDups xs) fun hnot =>
    hnew (mt List.mem_eraseDups.mpr hnot), eraseDups_append_singleton]
  simp only [List.mem_eraseDups]

/-- Nodes that are touched are there, with the attributes that they had. -/
theorem nodes_foldl_touch (names : List String) (h : d.nodes = xs.eraseDups.map fun n => (n, f n))
    (hnew : ∀ name ∉ xs, f name = .empty) :
    (names.foldl touch d).nodes = (xs ++ names).eraseDups.map fun n => (n, f n) := by
  induction names generalizing d xs with
  | nil => rwa [List.append_nil]
  | cons name names ih =>
    have hsame : ∀ n, (if n = name then (f n).insertAll Attributes.empty.entries else f n) = f n :=
      fun n => ite_id ..
    have hstep : (d.touch name).nodes = (xs ++ [name]).eraseDups.map fun n => (n, f n) := by
      have hmerge := nodes_merge h (hnew name) .empty
      simp only [hsame] at hmerge
      exact hmerge
    rw [List.foldl_cons, ih hstep fun m hm => hnew m fun hx => hm (by simp [hx]),
      List.append_assoc, List.singleton_append]

theorem edges_foldl_touch (names : List String) (d : Draft) :
    (names.foldl touch d).edges = d.edges := by
  induction names generalizing d with
  | nil => rfl
  | cons name names ih => rw [List.foldl_cons, ih]; rfl

theorem chainEdges_eq (label : String) (line : Nat) (names : List String) :
    chainEdges label line names
      = (names.zip names.tail).map fun p => ⟨p.1, p.2, label, line⟩ := by
  fun_induction chainEdges label line names with
  | case1 a b rest ih => simpa using ih
  | case2 names h =>
    match names with
    | [] => rfl
    | [_] => rfl
    | a :: b :: rest => exact absurd rfl (h a b rest)

theorem given_of_notMem (h : name ∉ ss.flatMap Statement.names) : given ss name = [] := by
  refine List.flatMap_eq_nil_iff.mpr fun s hs => ?_
  cases s with
  | node name' attributes =>
    refine if_neg ?_
    rintro rfl
    exact h (List.mem_flatMap.mpr ⟨_, hs, List.mem_singleton.mpr rfl⟩)
  | _ => rfl

/-- The draft of some statements has their nodes with what is given to each. -/
theorem nodes_ofStatements (ss : List Statement) :
    (ofStatements ss).nodes = (nodeNames ss).map fun name => (name, .ofList (given ss name)) := by
  induction ss using List.reverseRecOn with
  | nil => rfl
  | append_singleton ss s ih =>
    have hnew : ∀ name ∉ ss.flatMap Statement.names,
        Attributes.ofList (given ss name) = .empty := fun name h => by rw [given_of_notMem h]; rfl
    have hgiven : ∀ name, given (ss ++ [s]) name = given ss name ++ s.givenTo name := by
      simp [given]
    have hstep : ofStatements (ss ++ [s]) = (ofStatements ss).apply s := by
      rw [ofStatements, List.foldl_append]
      rfl
    rw [hstep, nodeNames, List.flatMap_append, List.flatMap_singleton]
    simp only [hgiven, Attributes.ofList_append]
    cases s with
    | defaults => rwa [Statement.names, List.append_nil]
    | assignment => rwa [Statement.names, List.append_nil]
    | node name attributes =>
      rw [apply, nodes_merge ih (hnew name)]
      refine List.map_congr_left fun n _ => ?_
      by_cases h : n = name
      · simp [Statement.givenTo, h]
      · simp [Statement.givenTo, h, Ne.symm h, Attributes.insertAll]
    | chain names attributes line => exact nodes_foldl_touch names ih hnew

/-- The draft of some statements has their edges. -/
theorem edges_ofStatements (ss : List Statement) :
    (ofStatements ss).edges = ss.flatMap Statement.edges := by
  induction ss using List.reverseRecOn with
  | nil => rfl
  | append_singleton ss s ih =>
    rw [ofStatements, List.foldl_append, List.flatMap_append, List.flatMap_singleton, ← ih]
    cases s with
    | defaults => exact (List.append_nil _).symm
    | assignment => exact (List.append_nil _).symm
    | node name attributes => exact (List.append_nil _).symm
    | chain names attributes line =>
      simp only [List.foldl_cons, List.foldl_nil, apply, edges_foldl_touch, chainEdges_eq]
      rfl

/-- The graph of some statements is the one that has what they say. -/
theorem toGraph_eq_ok_iff_means : (ofStatements ss).toGraph = .ok g ↔ Means ss g := by
  have hnames : (ofStatements ss).names = nodeNames ss := by
    rw [names, nodes_ofStatements, List.map_map]
    exact List.map_id _
  -- A vertex is known from its label and its attributes as a list.
  have hinjective : Function.Injective fun v : Vertex => (v.label, v.attributes.entries) := by
    rintro ⟨label, attributes⟩ ⟨label', attributes'⟩ h
    obtain ⟨rfl, hentries⟩ := Prod.mk.inj h
    exact congrArg (Vertex.mk label) (Attributes.eq_of_entries hentries)
  have hvertex : ∀ name, (fun v : Vertex => (v.label, v.attributes.entries))
      (vertexOf (.ofList (given ss name)))
        = ((Attributes.lastValue? labelName (given ss name)).getD "",
          (Attributes.merged (given ss name)).filter fun e =>
            e.1 ≠ labelName ∧ e.1 ≠ identityName) := by
    intro name
    simp only [vertexOf, Attributes.entries_erase_erase, Attributes.find?_ofList,
      Attributes.entries_ofList_eq]
  rw [toGraph_eq_ok_iff, nodes_ofStatements, edges_ofStatements, List.map_map]
  constructor
  · rintro ⟨hvertices, hedges⟩
    refine ⟨?_, ?_⟩
    · rw [hvertices, List.map_map]
      exact List.map_congr_left fun name _ => hvertex name
    · rw [hedges]
      exact List.map_congr_left fun e _ => by rw [numbered, hnames]
  · rintro ⟨hvertices, hedges⟩
    refine ⟨List.map_injective_iff.mpr hinjective ?_, ?_⟩
    · rw [hvertices, List.map_map]
      exact List.map_congr_left fun name _ => (hvertex name).symm
    · rw [hedges]
      exact List.map_congr_left fun e _ => by rw [numbered, hnames]

end Draft

/-- A graph text is read exactly if its tokens are derived by the grammar and there is a graph
that has what its statements say; then that graph is read. -/
theorem readGraph_exact :
    (∀ toks ss, readDocument toks = .ok ss ↔ Document toks ss)
      ∧ (∀ ss g, (Draft.ofStatements ss).toGraph = .ok g ↔ Means ss g)
      ∧ ∀ firstLine text g, readGraph firstLine text = .ok g
          ↔ ∃ toks ss, tokens firstLine text = .ok toks ∧ Document toks ss ∧ Means ss g := by
  refine ⟨fun _ _ => readDocument_eq_ok_iff, fun _ _ => Draft.toGraph_eq_ok_iff_means,
    fun firstLine text g => ?_⟩
  simp only [readGraph_eq_ok_iff, readDocument_eq_ok_iff, Draft.toGraph_eq_ok_iff_means]
  rfl

end Dot

end GraphDependency
