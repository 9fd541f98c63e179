import Mathlib.Data.List.Forall2
import GraphDependency.Proofs.Dot.Grammar
import GraphDependency.Proofs.Dot.Lexer

set_option autoImplicit false

/-!
# The statements of a written graph

The grammar derives the tokens of a line as one statement: a node with its attributes, or a
chain of two nodes.  The lines on which tokens stand show in messages only, and in the
statement of an edge, which keeps its line for one.

Main statements: `says_node`, `says_chain` and `readDocument_written`.
-/

namespace GraphDependency.Dot

variable {ls rest : List Lexeme} {t : Token} {toks : List Token} {e : String × String}
  {es fs : List (String × String)}

theorem eq_cons_of_map_token (h : ls.map Lexeme.token = t :: toks) :
    ∃ n ls', ls = ⟨t, n⟩ :: ls' ∧ ls'.map Lexeme.token = toks := by
  obtain ⟨⟨t', n⟩, ls', rfl, rfl, hmap⟩ := List.map_eq_cons_iff.mp h
  exact ⟨n, ls', rfl, hmap⟩

/-! ## Attributes -/

theorem Entries.written_entry (hrest : Entries rest fs) (h : ls.map Lexeme.token = entryTokens e) :
    Entries (ls ++ rest) (e :: fs) := by
  obtain ⟨n₁, ls₁, rfl, h₁⟩ := eq_cons_of_map_token h
  obtain ⟨n₂, ls₂, rfl, h₂⟩ := eq_cons_of_map_token h₁
  obtain ⟨n₃, ls₃, rfl, h₃⟩ := eq_cons_of_map_token h₂
  obtain rfl := List.map_eq_nil_iff.mp h₃
  exact .entry (name?_nameToken e.1) rfl (name?_nameToken e.2) hrest

theorem entries_written (h : ls.map Lexeme.token = es.flatMap fun e => .comma :: entryTokens e) :
    Entries ls es := by
  induction es generalizing ls with
  | nil =>
    obtain rfl := List.map_eq_nil_iff.mp h
    exact .nil
  | cons e es ih =>
    obtain ⟨first, behind, rfl, hfirst, hbehind⟩ := List.map_eq_append_iff.mp h
    obtain ⟨n, entry, rfl, hentry⟩ := eq_cons_of_map_token hfirst
    exact .separator (Or.inl rfl) ((ih hbehind).written_entry hentry)

/-- The attributes in brackets are one group. -/
theorem groups_written (h : ls.map Lexeme.token = groupTokens e es) : Groups ls (e :: es) := by
  obtain ⟨n₁, ls₁, rfl, h₁⟩ := eq_cons_of_map_token h
  obtain ⟨entries, close, rfl, hentries, hclose⟩ := List.map_eq_append_iff.mp h₁
  obtain ⟨first, behind, rfl, hfirst, hbehind⟩ := List.map_eq_append_iff.mp hentries
  obtain ⟨n₂, nothing, rfl, hnil⟩ := eq_cons_of_map_token hclose
  obtain rfl := List.map_eq_nil_iff.mp hnil
  rw [← List.append_nil (e :: es)]
  exact .group rfl ((entries_written hbehind).written_entry hfirst) rfl .nil

/-! ## Statements -/

/-- A written name is no word that begins a statement of its own. -/
theorem heads_nameToken (name : String) (n : Nat) : Heads ⟨nameToken name, n⟩ name := by
  have hwords : ∀ word ∈ defaultWords, word ∈ keywords := by decide
  exact ⟨name?_nameToken name, fun h => keyword?_nameToken h (by decide), fun word hword h =>
    keyword?_nameToken h (hwords word hword)⟩

/-- A line with one name is a node. -/
theorem says_node {name : String} (h : ls.map Lexeme.token = nameToken name :: groupTokens e es) :
    Says ls (.node name (Attributes.ofList (e :: es))) := by
  obtain ⟨n, groups, rfl, hgroups⟩ := eq_cons_of_map_token h
  exact .node (heads_nameToken name n) (groups_written hgroups)

/-- A line with two names is a chain. -/
theorem says_chain {a b : String}
    (h : ls.map Lexeme.token = nameToken a :: .edgeOp :: nameToken b :: groupTokens e es) :
    ∃ line, Says ls (.chain [a, b] (Attributes.ofList (e :: es)) line) := by
  obtain ⟨n₁, ls₁, rfl, h₁⟩ := eq_cons_of_map_token h
  obtain ⟨n₂, ls₂, rfl, h₂⟩ := eq_cons_of_map_token h₁
  obtain ⟨n₃, groups, rfl, hgroups⟩ := eq_cons_of_map_token h₂
  exact ⟨n₁, .chain (heads_nameToken a n₁) (.link rfl (name?_nameToken b) .nil)
    (List.cons_ne_nil _ _) (groups_written hgroups)⟩

/-! ## The body -/

/-- Lines of one kind are statements one after the other. -/
theorem body_lines {α : Type} {lineTokens : α → List Token} {P : α → Statement → Prop}
    (hline : ∀ x ls, ls.map Lexeme.token = lineTokens x → ∃ s, P x s ∧ Says ls s) {xs : List α}
    (h : ls.map Lexeme.token = xs.flatMap fun x => lineTokens x ++ [.semicolon])
    {behind : List Statement} (hrest : Body rest behind) :
    ∃ ss, List.Forall₂ P xs ss ∧ Body (ls ++ rest) (ss ++ behind) := by
  induction xs generalizing ls with
  | nil =>
    obtain rfl := List.map_eq_nil_iff.mp h
    exact ⟨[], .nil, hrest⟩
  | cons x xs ih =>
    obtain ⟨closed, lines, rfl, hclosed, hlines⟩ := List.map_eq_append_iff.mp h
    obtain ⟨line, close, rfl, hfirst, hclose⟩ := List.map_eq_append_iff.mp hclosed
    obtain ⟨n, nothing, rfl, hnil⟩ := eq_cons_of_map_token hclose
    obtain rfl := List.map_eq_nil_iff.mp hnil
    obtain ⟨ss, hss, hbody⟩ := ih hlines
    obtain ⟨s, hs, hsays⟩ := hline x line hfirst
    refine ⟨s :: ss, .cons hs hss, ?_⟩
    rw [List.append_assoc, List.append_assoc]
    exact .statement hsays (.semicolon rfl hbody)

/-- The statement of the line of a vertex. -/
def vertexStatement (id : Nat) (v : Vertex) : Statement :=
  .node (toString id) (Attributes.ofList ((labelName, v.label) :: writtenEntries v))

/-- The statement of the line of an edge, whatever its line. -/
def SaysEdge (e : Edge) (s : Statement) : Prop :=
  ∃ line, s = .chain [toString e.first, toString e.second]
    (Attributes.ofList [(labelName, e.label)]) line

/-- The tokens of a written graph are read as the statements of its vertices and edges. -/
theorem readDocument_written (g : Graph) (h : ls.map Lexeme.token = graphTokens g) :
    ∃ edges, List.Forall₂ SaysEdge g.edges.toList edges
      ∧ readDocument ls
        = .ok ((g.vertices.toList.zipIdx.map fun p => vertexStatement p.2 p.1) ++ edges) := by
  obtain ⟨n₁, ls₁, rfl, h₁⟩ := eq_cons_of_map_token h
  obtain ⟨n₂, ls₂, rfl, h₂⟩ := eq_cons_of_map_token h₁
  obtain ⟨n₃, ls₃, rfl, h₃⟩ := eq_cons_of_map_token h₂
  obtain ⟨lines, close, rfl, hlines, hclose⟩ := List.map_eq_append_iff.mp h₃
  obtain ⟨vertices, edges, rfl, hvertices, hedges⟩ := List.map_eq_append_iff.mp hlines
  obtain ⟨n₄, nothing, rfl, hnil⟩ := eq_cons_of_map_token hclose
  obtain rfl := List.map_eq_nil_iff.mp hnil
  obtain ⟨chains, hchains, hbody⟩ := body_lines (P := SaysEdge) (fun e ls h => by
    obtain ⟨line, hsays⟩ := says_chain h
    exact ⟨_, ⟨line, rfl⟩, hsays⟩) hedges .nil
  obtain ⟨nodes, hnodes, hbody⟩ := body_lines (P := fun p s => vertexStatement p.2 p.1 = s)
    (fun p ls h => ⟨_, rfl, says_node h⟩) hvertices hbody
  have hnodes : g.vertices.toList.zipIdx.map (fun p => vertexStatement p.2 p.1) = nodes := by
    rwa [← List.forall₂_eq_eq_eq, List.forall₂_map_left_iff]
  rw [List.append_nil, List.append_nil, ← hnodes] at hbody
  refine ⟨chains, hchains, readDocument_eq_ok_iff.mpr ?_⟩
  exact @Document.intro none (some ⟨.word "G", n₂⟩) _ _ _ _ _ nofun (Or.inl rfl)
    (fun l hl => ⟨"G", by cases hl; rfl⟩) rfl hbody rfl

end GraphDependency.Dot
