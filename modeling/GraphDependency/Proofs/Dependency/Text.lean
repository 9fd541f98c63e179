import GraphDependency.Proofs.Dependency.Literal
import GraphDependency.Proofs.Dot.RoundTrip
import GraphDependency.Proofs.Validation.Indexed

set_option autoImplicit false

/-!
# Written dependencies

A dependency is read back from its text if its literals can be: the first two lines are the
premises and the conclusion, and the pattern is the graph that follows.  The pattern that is
read lacks attributes at most, and these do not matter to any embedding.

Literals are not quoted.  So some dependencies are lost in their text, or change in it.

Main statements: `Dependency.violated_congr`, `readDependency_writeDependency`, and two
dependencies that do not survive, `readDependency_blank` and `exists_readDependency_ne`.
-/

namespace GraphDependency

open GraphDependency.Text GraphDependency.Matching

/-! ## Dependencies that mean the same -/

/-- Embeddings depend on the labels and the edges of the pattern. -/
theorem Matching.Query.IsEmbedding.congr {pattern pattern' data : Graph} {m : Embedding}
    (h : (Query.plain pattern data).IsEmbedding m) (hsize : pattern'.size = pattern.size)
    (hlabel : ∀ u, pattern'.label u = pattern.label u) (hedges : pattern'.edges = pattern.edges) :
    (Query.plain pattern' data).IsEmbedding m where
  nonempty := hsize ▸ h.nonempty
  size_eq := h.size_eq.trans hsize.symm
  image_lt u hu := h.image_lt u (hsize ▸ hu)
  injective u hu w hw := h.injective u (hsize ▸ hu) w (hsize ▸ hw)
  label_eq u hu := (h.label_eq u (hsize ▸ hu)).trans (hlabel u).symm
  vertex_ok _ _ := rfl
  edge_ok e he := h.edge_ok e (hedges ▸ he)

namespace Dependency

variable {d d' : Dependency}

/-- A dependency means the same whatever the attributes of its pattern. -/
theorem violated_congr (hpremises : d'.premises = d.premises)
    (hconclusion : d'.conclusion = d.conclusion) (hsize : d'.pattern.size = d.pattern.size)
    (hlabel : ∀ u, d'.pattern.label u = d.pattern.label u)
    (hedges : d'.pattern.edges = d.pattern.edges) (data : Graph) :
    d'.Violated data ↔ d.Violated data := by
  refine exists_congr fun m => ⟨fun h => ?_, fun h => ?_⟩
  · exact ⟨h.embedding.congr hsize.symm (fun u => (hlabel u).symm) hedges.symm,
      hpremises ▸ h.premises, hconclusion ▸ h.conclusion⟩
  · exact ⟨h.embedding.congr hsize hlabel hedges, hpremises ▸ h.premises,
      hconclusion ▸ h.conclusion⟩

end Dependency

/-! ## Patterns of one vertex -/

/-- One vertex. -/
def Graph.point (vertex : Vertex) : Graph where
  vertices := #[vertex]
  edges := #[]
  incidence := incidenceTable 1 #[]
  incidence_eq := rfl
  inRange := by simp
  loopless := Graph.empty.loopless
  simple := Graph.empty.simple

/-- Every vertex with a label satisfies a literal. -/
def Dependency.onVertex (label : String) (l : Literal) (h : l.InRange 1) : Dependency where
  pattern := Graph.point ⟨label, .empty⟩
  premises := []
  conclusion := [l]
  inRange := by simpa [Graph.point, Graph.size] using h
  connected := rfl

/-! ## Reading what was written -/

theorem splitLine_append {line rest : List Char} (h : '\n' ∉ line) :
    splitLine (line ++ '\n' :: rest) = (line, rest) := by
  rw [splitLine, splitAtFirst_eq_some_iff.mpr ⟨rfl, h⟩, Option.getD_some]

/-- The premises and the conclusion stand on the first two lines, and the pattern behind them. -/
theorem readDependency_eq (text : String) :
    readDependency text
      = (parseLiteralLine 1 (splitLine text.toList).1).bind fun premises =>
          (parseLiteralLine 2 (splitLine (splitLine text.toList).2).1).bind fun conclusion =>
            ((Dot.readGraph 3 (String.ofList (splitLine (splitLine text.toList).2).2)).mapError
                .pattern).bind fun pattern =>
              (Dependency.ofParts pattern premises conclusion).mapError .malformed :=
  rfl

/-- A text with two lines in front is read line by line. -/
theorem readDependency_lines {text : String} {first second rest : List Char}
    (htext : text.toList = first ++ '\n' :: (second ++ '\n' :: rest))
    (hfirst : '\n' ∉ first) (hsecond : '\n' ∉ second) :
    readDependency text
      = (parseLiteralLine 1 first).bind fun premises =>
          (parseLiteralLine 2 second).bind fun conclusion =>
            ((Dot.readGraph 3 (String.ofList rest)).mapError .pattern).bind fun pattern =>
              (Dependency.ofParts pattern premises conclusion).mapError .malformed := by
  rw [readDependency_eq, htext, splitLine_append hfirst]
  simp only [splitLine_append hsecond]

theorem toList_writeDependency (d : Dependency) :
    (writeDependency d).toList = (writeLiterals d.premises).toList
      ++ '\n' :: ((writeLiterals d.conclusion).toList
        ++ '\n' :: (Dot.writeGraph d.pattern).toList) := by
  simp [writeDependency]

theorem label_eq_of_vertices {g g' : Graph} (h : g'.vertices = g.vertices.map Dot.writtenVertex)
    (u : Nat) : g'.label u = g.label u := by
  simp [Graph.label, Graph.label?, Graph.vertex?, h, Function.comp_def, Dot.writtenVertex]

/-- Parts that make a dependency are its parts. -/
theorem ofParts_eq_ok_iff {pattern : Graph} {premises conclusion : List Literal}
    {d : Dependency} :
    Dependency.ofParts pattern premises conclusion = .ok d
      ↔ pattern = d.pattern ∧ premises = d.premises ∧ conclusion = d.conclusion := by
  constructor
  · intro h
    unfold Dependency.ofParts at h
    split at h
    · cases h
    · split at h
      · cases h
        exact ⟨rfl, rfl, rfl⟩
      · cases h
  · rintro ⟨rfl, rfl, rfl⟩
    unfold Dependency.ofParts
    split
    · rename_i l i hmissing
      rw [Dependency.firstMissing?_eq_none_iff.mpr d.inRange] at hmissing
      cases hmissing
    · exact dif_pos d.connected

/-- If all literals are read back, what is left is the pattern. -/
theorem readDependency_written {d : Dependency} {pattern : Graph}
    (h : ∀ l ∈ d.premises ++ d.conclusion, l.Readable)
    (hread : Dot.readGraph 3 (Dot.writeGraph d.pattern) = .ok pattern) :
    readDependency (writeDependency d)
      = (Dependency.ofParts pattern d.premises d.conclusion).mapError .malformed := by
  obtain ⟨hpremises, hconclusion⟩ := List.forall_mem_append.mp h
  rw [readDependency_lines (toList_writeDependency d) (newline_notMem_writeLiterals hpremises)
    (newline_notMem_writeLiterals hconclusion), parseLiteralLine, parseLiteralLine,
    parseLiterals_writeLiterals hpremises, parseLiterals_writeLiterals hconclusion,
    String.ofList_toList, hread]
  rfl

/-- A dependency whose literals have readable texts is read back, with all that matters. -/
theorem exists_readDependency {d : Dependency}
    (h : ∀ l ∈ d.premises ++ d.conclusion, l.Readable) :
    ∃ d', readDependency (writeDependency d) = .ok d'
      ∧ d'.premises = d.premises ∧ d'.conclusion = d.conclusion
      ∧ ∀ data, d'.Violated data ↔ d.Violated data := by
  obtain ⟨pattern, hread, hvertices, hedges⟩ := Dot.readGraph_writeGraph 3 d.pattern
  have hsize : pattern.size = d.pattern.size := by
    rw [Graph.size, hvertices, Array.size_map, Graph.size]
  have hrange : ∀ l ∈ d.premises ++ d.conclusion, l.InRange pattern.size := hsize ▸ d.inRange
  have hconn : pattern.isConnected = true :=
    (Graph.isConnected_congr hsize hedges).trans d.connected
  refine ⟨⟨pattern, d.premises, d.conclusion, hrange, hconn⟩, ?_, rfl, rfl,
    Dependency.violated_congr rfl rfl hsize (label_eq_of_vertices hvertices) hedges⟩
  rw [readDependency_written h hread, mapError_eq_ok_iff, ofParts_eq_ok_iff]
  exact ⟨rfl, rfl, rfl⟩

/-- A dependency whose literals have readable texts is read back with the same literals, and
every check of what was read has the outcome that it had before. -/
theorem readDependency_writeDependency (d : Dependency)
    (h : ∀ l ∈ d.premises ++ d.conclusion, l.Readable) :
    ∃ d', readDependency (writeDependency d) = .ok d'
      ∧ d'.premises = d.premises ∧ d'.conclusion = d.conclusion
      ∧ ∀ data, (Validation.checkExhaustive data d').1 = (Validation.checkExhaustive data d).1
        ∧ (Validation.checkIndexed data d').1 = (Validation.checkIndexed data d).1 := by
  obtain ⟨d', hread, hpremises, hconclusion, hviolated⟩ := exists_readDependency h
  refine ⟨d', hread, hpremises, hconclusion, fun data => ⟨?_, ?_⟩⟩
  · apply Validation.outcome_ext
    rw [Validation.checkExhaustive_iff, Validation.checkExhaustive_iff, hviolated]
  · apply Validation.outcome_ext
    rw [Validation.checkIndexed_iff, Validation.checkIndexed_iff, hviolated]

/-- A constant that is a word survives. -/
theorem readDependency_writeDependency_word :
    let d := Dependency.onVertex "person" ⟨.vertex 0 "name", .constant "Joel"⟩ (by decide)
    (∀ l ∈ d.premises ++ d.conclusion, l.Readable)
      ∧ ∃ d', readDependency (writeDependency d) = .ok d' ∧ d'.conclusion = d.conclusion := by
  intro d
  have hreadable : ∀ l ∈ d.premises ++ d.conclusion, l.Readable := by decide
  obtain ⟨d', hread, -, hconclusion, -⟩ := readDependency_writeDependency d hreadable
  exact ⟨hreadable, d', hread, hconclusion⟩

/-! ## What is not read back -/

/-- A constant with a blank falls apart. -/
theorem readDependency_blank :
    let d := Dependency.onVertex "person" ⟨.vertex 0 "name", .constant "Joel Coen"⟩ (by decide)
    readDependency (writeDependency d) = .error (.literal 2 (.noEquals "Coen")) := by
  intro d
  have hpremises : parseLiterals (writeLiterals d.premises).toList = .ok [] :=
    parseLiterals_writeLiterals nofun
  have hwords : words (writeLiterals d.conclusion).toList = ["0.name=Joel".toList, "Coen".toList] :=
    words_intercalate ["0.name=Joel", "Coen"] (by decide) (by decide)
  have hconclusion :
      parseLiterals (writeLiterals d.conclusion).toList = .error (.noEquals "Coen") := by
    rw [parseLiterals, hwords]
    rfl
  rw [readDependency_lines (toList_writeDependency d) (by decide) (by decide), parseLiteralLine,
    hpremises, parseLiteralLine, hconclusion]
  rfl

/-- A constant that looks like an attribute is read as one.  Then a person whose version is
the text in question, but not the name, no longer satisfies what was written. -/
theorem exists_readDependency_ne :
    ∃ d d' data, readDependency (writeDependency d) = .ok d'
      ∧ (Validation.checkExhaustive data d).1 = .holds
      ∧ (Validation.checkExhaustive data d').1 = .violated := by
  let toText : Literal := ⟨.vertex 0 "version", .constant "0.name"⟩
  let toName : Literal := ⟨.vertex 0 "version", .vertex 0 "name"⟩
  have hsame : writeDependency (.onVertex "person" toText (by decide))
      = writeDependency (.onVertex "person" toName (by decide)) := rfl
  obtain ⟨d', hread, -, -, hviolated⟩ := exists_readDependency
    (d := .onVertex "person" toName (by decide)) (by decide)
  let data := Graph.point ⟨"person", .ofList [("version", "0.name"), ("name", "Joel")]⟩
  refine ⟨.onVertex "person" toText (by decide), d', data, hsame ▸ hread, ?_, ?_⟩
  · decide +kernel
  · rw [Validation.checkExhaustive_iff, hviolated, ← Validation.checkExhaustive_iff]
    decide +kernel

end GraphDependency
