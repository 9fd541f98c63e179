import GraphDependency.Proofs.Dependency.Text

set_option autoImplicit false

/-!
# Which dependencies have a text

A term has a text that stands for it if the text is not empty, holds no blank and is read as
the term.  These terms are the ones that reading gives: whatever a text says, the literals
that are read from it can be written and read again.  So a dependency with any other term is
lost in its text, however its parts may fall together there.

Main statements: `readable_of_readDependency`, `readDependency_again` and
`writeDependency_exact`.
-/

namespace GraphDependency

open GraphDependency.Text

/-! ## Terms that have a text -/

/-- The text of the term can be read, and is read as the term. -/
structure Term.Representable (t : Term) : Prop where
  text_ne_empty : t.text ≠ ""
  unbroken : Unbroken t.text
  parsed : parseTerm t.text.toList = t

/-- The text is a number of 64 binary digits, a point and something more. -/
def IsVertexText (cs : List Char) : Prop :=
  ∃ before index after, cs = before ++ '.' :: after ∧ IsNumeral index before
    ∧ index ≤ max64 ∧ after ≠ []

namespace Term

variable {t : Term} {index : Nat} {name value : String} {cs : List Char} {c : Char}

/-- A text is read as an attribute of a vertex only if it looks like one. -/
theorem parseTerm_eq_vertex_iff :
    parseTerm cs = .vertex index name ↔ parseVertexTerm? cs = some (.vertex index name) := by
  rw [parseTerm, Option.getD_eq_iff]
  simp

theorem parseTerm_eq_constant_iff :
    parseTerm cs = .constant (String.ofList cs) ↔ ¬IsVertexText cs := by
  constructor
  · intro h ⟨before, index, after, hcs, hnumeral, hle, hafter⟩
    have hvertex : parseTerm cs = .vertex index (String.ofList after) :=
      parseTerm_eq_vertex_iff.mpr
        (parseVertexTerm?_eq_some_iff.mpr ⟨before, index, after, hcs, hnumeral, hle, hafter, rfl⟩)
    rw [h] at hvertex
    cases hvertex
  · intro h
    cases hparse : parseVertexTerm? cs with
    | none => rw [parseTerm, hparse, Option.getD_none]
    | some t =>
      obtain ⟨before, index, after, hcs, hnumeral, hle, hafter, -⟩ :=
        parseVertexTerm?_eq_some_iff.mp hparse
      exact absurd ⟨before, index, after, hcs, hnumeral, hle, hafter⟩ h

/-- The text of an attribute is read as the attribute if the name is not empty. -/
theorem parseTerm_vertex_iff (hindex : index ≤ max64) :
    parseTerm (Term.vertex index name).text.toList = .vertex index name ↔ name ≠ "" := by
  rw [parseTerm_eq_vertex_iff]
  constructor
  · intro h
    obtain ⟨before, index', after, -, -, -, hafter, ht⟩ := parseVertexTerm?_eq_some_iff.mp h
    cases ht
    simpa using hafter
  · exact parseVertexTerm?_text hindex

/-- The text of a constant is read as the constant unless it looks like an attribute. -/
theorem parseTerm_constant_iff :
    parseTerm (Term.constant value).text.toList = .constant value
      ↔ ¬IsVertexText value.toList := by
  rw [← parseTerm_eq_constant_iff, String.ofList_toList]
  rfl

/-- A text without blanks is read as a term that is read back from its own text. -/
theorem readable_parseTerm (hne : cs ≠ []) (hcs : ∀ c ∈ cs, isBlank c = false) :
    (parseTerm cs).Readable := by
  cases hparse : parseVertexTerm? cs with
  | some t =>
    obtain ⟨before, index, after, rfl, -, hle, hafter, rfl⟩ :=
      parseVertexTerm?_eq_some_iff.mp hparse
    rw [parseTerm, hparse, Option.getD_some]
    refine ⟨hle, by simpa using hafter, fun c hc => hcs c ?_⟩
    rw [String.toList_ofList] at hc
    exact List.mem_append_right _ (List.mem_cons_of_mem _ hc)
  | none =>
    rw [parseTerm, hparse, Option.getD_none]
    refine ⟨by simpa using hne, fun c hc => hcs c ?_, ?_⟩
    · rwa [String.toList_ofList] at hc
    · rwa [String.toList_ofList]

/-- The text of a term that was read has the characters of what was read, and digits. -/
theorem mem_text_parseTerm (h : c ∈ (parseTerm cs).text.toList) : c.isDigit = true ∨ c ∈ cs := by
  cases hparse : parseVertexTerm? cs with
  | some t =>
    obtain ⟨before, index, after, rfl, -, -, -, rfl⟩ := parseVertexTerm?_eq_some_iff.mp hparse
    rw [parseTerm, hparse, Option.getD_some, toList_text_vertex, String.toList_ofList] at h
    cases List.mem_append.mp h with
    | inl hindex => exact .inl (isDigit_of_mem_toString hindex)
    | inr hrest => exact .inr (List.mem_append_right _ hrest)
  | none =>
    rw [parseTerm, hparse, Option.getD_none, text, String.toList_ofList] at h
    exact .inr h

theorem representable_iff_readable : t.Representable ↔ t.Readable := by
  constructor
  · intro h
    have hne : t.text.toList ≠ [] := by simpa using h.text_ne_empty
    exact h.parsed ▸ readable_parseTerm hne h.unbroken
  · intro h
    exact ⟨by simpa using h.text_ne_nil, h.unbroken, h.parseTerm_text⟩

end Term

/-! ## Literals that have a text -/

/-- The text of the literal is parted between its sides, which have a text. -/
structure Literal.Representable (l : Literal) : Prop where
  lhs : l.lhs.Representable
  rhs : l.rhs.Representable
  parted : '=' ∉ l.lhs.text.toList

namespace Literal

theorem representable_iff_readable {l : Literal} : l.Representable ↔ l.Readable := by
  constructor
  · intro h
    exact ⟨Term.representable_iff_readable.mp h.lhs, Term.representable_iff_readable.mp h.rhs,
      h.parted⟩
  · intro h
    exact ⟨Term.representable_iff_readable.mpr h.lhs, Term.representable_iff_readable.mpr h.rhs,
      h.parted⟩

end Literal

/-- A literal that is read from a text without blanks is read back from its own text. -/
theorem readable_of_parseLiteral {cs : List Char} {l : Literal}
    (hcs : ∀ c ∈ cs, isBlank c = false) (h : parseLiteral cs = .ok l) : l.Readable := by
  unfold parseLiteral at h
  split at h
  · cases h
  · rename_i lhs rhs hsplit
    obtain ⟨rfl, hparted⟩ := splitAtFirst_eq_some_iff.mp hsplit
    split at h
    · cases h
    · rename_i hempty
      cases h
      obtain ⟨hlhs, hrhs⟩ : lhs ≠ [] ∧ rhs ≠ [] := by simpa using hempty
      refine ⟨Term.readable_parseTerm hlhs fun c hc => hcs c ?_,
        Term.readable_parseTerm hrhs fun c hc => hcs c ?_, fun hmem => ?_⟩
      · exact List.mem_append_left _ hc
      · exact List.mem_append_right _ (List.mem_cons_of_mem _ hc)
      · cases Term.mem_text_parseTerm hmem with
        | inl hdigit => exact absurd hdigit (by decide)
        | inr hmem => exact hparted hmem

/-- Every literal of a line is read back from its own text. -/
theorem readable_of_parseLiterals {cs : List Char} {literals : List Literal}
    (h : parseLiterals cs = .ok literals) : ∀ l ∈ literals, l.Readable := by
  intro l hl
  obtain ⟨word, hword, hparse⟩ := exists_of_mapM_eq_ok h l hl
  exact readable_of_parseLiteral (fun c hc => not_isBlank_of_mem_words hword hc) hparse

/-! ## Dependencies that have a text -/

/-- What is read comes from the two lines and the graph behind them. -/
theorem exists_lines_of_readDependency {text : String} {d : Dependency}
    (h : readDependency text = .ok d) :
    ∃ first second rest, parseLiterals first = .ok d.premises
      ∧ parseLiterals second = .ok d.conclusion ∧ Dot.readGraph 3 rest = .ok d.pattern := by
  rw [readDependency_eq] at h
  simp only [parseLiteralLine, bind_eq_ok_iff, mapError_eq_ok_iff] at h
  obtain ⟨premises, hpremises, conclusion, hconclusion, pattern, hpattern, hparts⟩ := h
  obtain ⟨rfl, rfl, rfl⟩ := ofParts_eq_ok_iff.mp hparts
  exact ⟨_, _, _, hpremises, hconclusion, hpattern⟩

/-- The literals that are read from a text are read back from their own texts. -/
theorem readable_of_readDependency {text : String} {d : Dependency}
    (h : readDependency text = .ok d) : ∀ l ∈ d.premises ++ d.conclusion, l.Readable := by
  obtain ⟨first, second, rest, hpremises, hconclusion, -⟩ := exists_lines_of_readDependency h
  exact List.forall_mem_append.mpr
    ⟨readable_of_parseLiterals hpremises, readable_of_parseLiterals hconclusion⟩

/-- A dependency that was read, from whatever text, is read back as it is. -/
theorem readDependency_again {text : String} {d : Dependency}
    (h : readDependency text = .ok d) : readDependency (writeDependency d) = .ok d := by
  obtain ⟨first, second, rest, -, -, hpattern⟩ := exists_lines_of_readDependency h
  rw [readDependency_written (readable_of_readDependency h) (Dot.readGraph_again hpattern),
    mapError_eq_ok_iff, ofParts_eq_ok_iff]
  exact ⟨rfl, rfl, rfl⟩

/-- A dependency is read back with its literals if and only if all of its terms have a text
that stands for them, and no left side is parted by it.  Reading gives such terms only, so
what was read from any text is written and read again without a change.  An attribute has a
text that stands for it if its name is not empty, and a constant unless it looks like an
attribute. -/
theorem writeDependency_exact :
    (∀ d : Dependency,
        (∃ d', readDependency (writeDependency d) = .ok d'
            ∧ d'.premises = d.premises ∧ d'.conclusion = d.conclusion)
          ↔ ∀ l ∈ d.premises ++ d.conclusion, l.Representable)
      ∧ (∀ text d, readDependency text = .ok d →
          (∀ l ∈ d.premises ++ d.conclusion, l.Representable)
            ∧ readDependency (writeDependency d) = .ok d)
      ∧ (∀ index name, index ≤ max64 →
          (parseTerm (Term.vertex index name).text.toList = .vertex index name ↔ name ≠ ""))
      ∧ ∀ value, parseTerm (Term.constant value).text.toList = .constant value
          ↔ ¬IsVertexText value.toList := by
  simp only [Literal.representable_iff_readable]
  refine ⟨fun d => ⟨?kept, ?found⟩, ?read, fun index name => Term.parseTerm_vertex_iff,
    fun value => Term.parseTerm_constant_iff⟩
  case kept =>
    -- The literals of `d` were read from some text, so it does not matter how its own text
    -- would be parted.
    intro ⟨d', hread, hpremises, hconclusion⟩
    rw [← hpremises, ← hconclusion]
    exact readable_of_readDependency hread
  case found =>
    intro h
    obtain ⟨d', hread, hpremises, hconclusion, -⟩ := exists_readDependency h
    exact ⟨d', hread, hpremises, hconclusion⟩
  case read =>
    intro text d h
    exact ⟨readable_of_readDependency h, readDependency_again h⟩

end GraphDependency
