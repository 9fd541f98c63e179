import GraphDependency.Proofs.Dependency.Text
import GraphDependency.Proofs.Dot.Lines

set_option autoImplicit false

/-!
# The lines of dependency text

The pattern of a dependency text begins on its third line.  What is wrong with the pattern is
reported two lines further down than in the graph text alone, so lines count from the start of
the whole text.  The exception is a pattern without any token, which has no line to go by.

Main statements: `readDependency_below`, and `readDependency_empty`, the exception.
-/

namespace GraphDependency

open GraphDependency.Text

variable {first second text : String} {premises conclusion : List Literal}

/-- Behind two lines of literals stands a graph text, two lines down. -/
theorem readDependency_append (hfirst : '\n' ∉ first.toList) (hsecond : '\n' ∉ second.toList)
    (hpremises : parseLiterals first.toList = .ok premises)
    (hconclusion : parseLiterals second.toList = .ok conclusion) :
    readDependency (first ++ "\n" ++ second ++ "\n" ++ text)
      = ((Dot.readGraph (1 + 2) text).mapError .pattern).bind fun pattern =>
          (Dependency.ofParts pattern premises conclusion).mapError .malformed := by
  have hlines : (first ++ "\n" ++ second ++ "\n" ++ text).toList
      = first.toList ++ '\n' :: (second.toList ++ '\n' :: text.toList) := by
    simp
  rw [readDependency_lines hlines hfirst hsecond, parseLiteralLine,
    hpremises, parseLiteralLine, hconclusion, String.ofList_toList]
  rfl

/-- A graph text without tokens is refused on line 1, two lines down as well. -/
theorem readGraph_below_of_no_tokens (h : Dot.tokens 1 text = .ok []) :
    Dot.readGraph (1 + 2) text = .error ⟨1, .noGraph⟩ :=
  Dot.readGraph_of_no_tokens (Dot.tokens_down_eq_nil_iff.mpr h)

/-- An empty line holds no literals. -/
theorem parseLiterals_empty : parseLiterals "".toList = .ok [] := by
  have hnone : ∀ l ∈ ([] : List Literal), l.Readable := List.forall_mem_nil _
  exact parseLiterals_writeLiterals hnone

/-- What is wrong with the graph text behind two lines of literals is reported two lines
further down than in the graph text alone, with the same cause, if it has a token at all; and
if it is read, its graph and the literals have to make a dependency.  A graph text without
tokens is refused on line 1, be it alone or behind the two lines. -/
theorem readDependency_below (hfirst : '\n' ∉ first.toList) (hsecond : '\n' ∉ second.toList)
    (hpremises : parseLiterals first.toList = .ok premises)
    (hconclusion : parseLiterals second.toList = .ok conclusion) :
    (∀ line cause, Dot.tokens 1 text ≠ .ok [] → Dot.read text = .error ⟨line, cause⟩ →
        readDependency (first ++ "\n" ++ second ++ "\n" ++ text)
          = .error (.pattern ⟨line + 2, cause⟩))
      ∧ (∀ pattern, Dot.read text = .ok pattern →
        readDependency (first ++ "\n" ++ second ++ "\n" ++ text)
          = (Dependency.ofParts pattern premises conclusion).mapError .malformed)
      ∧ (Dot.tokens 1 text = .ok [] → Dot.read text = .error ⟨1, .noGraph⟩
        ∧ readDependency (first ++ "\n" ++ second ++ "\n" ++ text)
          = .error (.pattern ⟨1, .noGraph⟩)) := by
  rw [readDependency_append hfirst hsecond hpremises hconclusion]
  refine ⟨?fault, ?graph, ?none⟩
  case fault =>
    intro line cause htokens hfault
    rw [Dot.readGraph_down htokens, ← Dot.read, hfault]
    rfl
  case graph =>
    intro pattern hpattern
    have htokens : Dot.tokens 1 text ≠ .ok [] := by
      intro hnone
      rw [Dot.read, Dot.readGraph_of_no_tokens hnone] at hpattern
      cases hpattern
    rw [Dot.readGraph_down htokens, ← Dot.read, hpattern]
    rfl
  case none =>
    intro hnone
    refine ⟨Dot.readGraph_of_no_tokens hnone, ?_⟩
    rw [readGraph_below_of_no_tokens hnone]
    rfl

/-- A graph text whose body does not begin: the fault is on its fourth line, behind a comment
of two lines, and on the sixth line of the dependency text. -/
theorem readDependency_below_comment :
    '\n' ∉ "0.name=Joel".toList ∧ '\n' ∉ "".toList
      ∧ Dot.read "# pattern\n/* of\ntwo */ graph\n;"
        = .error ⟨4, .expected .leftBrace (some .semicolon)⟩
      ∧ readDependency ("0.name=Joel" ++ "\n" ++ "" ++ "\n"
          ++ "# pattern\n/* of\ntwo */ graph\n;")
        = .error (.pattern ⟨6, .expected .leftBrace (some .semicolon)⟩) := by
  have hwords : words "0.name=Joel".toList = ["0.name=Joel".toList] :=
    words_intercalate ["0.name=Joel"] (by decide) (by decide)
  have hpremises : parseLiterals "0.name=Joel".toList
      = .ok [⟨.vertex 0 "name", .constant "Joel"⟩] := by
    rw [parseLiterals, hwords]
    rfl
  have htokens : Dot.tokens 1 "# pattern\n/* of\ntwo */ graph\n;"
      = .ok [⟨.word "graph", 3⟩, ⟨.semicolon, 4⟩] := by
    cbv
  have hread : Dot.read "# pattern\n/* of\ntwo */ graph\n;"
      = .error ⟨4, .expected .leftBrace (some .semicolon)⟩ := by
    rw [Dot.read, Dot.readGraph, htokens]
    rfl
  have hsome : Dot.tokens 1 "# pattern\n/* of\ntwo */ graph\n;" ≠ .ok [] := by
    intro hnone
    cases htokens.symm.trans hnone
  have hfirst : '\n' ∉ "0.name=Joel".toList := by decide
  have hsecond : '\n' ∉ "".toList := by decide
  exact ⟨hfirst, hsecond, hread,
    (readDependency_below hfirst hsecond hpremises parseLiterals_empty).1 4 _ hsome hread⟩

/-- A pattern that is missing behind two empty lines is reported on the first of them. -/
theorem readDependency_empty :
    parseLiterals "".toList = .ok [] ∧ Dot.read "" = .error ⟨1, .noGraph⟩
      ∧ readDependency ("" ++ "\n" ++ "" ++ "\n" ++ "") = .error (.pattern ⟨1, .noGraph⟩) := by
  have htokens : Dot.tokens 1 "" = .ok [] := by
    rw [Dot.tokens]
    exact Dot.lex.eq_1 1 true
  have hline : '\n' ∉ "".toList := by decide
  refine ⟨parseLiterals_empty, Dot.readGraph_of_no_tokens htokens, ?_⟩
  rw [readDependency_append hline hline parseLiterals_empty parseLiterals_empty,
    readGraph_below_of_no_tokens htokens]
  rfl

end GraphDependency
