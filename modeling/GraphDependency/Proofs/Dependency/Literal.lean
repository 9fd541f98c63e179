import GraphDependency.Dependency.Text
import GraphDependency.Except
import GraphDependency.Proofs.Text.Numeral

set_option autoImplicit false

/-!
# Written literals

Literals are written as they are shown, without quotes.  So a written line is read back if
the text of every term stands for that term alone: it must not be empty, hold a blank, part
its literal at a wrong place, or be a constant that looks like an attribute of a vertex.

Main statements: `words_intercalate`, `Literal.Readable.parseLiteral_text` and
`parseLiterals_writeLiterals`.
-/

namespace GraphDependency

open GraphDependency.Text

/-- The text holds no blank. -/
def Unbroken (text : String) : Prop := ∀ c ∈ text.toList, isBlank c = false

instance (text : String) : Decidable (Unbroken text) := List.decidableBAll _ _

/-! ## Terms -/

/-- The text of a term stands for the term. -/
def Term.Readable : Term → Prop
  | .vertex index name => index ≤ max64 ∧ name ≠ "" ∧ Unbroken name
  | .constant value => value ≠ "" ∧ Unbroken value ∧ parseVertexTerm? value.toList = none

instance : DecidablePred Term.Readable
  | .vertex _ _ => inferInstanceAs (Decidable (_ ∧ _))
  | .constant _ => inferInstanceAs (Decidable (_ ∧ _))

namespace Term

variable {t : Term} {index : Nat} {name : String} {c : Char}

theorem toList_text_vertex (index : Nat) (name : String) :
    (Term.vertex index name).text.toList = (toString index).toList ++ '.' :: name.toList := by
  simp [text]

theorem not_isBlank_of_isDigit (h : c.isDigit = true) : isBlank c = false := by
  rw [isDigit_iff] at h
  exact not_isBlank_of_ascii (by omega) (by omega)

theorem Readable.text_ne_nil (h : t.Readable) : t.text.toList ≠ [] := by
  cases t with
  | vertex index name => simp [toList_text_vertex]
  | constant value => simpa [text] using h.1

theorem Readable.unbroken (h : t.Readable) : Unbroken t.text := by
  cases t with
  | vertex index name =>
    intro c hc
    rw [toList_text_vertex] at hc
    rcases List.mem_append.mp hc with hc | hc
    · exact not_isBlank_of_isDigit (isDigit_of_mem_toString hc)
    · rcases List.mem_cons.mp hc with rfl | hc
      · rfl
      · exact h.2.2 c hc
  | constant value => exact h.2.1

/-- What is read as an attribute of a vertex: a number, a point and something more. -/
theorem parseVertexTerm?_eq_some_iff {cs : List Char} :
    parseVertexTerm? cs = some t
      ↔ ∃ before index after, cs = before ++ '.' :: after ∧ IsNumeral index before
        ∧ index ≤ max64 ∧ after ≠ [] ∧ t = .vertex index (String.ofList after) := by
  constructor
  · intro h
    unfold parseVertexTerm? at h
    split at h
    · cases h
    · rename_i before after hsplit
      split at h
      · cases h
      · rename_i index hindex
        obtain ⟨hnumeral, hle⟩ := readUnsigned_eq_ok_iff.mp hindex
        split at h
        · cases h
        · rename_i hafter
          exact ⟨before, index, after, (splitAtFirst_eq_some_iff.mp hsplit).1, hnumeral, hle,
            by simpa using hafter, (Option.some.inj h).symm⟩
  · intro ⟨before, index, after, hcs, hnumeral, hle, hafter, ht⟩
    rw [parseVertexTerm?, splitAtFirst_eq_some_iff.mpr ⟨hcs, hnumeral.point_notMem⟩]
    simp only [readUnsigned_eq_ok_iff.mpr ⟨hnumeral, hle⟩, List.isEmpty_eq_false_iff.mpr hafter,
      Bool.false_eq_true, if_false, ht]

/-- An index, a point and a name are an attribute of a vertex. -/
theorem parseVertexTerm?_text (hindex : index ≤ max64) (hname : name ≠ "") :
    parseVertexTerm? (Term.vertex index name).text.toList = some (.vertex index name) :=
  parseVertexTerm?_eq_some_iff.mpr ⟨_, index, name.toList, toList_text_vertex index name,
    isNumeral_toString index, hindex, by simpa using hname, by rw [String.ofList_toList]⟩

theorem Readable.parseTerm_text (h : t.Readable) : parseTerm t.text.toList = t := by
  cases t with
  | vertex index name => rw [parseTerm, parseVertexTerm?_text h.1 h.2.1, Option.getD_some]
  | constant value =>
    have hnone : parseVertexTerm? (Term.constant value).text.toList = none := h.2.2
    rw [parseTerm, hnone, Option.getD_none]
    exact congrArg Term.constant String.ofList_toList

end Term

/-! ## Literals -/

/-- The text of a literal stands for the literal: its sides do, and it is parted between them. -/
structure Literal.Readable (l : Literal) : Prop where
  lhs : l.lhs.Readable
  rhs : l.rhs.Readable
  parted : '=' ∉ l.lhs.text.toList

namespace Literal

variable {l : Literal}

instance : DecidablePred Literal.Readable := fun l =>
  decidable_of_iff (l.lhs.Readable ∧ l.rhs.Readable ∧ '=' ∉ l.lhs.text.toList)
    ⟨fun h => ⟨h.1, h.2.1, h.2.2⟩, fun h => ⟨h.lhs, h.rhs, h.parted⟩⟩

theorem toList_text (l : Literal) :
    l.text.toList = l.lhs.text.toList ++ '=' :: l.rhs.text.toList := by
  simp [text]

theorem text_ne_empty (l : Literal) : l.text ≠ "" := by
  simp [text]

theorem Readable.unbroken (h : l.Readable) : Unbroken l.text := by
  intro c hc
  rw [toList_text] at hc
  rcases List.mem_append.mp hc with hc | hc
  · exact h.lhs.unbroken c hc
  · rcases List.mem_cons.mp hc with rfl | hc
    · rfl
    · exact h.rhs.unbroken c hc

theorem Readable.parseLiteral_text (h : l.Readable) : parseLiteral l.text.toList = .ok l := by
  have hsplit : splitAtFirst '=' l.text.toList = some (l.lhs.text.toList, l.rhs.text.toList) :=
    splitAtFirst_eq_some_iff.mpr ⟨toList_text l, h.parted⟩
  have hempty : (l.lhs.text.toList.isEmpty || l.rhs.text.toList.isEmpty) = false := by
    rw [Bool.or_eq_false_iff, List.isEmpty_eq_false_iff, List.isEmpty_eq_false_iff]
    exact ⟨h.lhs.text_ne_nil, h.rhs.text_ne_nil⟩
  rw [parseLiteral, hsplit]
  simp only [hempty, Bool.false_eq_true, if_false, h.lhs.parseTerm_text, h.rhs.parseTerm_text]

end Literal

/-! ## Lines -/

@[simp] theorem words_nil : words [] = [] := by
  rw [words.eq_def]

theorem words_cons_of_isBlank {c : Char} {cs : List Char} (hc : isBlank c = true) :
    words (c :: cs) = words cs := by
  rw [words.eq_def]
  exact if_pos hc

/-- A word goes on up to the next blank. -/
theorem words_append {w : List Char} (rest : List Char) (hne : w ≠ [])
    (hw : ∀ c ∈ w, isBlank c = false) (hrest : ∀ c ∈ rest.head?, isBlank c = true) :
    words (w ++ rest) = w :: words rest := by
  obtain ⟨c, w, rfl⟩ := List.exists_cons_of_ne_nil hne
  obtain ⟨hc, hw⟩ := List.forall_mem_cons.mp hw
  have hword : ∀ d ∈ w, (!isBlank d) = true := fun d hd => by rw [hw d hd]; rfl
  have htake : rest.takeWhile (fun d => !isBlank d) = [] := by
    cases rest with
    | nil => rfl
    | cons d rest => rw [List.takeWhile_cons_of_neg (by simpa using hrest d rfl)]
  have hdrop := List.takeWhile_append_dropWhile (p := fun d => !isBlank d) (l := rest)
  rw [htake, List.nil_append] at hdrop
  have hcons : words (c :: (w ++ rest)) = (c :: (w ++ rest).takeWhile fun d => !isBlank d)
      :: words ((w ++ rest).dropWhile fun d => !isBlank d) := by
    rw [words.eq_def]
    exact if_neg (by simp [hc])
  rw [List.cons_append, hcons, List.takeWhile_append_of_pos hword,
    List.dropWhile_append_of_pos hword, htake, hdrop, List.append_nil]

/-- Words with blanks between them are the words. -/
theorem words_intercalate (ws : List String) (hne : ∀ w ∈ ws, w ≠ "")
    (hws : ∀ w ∈ ws, Unbroken w) :
    words (" ".intercalate ws).toList = ws.map String.toList := by
  induction ws with
  | nil => simp
  | cons w ws ih =>
    obtain ⟨hw, hne⟩ := List.forall_mem_cons.mp hne
    obtain ⟨hblank, hws⟩ := List.forall_mem_cons.mp hws
    have hw' : w.toList ≠ [] := by simpa using hw
    cases ws with
    | nil => simpa using words_append [] hw' hblank (by simp)
    | cons v ws =>
      rw [String.intercalate_cons_cons, String.toList_append, String.toList_append,
        List.append_assoc]
      change words (w.toList ++ ' ' :: (" ".intercalate (v :: ws)).toList) = _
      rw [words_append _ hw' hblank (by simp [isBlank]), words_cons_of_isBlank (c := ' ') rfl,
        ih hne hws]
      rfl

section Written

variable {literals : List Literal} (h : ∀ l ∈ literals, l.Readable)

include h

/-- A written line is read as its literals. -/
theorem parseLiterals_writeLiterals :
    parseLiterals (writeLiterals literals).toList = .ok literals := by
  rw [parseLiterals, writeLiterals, words_intercalate, List.map_map]
  · exact mapM_eq_ok fun l hl => (h l hl).parseLiteral_text
  · simp only [List.forall_mem_map]
    exact fun l _ => l.text_ne_empty
  · simp only [List.forall_mem_map]
    exact fun l hl => (h l hl).unbroken

/-- A written line is one line. -/
theorem newline_notMem_writeLiterals : '\n' ∉ (writeLiterals literals).toList := by
  induction literals with
  | nil => simp [writeLiterals]
  | cons l rest ih =>
    obtain ⟨hl, hrest⟩ := List.forall_mem_cons.mp h
    have hline : '\n' ∉ l.text.toList := fun hmem =>
      absurd (hl.unbroken '\n' hmem) (by decide)
    cases rest with
    | nil => simpa [writeLiterals] using hline
    | cons l' rest =>
      have ih := ih hrest
      simp only [writeLiterals, List.map_cons, String.intercalate_cons_cons,
        String.toList_append, List.mem_append, not_or] at ih ⊢
      exact ⟨⟨hline, by decide⟩, ih⟩

end Written

end GraphDependency
