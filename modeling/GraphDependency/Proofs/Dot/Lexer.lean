import GraphDependency.Dot.Draft
import GraphDependency.Dot.Writer
import GraphDependency.Proofs.Text.Numeral

set_option autoImplicit false

/-!
# The tokens of a written graph

Reading takes every written text back apart into the tokens that were put together:
a name, a label or a value is one token again, bare or quoted as it was written, and
never a keyword.  Then reading goes on behind it, on the line where it ends.

Main statements: `readQuoted_escapeQuoted`, `lex_quote_append`, `keyword?_nameToken`,
`lex_quote` and `readsAs_writeGraph`.
-/

namespace GraphDependency.Dot

open GraphDependency.Text

variable {line : Nat} {fresh : Bool} {c : Char} {cs rest : List Char} {toks : List Token}
  {text : String}

/-! ## Steps of the lexer -/

/-- The characters are read as these tokens, on whatever line. -/
def ReadsAs (cs : List Char) (toks : List Token) : Prop :=
  ∀ line fresh, ∃ lexemes, lex line fresh cs = .ok lexemes ∧ lexemes.map Lexeme.token = toks

theorem readsAs_nil : ReadsAs [] [] := fun _ _ => ⟨[], by rw [lex], rfl⟩

theorem ReadsAs.blank (h : ReadsAs cs toks) (hc : isBlank c = true) :
    ReadsAs (c :: cs) toks := by
  intro line fresh
  rw [lex, if_pos hc]
  split
  · exact h (line + 1) true
  · exact h line fresh

theorem ne_newline_of_not_isBlank (hc : isBlank c = false) : c ≠ '\n' := by
  rintro rfl
  cases hc

/-- A character that is not blank starts a token or a comment, and reading goes on behind it. -/
theorem lex_cons (hc : isBlank c = false) :
    lex line fresh (c :: cs)
      = (lexOne line fresh c cs).bind fun step =>
          (lex step.line false step.rest).map fun lexemes =>
            (step.token?.map fun token => ⟨token, line⟩).toList ++ lexemes := by
  rw [lex, if_neg (ne_newline_of_not_isBlank hc), if_neg (by simp [hc])]
  split
  · rename_i hfault
    rw [hfault]
    rfl
  · rename_i step hok
    refine Eq.trans ?_ (congrArg (Except.bind · _) hok.symm)
    change _ = (lex step.line false step.rest).map _
    cases lex step.line false step.rest with
    | error fault => rfl
    | ok lexemes => cases step.token? <;> rfl

theorem lex_cons_of_lexOne {token : Token} {line' : Nat} (hc : isBlank c = false)
    (hstep : lexOne line fresh c cs = .ok ⟨some token, line', rest⟩) :
    lex line fresh (c :: cs) = (lex line' false rest).map (⟨token, line⟩ :: ·) := by
  rw [lex_cons hc, hstep]
  rfl

/-- A step that reads a token, whatever the line. -/
theorem ReadsAs.token {token : Token} (h : ReadsAs rest toks) (hc : isBlank c = false)
    (hstep : ∀ line fresh, ∃ line', lexOne line fresh c cs = .ok ⟨some token, line', rest⟩) :
    ReadsAs (c :: cs) (token :: toks) := by
  intro line fresh
  obtain ⟨line', hone⟩ := hstep line fresh
  obtain ⟨lexemes, hlex, hmap⟩ := h line' false
  refine ⟨⟨token, line⟩ :: lexemes, ?_, by rw [List.map_cons, hmap]⟩
  rw [lex_cons_of_lexOne hc hone, hlex]
  rfl

/-- The characters that are tokens of their own. -/
def symbols : List (Char × Token) :=
  [('\x7b', .leftBrace), ('\x7d', .rightBrace), ('[', .leftBracket), (']', .rightBracket),
    ('=', .equals), (',', .comma), (';', .semicolon)]

theorem ReadsAs.symbol (h : ReadsAs cs toks) (c : Char) (token : Token)
    (hc : (c, token) ∈ symbols) : ReadsAs (c :: cs) (token :: toks) := by
  simp only [symbols, List.mem_cons, Prod.mk.injEq, List.not_mem_nil, or_false] at hc
  rcases hc with ⟨rfl, rfl⟩ | ⟨rfl, rfl⟩ | ⟨rfl, rfl⟩ | ⟨rfl, rfl⟩ | ⟨rfl, rfl⟩ | ⟨rfl, rfl⟩ |
    ⟨rfl, rfl⟩ <;> exact h.token rfl fun line _ => ⟨line, rfl⟩

theorem ReadsAs.edgeOp (h : ReadsAs cs toks) : ReadsAs ('-' :: '-' :: cs) (.edgeOp :: toks) :=
  h.token rfl fun line _ => ⟨line, rfl⟩

/-! ## Bare words -/

theorem isIdentifierPart_iff :
    isIdentifierPart c = true
      ↔ (0x61 ≤ c.toNat ∧ c.toNat ≤ 0x7A) ∨ (0x41 ≤ c.toNat ∧ c.toNat ≤ 0x5A)
        ∨ (0x30 ≤ c.toNat ∧ c.toNat ≤ 0x39) ∨ c.toNat = 0x5F := by
  simp only [isIdentifierPart, isAsciiAlnum, Bool.or_eq_true, Bool.and_eq_true,
    decide_eq_true_eq, beq_iff_eq, toNat_le_iff, ← Char.toNat_inj, or_assoc]
  rfl

theorem isIdentifierPart_of_isIdentifierStart (h : isIdentifierStart c = true) :
    isIdentifierPart c = true := by
  simp only [isIdentifierStart, Bool.or_eq_true] at h
  simp only [isIdentifierPart, isAsciiAlnum, Bool.or_eq_true]
  exact h.imp_left Or.inl

theorem isIdentifierPart_of_isDigit (h : c.isDigit = true) : isIdentifierPart c = true :=
  isIdentifierPart_iff.mpr (Or.inr (Or.inr (Or.inl (isDigit_iff.mp h))))

theorem isWordChar_of_isIdentifierPart (h : isIdentifierPart c = true) :
    isWordChar c = true := by
  simp only [isIdentifierPart] at h
  simp [isWordChar, h]

theorem not_isBlank_of_isIdentifierPart (h : isIdentifierPart c = true) : isBlank c = false := by
  rw [isIdentifierPart_iff] at h
  exact not_isBlank_of_ascii (by omega) (by omega)

/-- A word character starts a word, which goes as far as word characters go. -/
theorem lexOne_of_isWordChar (h : isWordChar c = true) :
    lexOne line fresh c cs
      = .ok ⟨some (.word (String.ofList (c :: cs.takeWhile isWordChar))), line,
          cs.dropWhile isWordChar⟩ := by
  unfold lexOne
  split
  case h_12 => rw [if_pos h]
  all_goals exact absurd h (by decide)

/-- No word goes on into these characters. -/
def EndsWord (cs : List Char) : Prop := cs.takeWhile isWordChar = []

theorem EndsWord.dropWhile_eq (h : EndsWord cs) : cs.dropWhile isWordChar = cs := by
  have := List.takeWhile_append_dropWhile (p := isWordChar) (l := cs)
  rwa [h, List.nil_append] at this

@[simp] theorem endsWord_cons_iff : EndsWord (c :: cs) ↔ isWordChar c = false := by
  simp [EndsWord, List.takeWhile_cons]

@[simp] theorem isWordChar_space : isWordChar ' ' = false := rfl

@[simp] theorem isWordChar_comma : isWordChar ',' = false := rfl

/-- A word is read whole, as far as it goes. -/
theorem lexOne_word {w : List Char} (hrest : EndsWord rest) (hc : isIdentifierPart c = true)
    (hw : ∀ d ∈ w, isIdentifierPart d = true) :
    lexOne line fresh c (w ++ rest)
      = .ok ⟨some (.word (String.ofList (c :: w))), line, rest⟩ := by
  have hword : ∀ d ∈ w, isWordChar d = true := fun d hd =>
    isWordChar_of_isIdentifierPart (hw d hd)
  rw [lexOne_of_isWordChar (isWordChar_of_isIdentifierPart hc),
    List.takeWhile_append_of_pos hword, List.dropWhile_append_of_pos hword, hrest,
    hrest.dropWhile_eq, List.append_nil]

theorem ReadsAs.word {w : List Char} (h : ReadsAs rest toks) (hrest : EndsWord rest)
    (hc : isIdentifierPart c = true) (hw : ∀ d ∈ w, isIdentifierPart d = true) :
    ReadsAs (c :: (w ++ rest)) (.word (String.ofList (c :: w)) :: toks) :=
  h.token (not_isBlank_of_isIdentifierPart hc) fun line _ => ⟨line, lexOne_word hrest hc hw⟩

/-- A dash with digits is a word too. -/
theorem lexOne_negative {w : List Char} (hrest : EndsWord rest) (hne : w ≠ [])
    (hw : ∀ d ∈ w, d.isDigit = true) :
    lexOne line fresh '-' (w ++ rest)
      = .ok ⟨some (.word (String.ofList ('-' :: w))), line, rest⟩ := by
  obtain ⟨d, w, rfl⟩ := List.exists_cons_of_ne_nil hne
  have hword : ∀ x ∈ d :: w, isWordChar x = true := fun x hx =>
    isWordChar_of_isIdentifierPart (isIdentifierPart_of_isDigit (hw x hx))
  have hd : d.isDigit = true := hw d List.mem_cons_self
  have hop : ¬ (d = '-' ∨ d = '>') := by
    rintro (rfl | rfl) <;> exact absurd hd (by decide)
  simp only [lexOne, List.cons_append]
  rw [if_neg hop, if_pos (Or.inl hd), ← List.cons_append, List.takeWhile_append_of_pos hword,
    List.dropWhile_append_of_pos hword, hrest, hrest.dropWhile_eq, List.append_nil]

/-! ## Names, labels and values -/

/-- What is between quotes is read back, and reading goes on behind the quote, as many lines
further down as there are ends of lines in it. -/
theorem readQuoted_escapeQuoted (cs rest : List Char) (line : Nat) :
    readQuoted line (escapeQuoted cs ++ '"' :: rest)
      = some ⟨cs, line + cs.count '\n', rest⟩ := by
  induction cs generalizing line with
  | nil => rfl
  | cons c cs ih =>
    -- A backslash and a quote are written behind a backslash, all others as they are.
    by_cases hslash : c = '\\'
    · subst hslash
      simp [escapeQuoted, readQuoted, ih, QuotedText.cons]
    by_cases hquote : c = '"'
    · subst hquote
      simp [escapeQuoted, readQuoted, ih, QuotedText.cons]
    · have hline : (if c = '\n' then line + 1 else line) + cs.count '\n'
          = line + (c :: cs).count '\n' := by
        by_cases hc : c = '\n'
        · rw [if_pos hc, hc, List.count_cons_self, Nat.add_right_comm, Nat.add_assoc]
        · rw [if_neg hc, List.count_cons_of_ne hc]
      simp [escapeQuoted, readQuoted, ih, hslash, hquote, hline, QuotedText.cons]

/-- The token of a written name, label or value. -/
def nameToken (text : String) : Token := if isPlain text then .word text else .quoted text

@[simp] theorem name?_nameToken (text : String) : (nameToken text).name? = some text := by
  unfold nameToken
  split <;> rfl

/-- What a bare text consists of. -/
theorem isPlain_cases (h : isPlain text = true) :
    (∃ c w, text.toList = c :: w ∧ isIdentifierPart c = true
        ∧ ∀ d ∈ w, isIdentifierPart d = true)
      ∨ ∃ w, text.toList = '-' :: w ∧ w ≠ [] ∧ ∀ d ∈ w, d.isDigit = true := by
  simp only [isPlain, Bool.or_eq_true, Bool.and_eq_true] at h
  rcases h with ⟨hid, -⟩ | hnum
  · cases hcs : text.toList with
    | nil => simp [hcs, isIdentifier] at hid
    | cons c w =>
      simp only [hcs, isIdentifier, Bool.and_eq_true, List.all_eq_true] at hid
      exact Or.inl ⟨c, w, rfl, isIdentifierPart_of_isIdentifierStart hid.1, hid.2⟩
  · unfold isNumeral at hnum
    split at hnum
    · cases hnum
    · rename_i w hcs
      simp only [Bool.and_eq_true, Bool.not_eq_true', List.isEmpty_eq_false_iff,
        List.all_eq_true] at hnum
      exact Or.inr ⟨w, hcs, hnum⟩
    · rename_i hne hdash
      obtain ⟨c, w, hcs⟩ := List.exists_cons_of_ne_nil hne
      rw [hcs, List.all_cons, Bool.and_eq_true, List.all_eq_true] at hnum
      exact Or.inl ⟨c, w, hcs, isIdentifierPart_of_isDigit hnum.1, fun d hd =>
        isIdentifierPart_of_isDigit (hnum.2 d hd)⟩

/-- A bare text stands on one line. -/
theorem count_newline_of_isPlain (h : isPlain text = true) : text.toList.count '\n' = 0 := by
  rw [List.count_eq_zero]
  intro hmem
  rcases isPlain_cases h with ⟨c, w, hcs, hc, hw⟩ | ⟨w, hcs, -, hw⟩
  · have hall : ∀ d ∈ c :: w, isIdentifierPart d = true := List.forall_mem_cons.mpr ⟨hc, hw⟩
    rw [hcs] at hmem
    exact absurd (hall _ hmem) (by decide)
  · rw [hcs, List.mem_cons] at hmem
    exact absurd (hw _ (hmem.resolve_left (by decide))) (by decide)

/-- A written text is one token, and reading goes on behind it. -/
theorem exists_lexOne_quote (hrest : EndsWord rest) (text : String) :
    ∃ c cs, (Dot.quote text).toList ++ rest = c :: cs ∧ isBlank c = false
      ∧ ∀ line fresh, lexOne line fresh c cs
          = .ok ⟨some (nameToken text), line + text.toList.count '\n', rest⟩ := by
  unfold Dot.quote nameToken
  split
  · rename_i hplain
    rw [count_newline_of_isPlain hplain]
    rcases isPlain_cases hplain with ⟨c, w, hcs, hc, hw⟩ | ⟨w, hcs, hne, hw⟩
    · refine ⟨c, w ++ rest, by rw [hcs, List.cons_append], not_isBlank_of_isIdentifierPart hc,
        fun line fresh => ?_⟩
      rw [lexOne_word hrest hc hw, ← hcs, String.ofList_toList, Nat.add_zero]
    · refine ⟨'-', w ++ rest, by rw [hcs, List.cons_append], rfl, fun line fresh => ?_⟩
      rw [lexOne_negative hrest hne hw, ← hcs, String.ofList_toList, Nat.add_zero]
  · refine ⟨'"', escapeQuoted text.toList ++ '"' :: rest, by simp, rfl, fun line fresh => ?_⟩
    simp [lexOne, readQuoted_escapeQuoted]

/-- In front of what cannot go on a word, a written text is read as its token, and then reading
goes on behind it, as many lines further down as the text has ends of lines. -/
theorem lex_quote_append (hrest : EndsWord rest) (text : String) (line : Nat) (fresh : Bool) :
    lex line fresh ((Dot.quote text).toList ++ rest)
      = (lex (line + text.toList.count '\n') false rest).map (⟨nameToken text, line⟩ :: ·) := by
  obtain ⟨c, cs, hcs, hc, hone⟩ := exists_lexOne_quote hrest text
  rw [hcs, lex_cons_of_lexOne hc (hone line fresh)]

/-- A written text is read back, however it is written. -/
theorem ReadsAs.quote (h : ReadsAs rest toks) (hrest : EndsWord rest) (text : String) :
    ReadsAs ((Dot.quote text).toList ++ rest) (nameToken text :: toks) := by
  intro line fresh
  obtain ⟨lexemes, hlex, hmap⟩ := h (line + text.toList.count '\n') false
  refine ⟨⟨nameToken text, line⟩ :: lexemes, ?_, by rw [List.map_cons, hmap]⟩
  rw [lex_quote_append hrest, hlex]
  rfl

/-! ## Keywords -/

theorem isLower_toLower_of_isDigit (h : c.isDigit = true) : c.toLower.isLower = false := by
  rw [isDigit_iff] at h
  have hupper : ¬ (0x41 ≤ c.toNat ∧ c.toNat ≤ 0x5A) := by omega
  have hlower : ¬ (0x61 ≤ c.toNat ∧ c.toNat ≤ 0x7A) := by omega
  have hsame : c.toLower = c := dif_neg hupper
  rw [hsame, Bool.eq_false_iff]
  intro hc
  obtain ⟨hlow, hhigh⟩ := Bool.and_eq_true_iff.mp hc
  exact hlower ⟨of_decide_eq_true hlow, of_decide_eq_true hhigh⟩

/-- A numeral is no keyword, in small letters or not: it does not start with a letter. -/
theorem lowercase_notMem_keywords_of_isNumeral (h : isNumeral text.toList = true) :
    Text.lowercase text ∉ keywords := by
  obtain ⟨c, w, hcs, hc⟩ : ∃ c w, text.toList = c :: w ∧ c.toLower.isLower = false := by
    unfold isNumeral at h
    split at h
    · cases h
    · rename_i w hcs
      exact ⟨'-', w, hcs, rfl⟩
    · rename_i hne hdash
      obtain ⟨c, w, hcs⟩ := List.exists_cons_of_ne_nil hne
      rw [hcs, List.all_cons, Bool.and_eq_true] at h
      exact ⟨c, w, hcs, isLower_toLower_of_isDigit h.1⟩
  intro hmem
  have hlower : ∀ k ∈ keywords, k.toList.head?.any Char.isLower = true := by decide
  have := hlower _ hmem
  rw [toList_lowercase, hcs, List.map_cons, List.head?_cons, Option.any_some, hc] at this
  cases this

/-- What is written bare is no keyword, in small letters or not. -/
theorem lowercase_notMem_keywords_of_isPlain (h : isPlain text = true) :
    Text.lowercase text ∉ keywords := by
  simp only [isPlain, Bool.or_eq_true, Bool.and_eq_true, Bool.not_eq_true',
    List.contains_eq_mem, decide_eq_false_iff_not] at h
  exact h.elim And.right lowercase_notMem_keywords_of_isNumeral

/-- What is written for a name is not read as a keyword. -/
theorem keyword?_nameToken {word : String} (h : (nameToken text).keyword? = some word) :
    word ∉ keywords := by
  unfold nameToken at h
  split at h
  · rename_i hplain
    obtain rfl := Option.some.inj h
    exact lowercase_notMem_keywords_of_isPlain hplain
  · cases h

/-- The characters that end a bare word between the parts of a statement. -/
def separators : List Char := [' ', '\t', '\n', '=', ',', ';', '[', ']', '\x7b', '\x7d']

/-- A written text in front of a separator or of the end is read as one token that stands for it
and is no keyword, on the line where it starts.  Then reading goes on at what follows, not at the
beginning of a line, as many lines further down as the text has ends of lines. -/
theorem lex_quote (text : String) (line : Nat) (fresh : Bool)
    (hrest : rest = [] ∨ ∃ c ∈ separators, ∃ cs, rest = c :: cs) :
    ∃ token : Token,
      (token = .quoted text
          ∨ token = .word text ∧ ∀ keyword ∈ keywords, Text.lowercase text ≠ keyword)
        ∧ lex line fresh ((Dot.quote text).toList ++ rest)
          = (lex (line + text.toList.count '\n') false rest).map (⟨token, line⟩ :: ·) := by
  have hends : EndsWord rest := by
    rcases hrest with rfl | ⟨c, hc, cs, rfl⟩
    · rfl
    · have hall : (separators.all fun c => !isWordChar c) = true := rfl
      exact endsWord_cons_iff.mpr (by simpa using List.all_eq_true.mp hall c hc)
  refine ⟨nameToken text, ?_, lex_quote_append hends text line fresh⟩
  unfold nameToken
  split
  · rename_i hplain
    refine Or.inr ⟨rfl, fun keyword hkeyword heq => ?_⟩
    exact lowercase_notMem_keywords_of_isPlain hplain (heq ▸ hkeyword)
  · exact Or.inl rfl

/-- A backslash, the end of a line and a quote between quotes, and behind them a hash sign: it does
not begin a line, so it begins no comment. -/
theorem lex_quote_backslash :
    (['\t', '#'] = [] ∨ ∃ c ∈ separators, ∃ cs, ['\t', '#'] = c :: cs)
      ∧ lex 4 true ((Dot.quote "a\\\n\"b").toList ++ ['\t', '#'])
        = .error ⟨5, .strayCharacter '#'⟩ := by
  have hrest : ['\t', '#'] = [] ∨ ∃ c ∈ separators, ∃ cs, ['\t', '#'] = c :: cs :=
    Or.inr ⟨'\t', by decide, ['#'], rfl⟩
  obtain ⟨token, -, hlex⟩ := lex_quote "a\\\n\"b" 4 true hrest
  refine ⟨hrest, ?_⟩
  rw [hlex]
  have hstray : lex 5 false ['\t', '#'] = .error ⟨5, .strayCharacter '#'⟩ := by cbv
  exact congrArg (Except.map _) hstray

/-! ## Numbers -/

theorem isPlain_toString (n : Nat) : isPlain (toString n) = true := by
  have hdigits : ∀ c ∈ (toString n).toList, c.isDigit = true := fun _ => isDigit_of_mem_toString
  rw [isPlain, Bool.or_eq_true]
  refine Or.inr ?_
  obtain ⟨c, w, hcs⟩ := List.exists_cons_of_ne_nil (toList_toString_ne_nil n)
  rw [hcs] at hdigits ⊢
  have hdash : c ≠ '-' := by
    rintro rfl
    exact absurd (hdigits '-' List.mem_cons_self) (by decide)
  simpa [isNumeral, hdash] using hdigits

@[simp] theorem quote_toString (n : Nat) : quote (toString n) = toString n :=
  if_pos (isPlain_toString n)

/-! ## The lines of a graph -/

/-- The tokens of a written attribute. -/
def entryTokens (e : String × String) : List Token := [nameToken e.1, .equals, nameToken e.2]

/-- The tokens of written attributes in their brackets. -/
def groupTokens (e : String × String) (es : List (String × String)) : List Token :=
  .leftBracket :: (entryTokens e ++ (es.flatMap fun e => .comma :: entryTokens e)
    ++ [.rightBracket])

/-- The tokens of the line of a vertex. -/
def vertexTokens (id : Nat) (v : Vertex) : List Token :=
  nameToken (toString id) :: groupTokens (labelName, v.label) (writtenEntries v)

/-- The tokens of the line of an edge. -/
def edgeTokens (e : Edge) : List Token :=
  nameToken (toString e.first) :: .edgeOp :: nameToken (toString e.second)
    :: groupTokens (labelName, e.label) []

/-- The tokens of a written graph. -/
def graphTokens (g : Graph) : List Token :=
  .word "graph" :: .word "G" :: .leftBrace
    :: ((g.vertices.toList.zipIdx.flatMap fun p => vertexTokens p.2 p.1 ++ [.semicolon])
      ++ (g.edges.toList.flatMap fun e => edgeTokens e ++ [.semicolon])
      ++ [.rightBrace])

theorem ReadsAs.attribute (h : ReadsAs cs toks) (hcs : EndsWord cs) (name value : String) :
    ReadsAs ((writeAttribute name value).toList ++ cs)
      (.comma :: entryTokens (name, value) ++ toks) := by
  have hvalue := (h.quote hcs value).symbol '=' .equals (by decide)
  have hname := (hvalue.quote rfl name).blank (c := ' ') rfl
  have := hname.symbol ',' .comma (by decide)
  simpa [writeAttribute, entryTokens] using this

theorem ReadsAs.attributes (h : ReadsAs cs toks) (hcs : EndsWord cs)
    (es : List (String × String)) :
    EndsWord ((String.join (es.map fun e => writeAttribute e.1 e.2)).toList ++ cs)
      ∧ ReadsAs ((String.join (es.map fun e => writeAttribute e.1 e.2)).toList ++ cs)
          ((es.flatMap fun e => .comma :: entryTokens e) ++ toks) := by
  induction es with
  | nil => exact ⟨by simpa using hcs, by simpa using h⟩
  | cons e es ih =>
    obtain ⟨hends, hrest⟩ := ih
    refine ⟨by simp [writeAttribute], ?_⟩
    simpa using hrest.attribute hends e.1 e.2

/-- The label and the attributes of a line, in their brackets. -/
theorem ReadsAs.group (h : ReadsAs cs toks) (label : String) (es : List (String × String)) :
    ReadsAs ((" [label=" ++ Dot.quote label ++ String.join (es.map fun e => writeAttribute e.1 e.2)
        ++ "];\n").toList ++ cs)
      (groupTokens (labelName, label) es ++ .semicolon :: toks) := by
  have hend := (h.blank (c := '\n') rfl).symbol ';' .semicolon (by decide)
  have hclose := hend.symbol ']' .rightBracket (by decide)
  obtain ⟨hends, hattributes⟩ := hclose.attributes rfl es
  have hlabel := (hattributes.quote hends label).symbol '=' .equals (by decide)
  have hname := (hlabel.quote rfl labelName).symbol '[' .leftBracket (by decide)
  have hquote : Dot.quote labelName = "label" := by decide
  rw [hquote] at hname
  simpa [groupTokens, entryTokens] using hname.blank (c := ' ') rfl

theorem ReadsAs.vertex (h : ReadsAs cs toks) (id : Nat) (v : Vertex) :
    ReadsAs ((writeVertex id v).toList ++ cs) (vertexTokens id v ++ .semicolon :: toks) := by
  have hname := (h.group v.label (writtenEntries v)).quote (by simp) (toString id)
  rw [quote_toString] at hname
  have := (hname.blank (c := ' ') rfl).blank (c := ' ') rfl
  simpa [writeVertex, vertexTokens] using this

theorem ReadsAs.edge (h : ReadsAs cs toks) (e : Edge) :
    ReadsAs ((writeEdge e).toList ++ cs) (edgeTokens e ++ .semicolon :: toks) := by
  have hsecond := (h.group e.label []).quote (by simp) (toString e.second)
  have hop := ((hsecond.blank (c := ' ') rfl).edgeOp).blank (c := ' ') rfl
  have hfirst := hop.quote rfl (toString e.first)
  rw [quote_toString, quote_toString] at hfirst
  have := (hfirst.blank (c := ' ') rfl).blank (c := ' ') rfl
  simpa [writeEdge, edgeTokens] using this

/-- Lines of one kind after the other. -/
theorem ReadsAs.lines {α : Type} (h : ReadsAs cs toks) (write : α → String)
    (lineTokens : α → List Token)
    (hline : ∀ x cs toks, ReadsAs cs toks →
      ReadsAs ((write x).toList ++ cs) (lineTokens x ++ .semicolon :: toks)) (xs : List α) :
    ReadsAs ((String.join (xs.map write)).toList ++ cs)
      ((xs.flatMap fun x => lineTokens x ++ [.semicolon]) ++ toks) := by
  induction xs with
  | nil => simpa using h
  | cons x xs ih => simpa using hline x _ _ ih

/-- A written graph is read as its tokens. -/
theorem readsAs_writeGraph (g : Graph) : ReadsAs (writeGraph g).toList (graphTokens g) := by
  have hend := (readsAs_nil.blank (c := '\n') rfl).symbol '\x7d' .rightBrace
    (by decide)
  have hedges := hend.lines writeEdge edgeTokens (fun e _ _ h => h.edge e) g.edges.toList
  have hvertices := hedges.lines (fun p : Vertex × Nat => writeVertex p.2 p.1)
    (fun p => vertexTokens p.2 p.1) (fun p _ _ h => h.vertex p.2 p.1) g.vertices.toList.zipIdx
  have hopen := (hvertices.blank (c := '\n') rfl).symbol '\x7b' .leftBrace
    (by decide)
  have hname := ((hopen.blank (c := ' ') rfl).word (c := 'G') (w := []) (by simp) rfl
    (by simp)).blank (c := ' ') rfl
  have hgraph := hname.word (c := 'g') (w := ['r', 'a', 'p', 'h']) (by simp) rfl
    (List.all_eq_true.mp rfl)
  simpa [writeGraph, graphTokens, List.mapIdx_eq_zipIdx_map] using hgraph

end GraphDependency.Dot
