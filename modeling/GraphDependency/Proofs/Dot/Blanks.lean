import GraphDependency.Proofs.Dot.Lexer

set_option autoImplicit false

/-!
# Blanks between tokens

Which part of a text a character stands in follows from the characters before it: between
tokens, in a word, in a quoted string or in a comment.  A blank outside strings and comments
parts the text, and any two blanks do so alike.  The exception is a blank beyond ASCII directly
behind a word, which goes on the word.

Main statements: `lex_append_blank`, `read_blank` and `read_blank_word`, the exception.
-/

namespace GraphDependency.Dot

open GraphDependency.Text

/-! ## Places in a text -/

/-- What a character of a text follows. -/
inductive Place where
  /-- nothing that goes on; `fresh` says that there are only blanks before it on its line -/
  | between (fresh : Bool)
  /-- a slash that may begin a comment -/
  | slash
  /-- a dash that may begin an edge operator or a numeral -/
  | dash
  /-- a bare word or numeral, or a part of it -/
  | word
  /-- a part of a comment that ends with its line -/
  | lineComment
  /-- a part of a block comment; `star` says that a slash ends it here -/
  | blockComment (star : Bool)
  /-- a part of a quoted string; `escaped` says that a backslash stands directly before -/
  | quoted (escaped : Bool)
  deriving DecidableEq, Repr, Inhabited

namespace Place

/-- The place behind a character that goes on nothing. -/
def start (fresh : Bool) (c : Char) : Place :=
  if c = '\n' then between true
  else if isBlank c then between fresh
  else if c = '#' ∧ fresh = true then lineComment
  else if c = '/' then slash
  else if c = '-' then dash
  else if c = '"' then quoted false
  else if isWordChar c then word
  else between false

/-- The place behind a character that stands at a place. -/
def next : Place → Char → Place
  | between fresh, c => start fresh c
  | slash, c =>
    if c = '/' then lineComment else if c = '*' then blockComment false else start false c
  | dash, c =>
    if c = '-' ∨ c = '>' then between false
    else if c.isDigit ∨ c = '.' then word
    else start false c
  | word, c => if isWordChar c then word else start false c
  | lineComment, c => if c = '\n' then between true else lineComment
  | blockComment star, c =>
    if star = true ∧ c = '/' then between false else blockComment (c == '*')
  | quoted true, _ => quoted false
  | quoted false, c => if c = '"' then between false else quoted (c == '\\')

/-- The place behind some characters. -/
def after (p : Place) (cs : List Char) : Place := cs.foldl next p

/-- The place is neither in a comment nor in a quoted string. -/
def isOutside : Place → Bool
  | between _ | slash | dash | word => true
  | lineComment | blockComment _ | quoted _ => false

@[simp] theorem after_cons (p : Place) (c : Char) (cs : List Char) :
    p.after (c :: cs) = (p.next c).after cs := rfl

@[simp] theorem next_blockComment (c : Char) :
    (blockComment false).next c = blockComment (c == '*') := by
  simp [next]

end Place

/-- The place behind the beginning of a text. -/
def placeBehind (before : List Char) : Place := (Place.between true).after before

/-! ## Steps of the lexer -/

variable {line : Nat} {fresh : Bool} {b c : Char} {cs tail : List Char}

/-- The step with more characters behind its rest. -/
def LexStep.append (tail : List Char) (step : LexStep) : LexStep :=
  { step with rest := step.rest ++ tail }

/-- A comment that ends with its line leaves the end of the line, whatever follows. -/
theorem skipLine_append (tail : List Char) (h : (Place.lineComment.after cs).isOutside = true) :
    skipLine (cs ++ tail) = skipLine cs ++ tail
      ∧ (Place.between false).after (skipLine cs) = Place.lineComment.after cs := by
  induction cs with
  | nil => cases h
  | cons c cs ih =>
    by_cases hc : c = '\n'
    · subst hc
      exact ⟨rfl, rfl⟩
    · have hnext : Place.lineComment.next c = .lineComment := if_neg hc
      rw [Place.after_cons, hnext] at h ⊢
      have hskip : ∀ ds, skipLine (c :: ds) = skipLine ds := fun ds =>
        List.dropWhile_cons_of_pos (by simpa using hc)
      rw [List.cons_append, hskip, hskip]
      exact ih h

/-- A block comment that ends leaves what is behind its end, whatever follows. -/
theorem skipComment_append (line : Nat) (tail : List Char)
    (h : ((Place.blockComment false).after cs).isOutside = true) :
    ∃ line' rest, skipComment line cs = some (line', rest)
      ∧ (Place.between false).after rest = (Place.blockComment false).after cs
      ∧ skipComment line (cs ++ tail) = some (line', rest ++ tail) := by
  fun_induction skipComment line cs with
  | case1 => cases h
  | case2 line cs => exact ⟨line, cs, rfl, rfl, rfl⟩
  | case3 line c cs hend ih =>
    cases cs with
    | nil => cases h
    | cons d cs =>
      have hclose : ¬ (c = '*' ∧ d = '/') := fun hc => hend cs hc.1 (by rw [hc.2])
      -- A star is forgotten behind the next character, which is no slash here.
      have hplace : (Place.blockComment (c == '*')).next d = (Place.blockComment false).next d := by
        simp [Place.next, hclose]
      rw [Place.after_cons, Place.next_blockComment, Place.after_cons, hplace] at h ⊢
      obtain ⟨line', rest, hread, hafter, happend⟩ := ih h
      refine ⟨line', rest, hread, hafter, ?_⟩
      rw [List.cons_append, List.cons_append, skipComment]
      · exact happend
      · exact fun _ hc hd => hclose ⟨hc, (List.cons.inj hd).1⟩

/-- A quoted string that ends is read whole, whatever follows. -/
theorem readQuoted_append (line : Nat) (tail : List Char)
    (h : ((Place.quoted false).after cs).isOutside = true) :
    ∃ q, readQuoted line cs = some q
      ∧ (Place.between false).after q.rest = (Place.quoted false).after cs
      ∧ readQuoted line (cs ++ tail) = some { q with rest := q.rest ++ tail } := by
  fun_induction readQuoted line cs with
  | case1 => cases h
  | case2 line cs => exact ⟨⟨[], line, cs⟩, rfl, rfl, rfl⟩
  | case3 line cs ih | case4 line cs ih =>
    obtain ⟨q, hread, hafter, happend⟩ := ih h
    refine ⟨q.cons _, by rw [hread]; rfl, hafter, ?_⟩
    simp only [List.cons_append, readQuoted, happend]
    rfl
  | case5 line cs ih =>
    obtain ⟨q, hread, hafter, happend⟩ := ih h
    exact ⟨q, hread, hafter, happend⟩
  | case6 line c cs hquote hescape hslash hjoin ih =>
    have hplain : (Place.quoted false).next c = .quoted (c == '\\') := if_neg hquote
    cases cs with
    | nil =>
      rw [Place.after_cons, hplain] at h
      cases h
    | cons d cs =>
      -- A backslash is forgotten behind the next character, which it does not escape here.
      have hplace : (Place.quoted (c == '\\')).next d = (Place.quoted false).next d := by
        by_cases hc : c = '\\'
        · have hd : d ≠ '"' ∧ d ≠ '\\' :=
            ⟨fun hd => hescape cs hc (by rw [hd]), fun hd => hslash cs hc (by rw [hd])⟩
          simp [Place.next, hc, hd]
        · rw [beq_false_of_ne hc]
      rw [Place.after_cons, hplain, Place.after_cons, hplace] at h ⊢
      obtain ⟨q, hread, hafter, happend⟩ := ih h
      refine ⟨q.cons c, by rw [hread]; rfl, hafter, ?_⟩
      rw [List.cons_append, List.cons_append, readQuoted]
      · rw [← List.cons_append, happend]
        rfl
      · exact hquote
      · exact fun _ hc hd => hescape cs hc (by rw [(List.cons.inj hd).1])
      · exact fun _ hc hd => hslash cs hc (by rw [(List.cons.inj hd).1])
      · exact fun _ hc hd => hjoin cs hc (by rw [(List.cons.inj hd).1])

/-- A run of word characters is a word, and what follows it goes on from there. -/
theorem dropWhile_append (tail : List Char) (hword : Place.word.after cs = .word → EndsWord tail) :
    (cs ++ tail).takeWhile isWordChar = cs.takeWhile isWordChar
      ∧ (cs ++ tail).dropWhile isWordChar = cs.dropWhile isWordChar ++ tail
      ∧ (cs.dropWhile isWordChar = []
        ∨ (Place.between false).after (cs.dropWhile isWordChar) = Place.word.after cs) := by
  induction cs with
  | nil =>
    have hends := hword rfl
    exact ⟨hends, hends.dropWhile_eq, Or.inl rfl⟩
  | cons c cs ih =>
    cases hc : isWordChar c with
    | true =>
      have hnext : Place.word.next c = .word := if_pos hc
      rw [Place.after_cons, hnext] at hword ⊢
      obtain ⟨htake, hdrop, hplace⟩ := ih hword
      rw [List.cons_append, List.takeWhile_cons_of_pos hc, List.takeWhile_cons_of_pos hc,
        List.dropWhile_cons_of_pos hc, List.dropWhile_cons_of_pos hc, htake]
      exact ⟨rfl, hdrop, hplace⟩
    | false =>
      have hc' : ¬ isWordChar c = true := by simp [hc]
      have hnext : Place.word.next c = .start false c := if_neg hc'
      rw [List.cons_append, List.takeWhile_cons_of_neg hc', List.takeWhile_cons_of_neg hc',
        List.dropWhile_cons_of_neg hc', List.dropWhile_cons_of_neg hc']
      exact ⟨rfl, rfl, Or.inr (by rw [Place.after_cons, Place.after_cons, hnext]; rfl)⟩

/-- A step of the lexer on some characters, and on the same ones with more behind them: the same
fault, or the same token, and then the rest stands at the given place. -/
inductive SameStep (tail : List Char) (place : Place) :
    Except Fault LexStep → Except Fault LexStep → Prop where
  | fault (fault : Fault) : SameStep tail place (.error fault) (.error fault)
  | step (step : LexStep)
      (hrest : step.rest = [] ∨ (Place.between false).after step.rest = place) :
      SameStep tail place (.ok step) (.ok (step.append tail))

namespace SameStep

variable {place : Place} {result : Except Fault LexStep}

theorem of_error {fault : Fault} (h : SameStep tail place (.error fault) result) :
    result = .error fault := by
  cases h
  rfl

theorem of_ok {step : LexStep} (h : SameStep tail place (.ok step) result) :
    result = .ok (step.append tail) := by
  cases h
  rfl

/-- The rest of a step is outside strings and comments if the place is, and in a word only
if the place is. -/
theorem place_rest {step : LexStep} (h : SameStep tail place (.ok step) result)
    (hout : place.isOutside = true) :
    ((Place.between false).after step.rest).isOutside = true
      ∧ ((Place.between false).after step.rest = .word → place = .word) := by
  cases h with
  | step _ hrest =>
    rcases hrest with hrest | hrest
    · rw [hrest]
      exact ⟨rfl, nofun⟩
    · rw [hrest]
      exact ⟨hout, id⟩

end SameStep

theorem lexOne_hash_append (hout : ((Place.start fresh '#').after cs).isOutside = true) :
    SameStep tail ((Place.start fresh '#').after cs)
      (lexOne line fresh '#' cs) (lexOne line fresh '#' (cs ++ tail)) := by
  cases fresh with
  | true =>
    obtain ⟨hskip, hplace⟩ := skipLine_append tail hout
    simp only [lexOne, hskip]
    exact .step _ (Or.inr hplace)
  | false => exact .fault _

theorem lexOne_loneSlash (h : c ≠ '/' ∧ c ≠ '*') :
    lexOne line fresh '/' (c :: cs) = .error ⟨line, .loneSlash⟩ := by
  simp [lexOne, h]

theorem lexOne_slash_append (line : Nat) (fresh : Bool) {behind : List Char} (hb : isBlank b = true)
    (hout : (Place.slash.after cs).isOutside = true) :
    SameStep (b :: behind) (Place.slash.after cs)
      (lexOne line fresh '/' cs) (lexOne line fresh '/' (cs ++ b :: behind)) := by
  cases cs with
  | nil =>
    have hlone : b ≠ '/' ∧ b ≠ '*' := by
      constructor <;> (rintro rfl; cases hb)
    rw [List.nil_append, lexOne_loneSlash hlone]
    exact .fault _
  | cons c cs =>
    by_cases hline : c = '/'
    · subst hline
      obtain ⟨hskip, hplace⟩ := skipLine_append (b :: behind) hout
      simp only [List.cons_append, lexOne, hskip]
      exact .step _ (Or.inr hplace)
    by_cases hblock : c = '*'
    · subst hblock
      obtain ⟨line', rest, hskip, hplace, happend⟩ :=
        skipComment_append line (b :: behind) hout
      simp only [List.cons_append, lexOne, hskip, happend]
      exact .step _ (Or.inr hplace)
    · rw [List.cons_append, lexOne_loneSlash ⟨hline, hblock⟩, lexOne_loneSlash ⟨hline, hblock⟩]
      exact .fault _

theorem lexOne_loneDash (h : ¬ (c = '-' ∨ c = '>')) (h' : ¬ (c.isDigit ∨ c = '.')) :
    lexOne line fresh '-' (c :: cs) = .error ⟨line, .loneDash⟩ := by
  simp only [lexOne]
  rw [if_neg h, if_neg h']

theorem lexOne_numeral (h : ¬ (c = '-' ∨ c = '>')) (h' : c.isDigit ∨ c = '.') :
    lexOne line fresh '-' (c :: cs)
      = .ok ⟨some (.word (String.ofList ('-' :: (c :: cs).takeWhile isWordChar))), line,
          (c :: cs).dropWhile isWordChar⟩ := by
  simp only [lexOne]
  rw [if_neg h, if_pos h']

theorem isWordChar_of_begins (h : c.isDigit ∨ c = '.') : isWordChar c = true := by
  rcases h with h | rfl
  · exact isWordChar_of_isIdentifierPart (isIdentifierPart_of_isDigit h)
  · rfl

theorem lexOne_dash_append (line : Nat) (fresh : Bool) {behind : List Char} (hb : isBlank b = true)
    (hout : (Place.dash.after cs).isOutside = true)
    (hword : Place.dash.after cs = .word → isWordChar b = false) :
    SameStep (b :: behind) (Place.dash.after cs)
      (lexOne line fresh '-' cs) (lexOne line fresh '-' (cs ++ b :: behind)) := by
  cases cs with
  | nil =>
    have hop : ¬ (b = '-' ∨ b = '>') := by
      rintro (rfl | rfl) <;> cases hb
    have hnumeral : ¬ (b.isDigit ∨ b = '.') := by
      rintro (h | rfl)
      · rw [not_isBlank_of_isIdentifierPart (isIdentifierPart_of_isDigit h)] at hb
        cases hb
      · cases hb
    rw [List.nil_append, lexOne_loneDash hop hnumeral]
    exact .fault _
  | cons c cs =>
    rw [List.cons_append]
    by_cases hop : c = '-' ∨ c = '>'
    · have hnext : Place.dash.next c = .between false := if_pos hop
      simp only [lexOne, if_pos hop]
      exact .step _ (Or.inr (by rw [Place.after_cons, hnext]))
    by_cases hnumeral : c.isDigit ∨ c = '.'
    · have hnext : Place.dash.next c = Place.word.next c := by
        rw [Place.next, if_neg hop, if_pos hnumeral, Place.next,
          if_pos (isWordChar_of_begins hnumeral)]
      rw [Place.after_cons, hnext, ← Place.after_cons] at hword ⊢
      obtain ⟨htake, hdrop, hplace⟩ := dropWhile_append (b :: behind) fun h =>
        endsWord_cons_iff.mpr (hword h)
      rw [lexOne_numeral hop hnumeral, lexOne_numeral hop hnumeral, ← List.cons_append, htake,
        hdrop]
      exact .step _ hplace
    · rw [lexOne_loneDash hop hnumeral, lexOne_loneDash hop hnumeral]
      exact .fault _

/-- Reading the token or comment that starts with a character does not depend on what follows
a blank outside strings and comments, and leaves what is behind the place it ends at. -/
theorem lexOne_append (line : Nat) (behind : List Char) (hc : isBlank c = false)
    (hb : isBlank b = true) (hout : ((Place.start fresh c).after cs).isOutside = true)
    (hword : (Place.start fresh c).after cs = .word → isWordChar b = false) :
    SameStep (b :: behind) ((Place.start fresh c).after cs)
      (lexOne line fresh c cs) (lexOne line fresh c (cs ++ b :: behind)) := by
  unfold lexOne
  split
  case h_1 => exact lexOne_hash_append hout
  case h_2 => exact lexOne_slash_append line fresh hb hout
  case h_10 => exact lexOne_dash_append line fresh hb hout hword
  case h_11 =>
    obtain ⟨q, hread, hplace, happend⟩ := readQuoted_append line (b :: behind) hout
    simp only [hread, happend]
    exact .step _ (Or.inr hplace)
  case h_12 hhash hslash _ _ _ _ _ _ _ hdash hquote =>
    have hstart : Place.start fresh c = if isWordChar c then .word else .between false := by
      rw [Place.start, if_neg (ne_newline_of_not_isBlank hc), if_neg (by simp [hc]),
        if_neg fun h => hhash h.1, if_neg hslash, if_neg hdash, if_neg hquote]
    cases hcw : isWordChar c with
    | true =>
      rw [hstart, if_pos hcw] at hword ⊢
      obtain ⟨htake, hdrop, hplace⟩ := dropWhile_append (b :: behind) fun h =>
        endsWord_cons_iff.mpr (hword h)
      rw [htake, hdrop]
      exact .step _ hplace
    | false => exact .fault _
  all_goals exact .step _ (Or.inr rfl)

/-! ## Blanks part a text -/

theorem lex_blank (hb : isBlank b = true) (hline : b ≠ '\n') :
    lex line fresh (b :: cs) = lex line fresh cs := by
  rw [lex, if_neg hline, if_pos hb]

/-- What parts the rest of a step parts the text before the step as well. -/
theorem lex_append_of_lexOne {step : LexStep} {line' : Nat} {fresh' : Bool} {behind : List Char}
    (hc : isBlank c = false) (hone : lexOne line fresh c cs = .ok step)
    (hmore : lexOne line fresh c (cs ++ tail) = .ok (step.append tail))
    (hparts : lex step.line false (step.rest ++ tail)
      = (lex step.line false step.rest).bind fun lexemes =>
          (lex line' fresh' behind).map (lexemes ++ ·)) :
    lex line fresh (c :: cs ++ tail)
      = (lex line fresh (c :: cs)).bind fun lexemes =>
          (lex line' fresh' behind).map (lexemes ++ ·) := by
  rw [List.cons_append, lex_cons hc, lex_cons hc, hmore, hone]
  simp only [Except.bind, LexStep.append, hparts]
  cases lex step.line false step.rest with
  | error fault => rfl
  | ok lexemes =>
    cases lex line' fresh' behind with
    | error fault => rfl
    | ok more => exact congrArg Except.ok (List.append_assoc _ lexemes more).symm

/-- A blank outside strings and comments parts a text: the tokens are those before it and
those behind it, whichever blank it is.  Directly behind a word it has to be one that no word
has. -/
theorem lex_append_blank (line : Nat) (fresh : Bool) (before : List Char)
    (hout : ((Place.between fresh).after before).isOutside = true) :
    ∃ line' fresh', ∀ b behind, isBlank b = true → b ≠ '\n' →
      ((Place.between fresh).after before = .word → isWordChar b = false) →
      lex line fresh (before ++ b :: behind)
        = (lex line fresh before).bind fun lexemes =>
            (lex line' fresh' behind).map (lexemes ++ ·) := by
  match before with
  | [] =>
    refine ⟨line, fresh, fun b behind hb hline _ => ?_⟩
    rw [List.nil_append, lex_blank hb hline, lex]
    cases lex line fresh behind <;> rfl
  | c :: before =>
    rw [Place.after_cons, Place.next] at hout ⊢
    by_cases hnewline : c = '\n'
    · have hplace : Place.start fresh c = .between true := if_pos hnewline
      rw [hplace] at hout ⊢
      obtain ⟨line', fresh', hparts⟩ := lex_append_blank (line + 1) true before hout
      refine ⟨line', fresh', ?_⟩
      simpa only [List.cons_append, lex, if_pos hnewline] using hparts
    cases hc : isBlank c with
    | true =>
      have hplace : Place.start fresh c = .between fresh := by
        rw [Place.start, if_neg hnewline, if_pos hc]
      rw [hplace] at hout ⊢
      obtain ⟨line', fresh', hparts⟩ := lex_append_blank line fresh before hout
      refine ⟨line', fresh', ?_⟩
      simpa only [List.cons_append, lex_blank hc hnewline] using hparts
    | false =>
      have hstep := fun b behind (hb : isBlank b = true) hword =>
        lexOne_append line behind hc hb hout hword
      cases hone : lexOne line fresh c before with
      | error fault =>
        rw [hone] at hstep
        refine ⟨line, fresh, fun b behind hb _ hword => ?_⟩
        rw [List.cons_append, lex_cons hc, lex_cons hc, (hstep b behind hb hword).of_error, hone]
        rfl
      | ok step =>
        rw [hone] at hstep
        have hshorter := lexOne_length hone
        obtain ⟨hout', hword'⟩ := (hstep ' ' [] rfl fun _ => rfl).place_rest hout
        obtain ⟨line', fresh', hparts⟩ := lex_append_blank step.line false step.rest hout'
        refine ⟨line', fresh', fun b behind hb hline hword => ?_⟩
        refine lex_append_of_lexOne hc hone (hstep b behind hb hword).of_ok ?_
        exact hparts b behind hb hline fun h => hword (hword' h)
termination_by before.length
decreasing_by
  all_goals
    subst_vars
    simp only [List.length_cons]
    omega

/-- The blanks that words go on with are those beyond ASCII. -/
theorem isWordChar_iff_of_isBlank (hc : isBlank c = true) :
    isWordChar c = true ↔ 0x80 ≤ c.toNat := by
  have hpart : isIdentifierPart c = false := by
    cases h : isIdentifierPart c with
    | true => rw [not_isBlank_of_isIdentifierPart h] at hc; cases hc
    | false => rfl
  have hpoint : c ≠ '.' := by
    rintro rfl
    cases hc
  rw [isIdentifierPart, Bool.or_eq_false_iff] at hpart
  simp [isWordChar, hpart, hpoint]

/-- Outside strings and comments any blank but the end of a line is as good as a space: the text
is read as the same graph, or refused with the same fault.  Directly behind a bare word this
is so for the blanks of ASCII only. -/
theorem read_blank {before behind : List Char} (hc : isBlank c = true) (hline : c ≠ '\n')
    (hout : (placeBehind before).isOutside = true)
    (hword : placeBehind before = .word → c.toNat < 0x80) :
    read (String.ofList (before ++ c :: behind))
      = read (String.ofList (before ++ ' ' :: behind)) := by
  have hc' : placeBehind before = .word → isWordChar c = false := fun h => by
    rw [Bool.eq_false_iff, Ne, isWordChar_iff_of_isBlank hc]
    exact Nat.not_le.mpr (hword h)
  obtain ⟨line', fresh', hparts⟩ := lex_append_blank 1 true before hout
  have htokens : tokens 1 (String.ofList (before ++ c :: behind))
      = tokens 1 (String.ofList (before ++ ' ' :: behind)) := by
    rw [tokens, tokens, String.toList_ofList, String.toList_ofList,
      hparts c behind hc hline hc', hparts ' ' behind rfl (by decide) fun _ => rfl]
  rw [read, read, readGraph, readGraph, htokens]

/-- Behind a number, a dash, a quoted string and a comment: a tabulator instead of a space. -/
theorem read_blank_tab :
    read (String.ofList ("graph \x7b -1".toList ++ '\t' :: "-- b \x7d".toList))
      = read (String.ofList ("graph \x7b -1".toList ++ ' ' :: "-- b \x7d".toList)) :=
  read_blank rfl (by decide) (by decide) fun _ => by decide

/-- A no-break space between two words makes one word of them, and one vertex instead of two. -/
theorem read_blank_word :
    isBlank '\u00a0' = true ∧ '\u00a0' ≠ '\n' ∧ (placeBehind "graph \x7b a".toList).isOutside = true
      ∧ (read (String.ofList ("graph \x7b a".toList ++ '\u00a0' :: "b \x7d".toList))).toOption.map
          Graph.size = some 1
      ∧ (read (String.ofList ("graph \x7b a".toList ++ ' ' :: "b \x7d".toList))).toOption.map
          Graph.size = some 2 := by
  have hjoined : tokens 1 "graph \x7b a\u00a0b \x7d"
      = .ok [⟨.word "graph", 1⟩, ⟨.leftBrace, 1⟩, ⟨.word "a\u00a0b", 1⟩, ⟨.rightBrace, 1⟩] := by
    cbv
  have hparted : tokens 1 "graph \x7b a b \x7d"
      = .ok [⟨.word "graph", 1⟩, ⟨.leftBrace, 1⟩, ⟨.word "a", 1⟩, ⟨.word "b", 1⟩,
        ⟨.rightBrace, 1⟩] := by
    cbv
  refine ⟨rfl, by decide, by decide, ?_, ?_⟩
  · change (read "graph \x7b a\u00a0b \x7d").toOption.map Graph.size = _
    rw [read, readGraph, hjoined]
    decide +kernel
  · change (read "graph \x7b a b \x7d").toOption.map Graph.size = _
    rw [read, readGraph, hparted]
    decide +kernel

end GraphDependency.Dot
