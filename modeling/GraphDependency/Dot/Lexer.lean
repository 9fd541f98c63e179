import GraphDependency.Dot.Token

set_option autoImplicit false

/-!
# From graph text to tokens

Tokens are separated by blank characters and comments: from a hash sign that is
the first thing on its line, or from two slashes, to the end of the line; or
between a slash with a star and a star with a slash.  Every token carries the
line on which it starts.

Main statement: `lexOne_length`, a step of the lexer leaves no more than what
followed its first character, so the text gets shorter with every step.
-/

namespace GraphDependency.Dot

open GraphDependency.Text

/-- ASCII letters and digits. -/
def isAsciiAlnum (c : Char) : Bool :=
  ('a' ≤ c && c ≤ 'z') || ('A' ≤ c && c ≤ 'Z') || ('0' ≤ c && c ≤ '9')

/-- The character can stand in a bare identifier: ASCII letters, digits,
underscores and points, and everything outside ASCII. -/
def isWordChar (c : Char) : Bool :=
  isAsciiAlnum c || c == '_' || c == '.' || 0x80 ≤ c.toNat

/-- Drops the rest of the line, but not its end. -/
def skipLine (cs : List Char) : List Char := cs.dropWhile fun c => c != '\n'

/-- Drops a block comment after its opening.  Returns the line on which it ends
and what follows, or nothing if it does not end. -/
def skipComment (line : Nat) : List Char → Option (Nat × List Char)
  | [] => none
  | '*' :: '/' :: cs => some (line, cs)
  | c :: cs => skipComment (if c = '\n' then line + 1 else line) cs

/-- What a quoted string holds, the line on which it ends and what follows it. -/
structure QuotedText where
  value : List Char
  line : Nat
  rest : List Char
  deriving DecidableEq, Repr, Inhabited

/-- Puts a character in front of the value. -/
def QuotedText.cons (c : Char) (q : QuotedText) : QuotedText := { q with value := c :: q.value }

/-- Reads a quoted string after its opening quote.  A backslash escapes a quote
and a backslash, before the end of a line it joins the next line, and before
anything else it stands for itself. -/
def readQuoted (line : Nat) : List Char → Option QuotedText
  | [] => none
  | '"' :: cs => some ⟨[], line, cs⟩
  | '\\' :: '"' :: cs => (readQuoted line cs).map (.cons '"')
  | '\\' :: '\\' :: cs => (readQuoted line cs).map (.cons '\\')
  | '\\' :: '\n' :: cs => readQuoted (line + 1) cs
  | c :: cs => (readQuoted (if c = '\n' then line + 1 else line) cs).map (.cons c)

/-- What one step of the lexer leaves behind. -/
structure LexStep where
  /-- The token read, unless it was a comment. -/
  token? : Option Token
  /-- The line at which reading goes on. -/
  line : Nat
  /-- The text still to be read. -/
  rest : List Char
  deriving DecidableEq, Repr, Inhabited

/-- Reads the token or comment that starts with the character `c`, which is not
blank; `fresh` says that it is the first one on its line. -/
def lexOne (line : Nat) (fresh : Bool) (c : Char) (cs : List Char) : Except Fault LexStep :=
  match c with
  | '#' =>
    if fresh then .ok ⟨none, line, skipLine cs⟩
    else .error ⟨line, .strayCharacter '#'⟩
  | '/' =>
    match cs with
    | '/' :: cs => .ok ⟨none, line, skipLine cs⟩
    | '*' :: cs =>
      match skipComment line cs with
      | some (line', rest) => .ok ⟨none, line', rest⟩
      | none => .error ⟨line, .openComment⟩
    | _ => .error ⟨line, .loneSlash⟩
  | '{' => .ok ⟨some .leftBrace, line, cs⟩
  | '}' => .ok ⟨some .rightBrace, line, cs⟩
  | '[' => .ok ⟨some .leftBracket, line, cs⟩
  | ']' => .ok ⟨some .rightBracket, line, cs⟩
  | '=' => .ok ⟨some .equals, line, cs⟩
  | ',' => .ok ⟨some .comma, line, cs⟩
  | ';' => .ok ⟨some .semicolon, line, cs⟩
  | '-' =>
    match cs with
    | [] => .error ⟨line, .loneDash⟩
    | d :: rest =>
      if d = '-' ∨ d = '>' then .ok ⟨some .edgeOp, line, rest⟩
      else if d.isDigit ∨ d = '.' then
        .ok ⟨some (.word (String.ofList ('-' :: cs.takeWhile isWordChar))), line,
          cs.dropWhile isWordChar⟩
      else .error ⟨line, .loneDash⟩
  | '"' =>
    match readQuoted line cs with
    | some q => .ok ⟨some (.quoted (String.ofList q.value)), q.line, q.rest⟩
    | none => .error ⟨line, .openString⟩
  | c =>
    if isWordChar c then
      .ok ⟨some (.word (String.ofList (c :: cs.takeWhile isWordChar))), line,
        cs.dropWhile isWordChar⟩
    else .error ⟨line, .strayCharacter c⟩

theorem length_dropWhile_le (p : Char → Bool) (cs : List Char) :
    (cs.dropWhile p).length ≤ cs.length :=
  (List.dropWhile_suffix p).length_le

theorem skipComment_length {line line' : Nat} {cs rest : List Char}
    (h : skipComment line cs = some (line', rest)) : rest.length ≤ cs.length := by
  fun_induction skipComment line cs with
  | case1 => simp at h
  | case2 => simp only [Option.some.injEq, Prod.mk.injEq] at h; simp [← h.2]; omega
  | case3 _ _ _ _ ih => have := ih h; simp only [List.length_cons]; omega

theorem readQuoted_length {line : Nat} {cs : List Char} {q : QuotedText}
    (h : readQuoted line cs = some q) : q.rest.length ≤ cs.length := by
  fun_induction readQuoted line cs generalizing q with
  | case1 => simp at h
  | case2 => simp only [Option.some.injEq] at h; simp [← h]
  | case3 _ _ ih | case4 _ _ ih =>
    obtain ⟨q', hq, rfl⟩ := Option.map_eq_some_iff.mp h
    have := ih hq
    simp only [QuotedText.cons, List.length_cons]
    omega
  | case5 _ _ ih => have := ih h; simp only [List.length_cons]; omega
  | case6 _ _ _ _ _ _ _ ih =>
    obtain ⟨q', hq, rfl⟩ := Option.map_eq_some_iff.mp h
    have := ih hq
    simp only [QuotedText.cons, List.length_cons]
    omega

/-- A step of the lexer leaves no more than what followed its first character. -/
theorem lexOne_length {line : Nat} {fresh : Bool} {c : Char} {cs : List Char} {s : LexStep}
    (h : lexOne line fresh c cs = .ok s) : s.rest.length ≤ cs.length := by
  have hd := length_dropWhile_le isWordChar cs
  unfold lexOne skipLine at h
  split at h
  case h_1 =>
    split at h
    · simp only [Except.ok.injEq] at h
      simpa [← h] using length_dropWhile_le (fun c => c != '\n') cs
    · simp at h
  case h_2 =>
    split at h
    · rename_i cs
      simp only [Except.ok.injEq] at h
      have := length_dropWhile_le (fun c => c != '\n') cs
      simp only [← h, List.length_cons]
      omega
    · split at h
      · rename_i hs
        have := skipComment_length hs
        simp only [Except.ok.injEq] at h
        simp only [← h, List.length_cons]
        omega
      · simp at h
    · simp at h
  case h_10 =>
    split at h
    · simp at h
    · split at h
      · simp only [Except.ok.injEq] at h
        simp [← h]
      · split at h
        · simp only [Except.ok.injEq] at h
          simpa [← h] using hd
        · simp at h
  case h_11 =>
    split at h
    · rename_i hq
      simp only [Except.ok.injEq] at h
      simpa [← h] using readQuoted_length hq
    · simp at h
  case h_12 =>
    split at h
    · simp only [Except.ok.injEq] at h
      simpa [← h] using hd
    · simp at h
  all_goals
    simp only [Except.ok.injEq] at h
    simp [← h]

/-- The tokens of a text that starts at the given line; `fresh` says that
nothing but blanks precedes it on that line. -/
def lex (line : Nat) (fresh : Bool) : List Char → Except Fault (List Lexeme)
  | [] => .ok []
  | c :: cs =>
    if c = '\n' then lex (line + 1) true cs
    else if isBlank c then lex line fresh cs
    else
      match h : lexOne line fresh c cs with
      | .error fault => .error fault
      | .ok step =>
        have := lexOne_length h
        match lex step.line false step.rest with
        | .error fault => .error fault
        | .ok lexemes =>
          match step.token? with
          | some token => .ok (⟨token, line⟩ :: lexemes)
          | none => .ok lexemes
termination_by cs => cs.length
decreasing_by
  · exact Nat.lt_succ_self _
  · exact Nat.lt_succ_self _
  · exact Nat.lt_succ_of_le this

/-- The tokens of a text whose first line has the given number. -/
def tokens (firstLine : Nat) (text : String) : Except Fault (List Lexeme) :=
  lex firstLine true text.toList

end GraphDependency.Dot
