import GraphDependency.Json.Quoted

set_option autoImplicit false

/-!
# From document text to tokens

Brackets, punctuation, the three named values, numbers and strings, with blanks
between them.  Of numbers only the natural ones have a value here; all others are
told apart from them, and no more.  A text that goes wrong has tokens up to the
place where it does, and a stray one there.

Main statement: `lexOne_length`, reading a token takes nothing that stands
before it.
-/

namespace GraphDependency.Json

/-- The tokens of a document. -/
inductive Token where
  | leftBrace
  | rightBrace
  | leftBracket
  | rightBracket
  | colon
  | comma
  | null
  | boolean (value : Bool)
  /-- a number without sign, fraction and exponent -/
  | natural (n : Nat)
  /-- any other number -/
  | number
  /-- a string; without a text if a surrogate stands alone in it -/
  | string (text? : Option String)
  /-- what begins no token -/
  | stray
  deriving DecidableEq, Repr, Inhabited

/-- Blanks, tabs and the ends of lines. -/
def isSpace (c : Char) : Bool := c == ' ' || c == '\t' || c == '\n' || c == '\r'

/-- The value of decimal digits. -/
def digitsValue (cs : List Char) : Nat := cs.foldl (fun n c => n * 10 + (c.toNat - 48)) 0

/-- The digits in front of a text, and what follows them. -/
def spanDigits (cs : List Char) : List Char × List Char :=
  (cs.takeWhile Char.isDigit, cs.dropWhile Char.isDigit)

/-- What follows the fraction of a number, if there is one; nothing if its point
has no digit after it. -/
def skipFraction? : List Char → Option (Bool × List Char)
  | '.' :: cs =>
    if (spanDigits cs).1.isEmpty then none else some (true, (spanDigits cs).2)
  | cs => some (false, cs)

/-- What follows a sign, if there is one. -/
def skipSign : List Char → List Char
  | '+' :: cs => cs
  | '-' :: cs => cs
  | cs => cs

/-- What follows the exponent of a number, if there is one; nothing if it has no
digit. -/
def skipExponent? : List Char → Option (Bool × List Char)
  | c :: cs =>
    if c = 'e' ∨ c = 'E' then
      let ds := spanDigits (skipSign cs)
      if ds.1.isEmpty then none else some (true, ds.2)
    else some (false, c :: cs)
  | [] => some (false, [])

/-- The digits before the point of a number that starts with the character `c`,
and what follows them.  A zero in front is the only digit. -/
def wholePart? (c : Char) (cs : List Char) : Option (List Char × List Char) :=
  if c = '0' then some (['0'], cs)
  else if c.isDigit then some (spanDigits (c :: cs))
  else none

/-- Reads a number after its sign, of which `c` is the first character. -/
def lexNumber (negative : Bool) (c : Char) (cs : List Char) : Token × List Char :=
  match wholePart? c cs with
  | none => (.stray, [])
  | some (whole, rest) =>
    match skipFraction? rest with
    | none => (.stray, [])
    | some (fraction, rest) =>
      match skipExponent? rest with
      | none => (.stray, [])
      | some (exponent, rest) =>
        (if negative || fraction || exponent then .number else .natural (digitsValue whole), rest)

/-- Reads a named value of which the first character was read. -/
def lexName (name : List Char) (token : Token) (cs : List Char) : Token × List Char :=
  if name.isPrefixOf cs then (token, cs.drop name.length) else (.stray, [])

/-- Reads the token that starts with the character `c`, and returns what follows.
Nothing follows a stray token. -/
def lexOne (c : Char) (cs : List Char) : Token × List Char :=
  match c with
  | '\x7b' => (.leftBrace, cs)
  | '\x7d' => (.rightBrace, cs)
  | '[' => (.leftBracket, cs)
  | ']' => (.rightBracket, cs)
  | ':' => (.colon, cs)
  | ',' => (.comma, cs)
  | '"' =>
    match readUnits cs with
    | some u => (.string ((pairUp? u.points).map String.ofList), u.rest)
    | none => (.stray, [])
  | 'n' => lexName ['u', 'l', 'l'] .null cs
  | 't' => lexName ['r', 'u', 'e'] (.boolean true) cs
  | 'f' => lexName ['a', 'l', 's', 'e'] (.boolean false) cs
  | '-' =>
    match cs with
    | d :: cs => lexNumber true d cs
    | [] => (.stray, [])
  | c => lexNumber false c cs

theorem spanDigits_length (cs : List Char) : (spanDigits cs).2.length ≤ cs.length :=
  (List.dropWhile_suffix _).length_le

theorem skipFraction?_length {cs rest : List Char} {b : Bool}
    (h : skipFraction? cs = some (b, rest)) : rest.length ≤ cs.length := by
  unfold skipFraction? at h
  split at h
  · rename_i cs
    have := spanDigits_length cs
    split at h
    · simp at h
    · simp only [Option.some.injEq, Prod.mk.injEq] at h
      simp only [← h.2, List.length_cons]
      omega
  · simp only [Option.some.injEq, Prod.mk.injEq] at h
    simp [h.2]

theorem skipSign_length (cs : List Char) : (skipSign cs).length ≤ cs.length := by
  unfold skipSign
  split <;> simp

theorem skipExponent?_length {cs rest : List Char} {b : Bool}
    (h : skipExponent? cs = some (b, rest)) : rest.length ≤ cs.length := by
  unfold skipExponent? at h
  split at h
  · rename_i c cs
    have h₁ := spanDigits_length (skipSign cs)
    have h₂ := skipSign_length cs
    split at h
    · dsimp only at h
      split at h
      · simp at h
      · simp only [Option.some.injEq, Prod.mk.injEq] at h
        simp only [← h.2, List.length_cons]
        omega
    · simp only [Option.some.injEq, Prod.mk.injEq] at h
      simp [← h.2]
  · simp only [Option.some.injEq, Prod.mk.injEq] at h
    simp [← h.2]

theorem wholePart?_length {c : Char} {cs whole rest : List Char}
    (h : wholePart? c cs = some (whole, rest)) : rest.length ≤ cs.length := by
  unfold wholePart? at h
  split at h
  · simp only [Option.some.injEq, Prod.mk.injEq] at h
    simp [h.2]
  · split at h
    · rename_i hc
      have := spanDigits_length cs
      simp only [Option.some.injEq, spanDigits, Prod.mk.injEq] at h
      rw [← h.2, List.dropWhile_cons, if_pos hc]
      exact this
    · simp at h

theorem lexNumber_length (negative : Bool) (c : Char) (cs : List Char) :
    (lexNumber negative c cs).2.length ≤ cs.length := by
  unfold lexNumber
  split
  · simp
  · rename_i hw
    have := wholePart?_length hw
    split
    · simp
    · rename_i hf
      have := skipFraction?_length hf
      split
      · simp
      · rename_i hx
        have := skipExponent?_length hx
        dsimp only
        omega

theorem lexName_length (name : List Char) (token : Token) (cs : List Char) :
    (lexName name token cs).2.length ≤ cs.length := by
  unfold lexName
  split <;> simp

/-- Reading a token leaves no more than what followed its first character. -/
theorem lexOne_length (c : Char) (cs : List Char) : (lexOne c cs).2.length ≤ cs.length := by
  unfold lexOne
  split
  case h_7 =>
    split
    · rename_i u hu
      exact Nat.le_of_lt (readUnits_length hu)
    · simp
  case h_11 =>
    split
    · rename_i d cs
      have := lexNumber_length true d cs
      simp only [List.length_cons]
      omega
    · simp
  case h_12 => exact lexNumber_length false c cs
  all_goals first | exact Nat.le_refl _ | exact lexName_length _ _ _

/-- The tokens of a text. -/
def lex : List Char → List Token
  | [] => []
  | c :: cs =>
    if isSpace c then lex cs
    else (lexOne c cs).1 :: lex (lexOne c cs).2
termination_by cs => cs.length
decreasing_by
  · exact Nat.lt_succ_self _
  · exact Nat.lt_succ_of_le (lexOne_length c cs)

end GraphDependency.Json
