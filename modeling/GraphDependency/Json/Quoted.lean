set_option autoImplicit false

/-!
# Quoted strings

Strings between double quotes.  Written are escapes for the quote, the backslash
and the control characters, and every other character as it is.  Read are also
the escape of the slash and code units in four hexadecimal digits; a character
outside the basic plane takes two of these, a leading and a trailing surrogate.
A surrogate without its partner is well formed but stands for no character.

Main statement: `readUnits_quoted`, what was written is read back.
-/

namespace GraphDependency.Json

/-! ## Writing -/

/-- A hexadecimal digit, in lowercase. -/
def hexDigit (n : Nat) : Char := if n < 10 then Char.ofNat (48 + n) else Char.ofNat (87 + n)

/-- What stands for a character between the quotes. -/
def escapeChar (c : Char) : List Char :=
  if c = '"' then ['\\', '"']
  else if c = '\\' then ['\\', '\\']
  else if c = '\x08' then ['\\', 'b']
  else if c = '\x0c' then ['\\', 'f']
  else if c = '\n' then ['\\', 'n']
  else if c = '\r' then ['\\', 'r']
  else if c = '\t' then ['\\', 't']
  else if c.toNat < 0x20 then
    ['\\', 'u', '0', '0', hexDigit (c.toNat / 16), hexDigit (c.toNat % 16)]
  else [c]

/-- The spelling of a string. -/
def quoted (text : List Char) : List Char := '"' :: (text.flatMap escapeChar ++ ['"'])

/-! ## Reading -/

/-- The value of a hexadecimal digit. -/
def hexValue? (c : Char) : Option Nat :=
  if '0' ≤ c ∧ c ≤ '9' then some (c.toNat - 48)
  else if 'a' ≤ c ∧ c ≤ 'f' then some (c.toNat - 87)
  else if 'A' ≤ c ∧ c ≤ 'F' then some (c.toNat - 55)
  else none

/-- The code unit of four hexadecimal digits. -/
def codeUnit? (a b c d : Char) : Option Nat := do
  let a ← hexValue? a
  let b ← hexValue? b
  let c ← hexValue? c
  let d ← hexValue? d
  some (((a * 16 + b) * 16 + c) * 16 + d)

/-- The character that an escape of one letter stands for. -/
def shortEscape? (c : Char) : Option Char :=
  if c = '"' ∨ c = '\\' ∨ c = '/' then some c
  else if c = 'b' then some '\x08'
  else if c = 'f' then some '\x0c'
  else if c = 'n' then some '\n'
  else if c = 'r' then some '\r'
  else if c = 't' then some '\t'
  else none

/-- What a quoted string holds and what follows it.  The content is a list of
code points, among which surrogates may still stand. -/
structure Units where
  points : List Nat
  rest : List Char
  deriving DecidableEq, Repr, Inhabited

/-- Puts a code point in front. -/
def Units.cons (n : Nat) (u : Units) : Units := { u with points := n :: u.points }

/-- Reads a quoted string after its opening quote; nothing if it is not well
formed. -/
def readUnits : List Char → Option Units
  | [] => none
  | '"' :: cs => some ⟨[], cs⟩
  | ['\\'] => none
  | '\\' :: 'u' :: a :: b :: c :: d :: cs =>
    match codeUnit? a b c d with
    | some n => (readUnits cs).map (.cons n)
    | none => none
  | '\\' :: e :: cs =>
    match shortEscape? e with
    | some c => (readUnits cs).map (.cons c.toNat)
    | none => none
  | c :: cs => if c.toNat < 0x20 then none else (readUnits cs).map (.cons c.toNat)

/-- A surrogate that starts a pair. -/
def isLeading (n : Nat) : Bool := 0xD800 ≤ n && n < 0xDC00

/-- A surrogate that ends a pair. -/
def isTrailing (n : Nat) : Bool := 0xDC00 ≤ n && n < 0xE000

/-- The characters of code points; nothing if a surrogate stands alone. -/
def pairUp? : List Nat → Option (List Char)
  | [] => some []
  | [n] => if isLeading n || isTrailing n then none else some [Char.ofNat n]
  | n :: m :: rest =>
    if isLeading n then
      if isTrailing m then
        (pairUp? rest).map (Char.ofNat (0x10000 + (n - 0xD800) * 0x400 + (m - 0xDC00)) :: ·)
      else none
    else if isTrailing n then none
    else (pairUp? (m :: rest)).map (Char.ofNat n :: ·)

/-- Reading a string leaves less than there was. -/
theorem readUnits_length {cs : List Char} {u : Units} (h : readUnits cs = some u) :
    u.rest.length < cs.length := by
  fun_induction readUnits cs generalizing u with
  | case1 => simp at h
  | case2 cs => simp only [Option.some.injEq] at h; simp [← h]
  | case3 => simp at h
  | case4 a b c d cs n hn ih =>
    obtain ⟨v, hv, rfl⟩ := Option.map_eq_some_iff.mp h
    have := ih hv
    simp only [Units.cons, List.length_cons]
    omega
  | case5 => simp at h
  | case6 e cs hne c hc ih =>
    obtain ⟨v, hv, rfl⟩ := Option.map_eq_some_iff.mp h
    have := ih hv
    simp only [Units.cons, List.length_cons]
    omega
  | case7 => simp at h
  | case8 => simp at h
  | case9 c cs _ _ _ _ _ ih =>
    obtain ⟨v, hv, rfl⟩ := Option.map_eq_some_iff.mp h
    have := ih hv
    simp only [Units.cons, List.length_cons]
    omega

theorem hexValue?_hexDigit : ∀ n < 16, hexValue? (hexDigit n) = some n := by decide

theorem readUnits_plain {c : Char} {cs : List Char} (hq : c ≠ '"') (hb : c ≠ '\\')
    (hc : 0x20 ≤ c.toNat) : readUnits (c :: cs) = (readUnits cs).map (.cons c.toNat) := by
  rw [readUnits, if_neg (Nat.not_lt.mpr hc)]
  · exact hq
  · exact fun h _ => hb h
  · exact fun _ _ _ _ _ h _ => hb h
  · exact fun _ _ h _ => hb h

theorem readUnits_escapeChar (c : Char) (cs : List Char) :
    readUnits (escapeChar c ++ cs) = (readUnits cs).map (.cons c.toNat) := by
  unfold escapeChar
  split
  · subst_vars; simp [readUnits, shortEscape?]
  split
  · subst_vars; simp [readUnits, shortEscape?]
  split
  · subst_vars; simp [readUnits, shortEscape?]
  split
  · subst_vars; simp [readUnits, shortEscape?]
  split
  · subst_vars; simp [readUnits, shortEscape?]
  split
  · subst_vars; simp [readUnits, shortEscape?]
  split
  · subst_vars; simp [readUnits, shortEscape?]
  split
  · rename_i hc
    have h1 := hexValue?_hexDigit (c.toNat / 16) (by omega)
    have h2 := hexValue?_hexDigit (c.toNat % 16) (by omega)
    have h0 : hexValue? '0' = some 0 := by decide
    have hu : codeUnit? '0' '0' (hexDigit (c.toNat / 16)) (hexDigit (c.toNat % 16))
        = some c.toNat := by
      simp only [codeUnit?, h0, h1, h2, Option.bind_eq_bind, Option.bind_some, Option.some.injEq]
      omega
    simp [readUnits, hu]
  · rename_i hq hb _ _ _ _ _ hc
    exact readUnits_plain hq hb (Nat.le_of_not_lt hc)

theorem pairUp?_toNat (text : List Char) : pairUp? (text.map Char.toNat) = some text := by
  have scalar (c : Char) : isLeading c.toNat = false ∧ isTrailing c.toNat = false := by
    have := c.valid
    simp only [UInt32.isValidChar, Nat.isValidChar] at this
    simp only [isLeading, isTrailing, Bool.and_eq_false_iff, decide_eq_false_iff_not]
    have h : c.toNat = c.val.toNat := rfl
    omega
  induction text with
  | nil => rfl
  | cons c text ih =>
    cases text with
    | nil => simp [pairUp?, scalar c]
    | cons d text =>
      simp only [List.map_cons] at ih ⊢
      simp [pairUp?, scalar c, ih]

/-- What was written is read back. -/
theorem readUnits_quoted (text rest : List Char) :
    readUnits (text.flatMap escapeChar ++ '"' :: rest)
      = some ⟨text.map Char.toNat, rest⟩ := by
  induction text with
  | nil => simp [readUnits]
  | cons c text ih =>
    rw [List.flatMap_cons, List.append_assoc, readUnits_escapeChar, ih]
    rfl

end GraphDependency.Json
