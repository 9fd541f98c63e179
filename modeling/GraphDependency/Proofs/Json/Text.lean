import GraphDependency.Json.Document
import GraphDependency.Json.Value
import GraphDependency.Proofs.Text.Numeral

set_option autoImplicit false

/-!
# The text of a value

Reading takes a written value back apart into its tokens, and builds from these the document
of the value.  It does not matter whether the value is written without blanks or with one
element on a line.

Main statements: `lex_compact`, `lex_pretty`, `run_tokens` and `ofText_compact`.
-/

namespace GraphDependency.Json

open GraphDependency.Text

variable {c : Char} {cs ds rest : List Char} {ts : List Token}

/-! ## Numbers -/

/-- No number goes on into these characters. -/
def EndsNumber (cs : List Char) : Prop :=
  ∀ c ∈ cs.head?, c.isDigit = false ∧ c ≠ '.' ∧ c ≠ 'e' ∧ c ≠ 'E'

theorem endsNumber_nil : EndsNumber [] := nofun

theorem EndsNumber.append (hcs : EndsNumber cs) (hds : EndsNumber ds) :
    EndsNumber (cs ++ ds) := by
  cases cs with
  | nil => exact hds
  | cons c cs => exact hcs

/-- The digits of a number do not begin with a zero, unless it is zero. -/
theorem eq_zero_of_head?_toDigits {n : Nat} (h : (Nat.toDigits 10 n).head? = some '0') :
    n = 0 := by
  rw [Nat.toDigits_eq_if (by decide)] at h
  split at h
  · rename_i hn
    have hdigit : ∀ d < 10, Nat.digitChar d = '0' → d = 0 := by decide
    exact hdigit n hn (Option.some.inj h)
  · rename_i hn
    have hne : Nat.toDigits 10 (n / 10) ≠ [] := Nat.toDigits_ne_nil
    have hmore : (Nat.toDigits 10 (n / 10)).head? = some '0' := by
      obtain ⟨c, cs, hcs⟩ := List.exists_cons_of_ne_nil hne
      rw [hcs] at h ⊢
      exact h
    have := eq_zero_of_head?_toDigits hmore
    omega
termination_by n
decreasing_by omega

theorem skipFraction?_of_ends (h : EndsNumber cs) : skipFraction? cs = some (false, cs) := by
  unfold skipFraction?
  split
  · exact absurd rfl (h '.' rfl).2.1
  · rfl

theorem skipExponent?_of_ends (h : EndsNumber cs) : skipExponent? cs = some (false, cs) := by
  cases cs with
  | nil => rfl
  | cons c cs =>
    obtain ⟨-, -, hsmall, hlarge⟩ := h c rfl
    rw [skipExponent?, if_neg (not_or.mpr ⟨hsmall, hlarge⟩)]

/-- The digits of a number are read as far as they go. -/
theorem spanDigits_append (hcs : ∀ c ∈ cs, c.isDigit = true) (h : EndsNumber rest) :
    spanDigits (cs ++ rest) = (cs, rest) := by
  have hrest : rest.takeWhile Char.isDigit = [] ∧ rest.dropWhile Char.isDigit = rest := by
    cases rest with
    | nil => exact ⟨rfl, rfl⟩
    | cons c rest =>
      have hc : ¬ c.isDigit = true := by simp [(h c rfl).1]
      exact ⟨List.takeWhile_cons_of_neg hc, List.dropWhile_cons_of_neg hc⟩
  rw [spanDigits, List.takeWhile_append_of_pos hcs, List.dropWhile_append_of_pos hcs, hrest.1,
    hrest.2, List.append_nil]

theorem digitsValue_toDigits (n : Nat) : digitsValue (Nat.toDigits 10 n) = n := by
  have hstep : (fun (n : Nat) (c : Char) => n * 10 + (c.toNat - 48))
      = fun n c => 10 * n + (c.toNat - '0'.toNat) := by
    funext n c
    rw [Nat.mul_comm]
    rfl
  rw [digitsValue, hstep, ← Nat.ofDigitChars_eq_foldl, Nat.ofDigitChars_ten_toDigits]

/-- All digits of a number are read as its whole part. -/
theorem wholePart?_of_toDigits {n : Nat} (h : Nat.toDigits 10 n = c :: cs)
    (hrest : EndsNumber rest) : wholePart? c (cs ++ rest) = some (c :: cs, rest) := by
  have hdigits : ∀ d ∈ c :: cs, d.isDigit = true := by
    rw [← h]
    exact fun _ => Nat.isDigit_of_mem_toDigits (by decide) (by decide)
  by_cases hzero : c = '0'
  · -- Behind a zero no digit is read, and none is written.
    have hn : n = 0 := eq_zero_of_head?_toDigits (by rw [h, hzero]; rfl)
    rw [hn, Nat.toDigits_zero] at h
    obtain ⟨rfl, rfl⟩ := List.cons.inj h
    rfl
  · rw [wholePart?, if_neg hzero, if_pos (hdigits c List.mem_cons_self), ← List.cons_append,
      spanDigits_append hdigits hrest]

theorem lexNumber_of_toDigits {n : Nat} (h : Nat.toDigits 10 n = c :: cs)
    (hrest : EndsNumber rest) : lexNumber false c (cs ++ rest) = (.natural n, rest) := by
  simp only [lexNumber, wholePart?_of_toDigits h hrest, skipFraction?_of_ends hrest,
    skipExponent?_of_ends hrest]
  rw [← h, digitsValue_toDigits]
  rfl

/-! ## Tokens -/

theorem lex_cons (hc : isSpace c = false) :
    lex (c :: cs) = (lexOne c cs).1 :: lex (lexOne c cs).2 := by
  rw [lex, if_neg (by simp [hc])]

theorem lex_spaces (h : ∀ c ∈ cs, isSpace c = true) : lex (cs ++ rest) = lex rest := by
  induction cs with
  | nil => rfl
  | cons c cs ih =>
    obtain ⟨hc, hcs⟩ := List.forall_mem_cons.mp h
    rw [List.cons_append, lex, if_pos hc, ih hcs]

/-- The characters that are tokens of their own. -/
def symbols : List (Char × Token) :=
  [('\x7b', .leftBrace), ('\x7d', .rightBrace), ('[', .leftBracket), (']', .rightBracket),
    (':', .colon), (',', .comma)]

theorem brackets_mem_symbols :
    ('[', Token.leftBracket) ∈ symbols ∧ (']', Token.rightBracket) ∈ symbols := by
  simp [symbols]

theorem braces_mem_symbols :
    ('\x7b', Token.leftBrace) ∈ symbols ∧ ('\x7d', Token.rightBrace) ∈ symbols := by
  simp [symbols]

theorem colon_mem_symbols : (':', Token.colon) ∈ symbols := by simp [symbols]

theorem comma_mem_symbols : (',', Token.comma) ∈ symbols := by simp [symbols]

theorem lex_symbol (c : Char) (t : Token) (h : (c, t) ∈ symbols) :
    lex (c :: cs) = t :: lex cs := by
  simp only [symbols, List.mem_cons, Prod.mk.injEq, List.not_mem_nil, or_false] at h
  rcases h with ⟨rfl, rfl⟩ | ⟨rfl, rfl⟩ | ⟨rfl, rfl⟩ | ⟨rfl, rfl⟩ | ⟨rfl, rfl⟩ | ⟨rfl, rfl⟩ <;>
    exact lex_cons rfl

theorem endsNumber_symbol {t : Token} (h : (c, t) ∈ symbols) : EndsNumber (c :: cs) := by
  have hends : ∀ p ∈ symbols,
      p.1.isDigit = false ∧ p.1 ≠ '.' ∧ p.1 ≠ 'e' ∧ p.1 ≠ 'E' := by
    decide
  intro d hd
  obtain rfl := Option.some.inj hd
  exact hends _ h

theorem endsNumber_spaces (h : ∀ c ∈ cs, isSpace c = true) : EndsNumber cs := by
  cases cs with
  | nil => exact endsNumber_nil
  | cons c cs =>
    intro d hd
    obtain rfl := Option.some.inj hd
    have hc := h c List.mem_cons_self
    simp only [isSpace, Bool.or_eq_true, beq_iff_eq] at hc
    rcases hc with ((rfl | rfl) | rfl) | rfl <;> decide

theorem lex_quoted (text : String) :
    lex (quoted text.toList ++ rest) = .string (some text) :: lex rest := by
  have hone : lexOne '"' (text.toList.flatMap escapeChar ++ '"' :: rest)
      = (.string (some text), rest) := by
    simp [lexOne, readUnits_quoted, pairUp?_toNat]
  rw [quoted, List.cons_append, List.append_assoc, List.singleton_append, lex_cons rfl, hone]

theorem lexOne_of_isDigit (hc : c.isDigit = true) : lexOne c cs = lexNumber false c cs := by
  unfold lexOne
  split
  case h_12 => rfl
  all_goals exact absurd hc (by decide)

theorem not_isSpace_of_isDigit (hc : c.isDigit = true) : isSpace c = false := by
  simp only [isSpace, Bool.or_eq_false_iff, beq_eq_false_iff_ne]
  refine ⟨⟨⟨?_, ?_⟩, ?_⟩, ?_⟩ <;> (rintro rfl; cases hc)

theorem lex_toDigits (n : Nat) (hrest : EndsNumber rest) :
    lex (Nat.toDigits 10 n ++ rest) = .natural n :: lex rest := by
  have hne : Nat.toDigits 10 n ≠ [] := Nat.toDigits_ne_nil
  obtain ⟨c, cs, hcs⟩ := List.exists_cons_of_ne_nil hne
  have hc : c.isDigit = true := Nat.isDigit_of_mem_toDigits (by decide) (by decide)
    (hcs ▸ List.mem_cons_self)
  rw [hcs, List.cons_append, lex_cons (not_isSpace_of_isDigit hc), lexOne_of_isDigit hc,
    lexNumber_of_toDigits hcs hrest]

/-! ## Values -/

/-- What holds of numbers and texts, and of arrays and objects if it holds of what is in them,
holds of all values. -/
theorem Value.induction {P : Value → Prop} (natural : ∀ n, P (.natural n)) (text : ∀ s, P (.text s))
    (array : ∀ items, (∀ v ∈ items, P v) → P (.array items))
    (object : ∀ members, (∀ m ∈ members, P m.2) → P (.object members)) (v : Value) : P v := by
  match v with
  | .natural n => exact natural n
  | .text s => exact text s
  | .array items =>
    exact array items fun v hv => Value.induction natural text array object v
  | .object members =>
    exact object members fun m hm => Value.induction natural text array object m.2
termination_by sizeOf v
decreasing_by
  · have := List.sizeOf_lt_of_mem hv
    simp only [Value.array.sizeOf_spec]
    omega
  · have := List.sizeOf_lt_of_mem hm
    have hm : sizeOf m.2 < sizeOf m := by
      cases m
      simp only [Prod.mk.sizeOf_spec]
      omega
    simp only [Value.object.sizeOf_spec]
    omega

namespace Value

@[simp] theorem itemTokens_eq_map (items : List Value) : itemTokens items = items.map tokens := by
  induction items with
  | nil => rfl
  | cons v items ih => rw [itemTokens, ih, List.map_cons]

/-- The tokens of a member. -/
def memberToken (m : String × Value) : List Token := .string (some m.1) :: .colon :: m.2.tokens

@[simp] theorem memberTokens_eq_map (members : List (String × Value)) :
    memberTokens members = members.map memberToken := by
  induction members with
  | nil => rfl
  | cons m members ih =>
    rw [memberTokens, ih]
    rfl

@[simp] theorem itemLayouts_eq_map (depth : Nat) (items : List Value) :
    itemLayouts depth items = items.map (layout depth) := by
  induction items with
  | nil => rfl
  | cons v items ih => rw [itemLayouts, ih, List.map_cons]

/-- The characters of a member laid out for people, at a depth. -/
def memberLayout (depth : Nat) (m : String × Value) : List Char :=
  quoted m.1.toList ++ [':', ' '] ++ m.2.layout depth

@[simp] theorem memberLayouts_eq_map (depth : Nat) (members : List (String × Value)) :
    memberLayouts depth members = members.map (memberLayout depth) := by
  induction members with
  | nil => rfl
  | cons m members ih =>
    rw [memberLayouts, ih]
    rfl

end Value

/-- The characters are read as these tokens, unless a number goes on behind them. -/
def Spells (cs : List Char) (ts : List Token) : Prop :=
  ∀ rest, EndsNumber rest → lex (cs ++ rest) = ts ++ lex rest

theorem Spells.lex_eq (h : Spells cs ts) : lex cs = ts := by
  have := h [] endsNumber_nil
  rw [List.append_nil, lex, List.append_nil] at this
  exact this

/-- Blanks before and behind are passed over. -/
theorem Spells.spaced {before behind : List Char} (h : Spells cs ts)
    (hbefore : ∀ c ∈ before, isSpace c = true) (hbehind : ∀ c ∈ behind, isSpace c = true) :
    Spells (before ++ cs ++ behind) ts := by
  intro rest hrest
  rw [List.append_assoc, List.append_assoc, lex_spaces hbefore,
    h _ ((endsNumber_spaces hbehind).append hrest), lex_spaces hbehind]

/-- What stands between two brackets. -/
theorem Spells.enclosed {left right : Char} {opening closing : Token} (h : Spells cs ts)
    (hleft : (left, opening) ∈ symbols) (hright : (right, closing) ∈ symbols) :
    Spells (left :: (cs ++ [right])) (opening :: (ts ++ [closing])) := by
  intro rest _
  rw [List.cons_append, lex_symbol _ _ hleft, List.append_assoc, List.singleton_append,
    h _ (endsNumber_symbol hright), lex_symbol _ _ hright, List.cons_append, List.append_assoc,
    List.singleton_append]

/-- A name with a colon and blanks before a value. -/
theorem Spells.named {spaces : List Char} (h : Spells cs ts) (name : String)
    (hspaces : ∀ c ∈ spaces, isSpace c = true) :
    Spells (quoted name.toList ++ ':' :: (spaces ++ cs)) (.string (some name) :: .colon :: ts) := by
  intro rest hrest
  rw [List.append_assoc, lex_quoted, List.cons_append, lex_symbol _ _ colon_mem_symbols,
    List.append_assoc, lex_spaces hspaces, h rest hrest]
  rfl

/-- Pieces with a comma and blanks between them. -/
theorem spells_joinWith {α : Type} {spaces : List Char} {chars : α → List Char}
    {tokens : α → List Token} (hspaces : ∀ c ∈ spaces, isSpace c = true) {xs : List α}
    (h : ∀ x ∈ xs, Spells (chars x) (tokens x)) :
    Spells (joinWith (',' :: spaces) (xs.map chars)) (joinWith [.comma] (xs.map tokens)) := by
  induction xs with
  | nil => exact fun _ _ => rfl
  | cons x xs ih =>
    obtain ⟨hx, hxs⟩ := List.forall_mem_cons.mp h
    cases xs with
    | nil => exact hx
    | cons y ys =>
      intro rest hrest
      simp only [List.map_cons, joinWith, List.append_assoc, List.cons_append]
      rw [hx _ (endsNumber_symbol comma_mem_symbols), lex_symbol _ _ comma_mem_symbols,
        lex_spaces hspaces,
        ← List.map_cons, ih hxs rest hrest]
      rfl

theorem flatMap_joinWith {α β : Type} (f : α → List β) (separator : List α)
    (pieces : List (List α)) :
    (joinWith separator pieces).flatMap f
      = joinWith (separator.flatMap f) (pieces.map (List.flatMap f)) := by
  induction pieces with
  | nil => rfl
  | cons piece pieces ih =>
    cases pieces with
    | nil => rfl
    | cons next pieces =>
      rw [joinWith, List.flatMap_append, List.flatMap_append, ih]
      rfl

namespace Value

/-- A value written without blanks is read as its tokens. -/
theorem spells_spelling (v : Value) : Spells (v.tokens.flatMap Token.spelling) v.tokens := by
  induction v using Value.induction with
  | natural n =>
    intro rest hrest
    simpa [tokens, Token.spelling] using lex_toDigits n hrest
  | text s =>
    intro rest _
    simpa [tokens, Token.spelling] using lex_quoted s
  | array items ih =>
    have h := (spells_joinWith (List.forall_mem_nil _) ih).enclosed
      brackets_mem_symbols.1 brackets_mem_symbols.2
    simpa [tokens, Token.spelling, flatMap_joinWith, Function.comp_def] using h
  | object members ih =>
    have hmembers : ∀ m ∈ members,
        Spells ((memberToken m).flatMap Token.spelling) (memberToken m) := by
      intro m hm
      have := (ih m hm).named m.1 (List.forall_mem_nil _)
      simpa [memberToken, Token.spelling] using this
    have h := (spells_joinWith (List.forall_mem_nil _) hmembers).enclosed
      braces_mem_symbols.1 braces_mem_symbols.2
    simpa [tokens, Token.spelling, flatMap_joinWith, Function.comp_def] using h

theorem isSpace_newLine (depth : Nat) : ∀ c ∈ newLine depth, isSpace c = true := by
  intro c hc
  rcases List.mem_cons.mp hc with rfl | hc
  · rfl
  · rw [List.eq_of_mem_replicate hc]
    rfl

/-- Pieces on lines of their own. -/
theorem spells_block {α : Type} {chars : α → List Char} {tokens : α → List Token} {xs : List α}
    {left right : Char} {opening closing : Token} (h : ∀ x ∈ xs, Spells (chars x) (tokens x))
    (depth : Nat) (hleft : (left, opening) ∈ symbols) (hright : (right, closing) ∈ symbols) :
    Spells (block left right depth (xs.map chars))
      (opening :: (joinWith [.comma] (xs.map tokens) ++ [closing])) := by
  cases xs with
  | nil =>
    have hnone : Spells [] [] := fun _ _ => rfl
    exact hnone.enclosed hleft hright
  | cons x xs =>
    have hlines := ((spells_joinWith (isSpace_newLine (depth + 1)) h).spaced
      (isSpace_newLine (depth + 1)) (isSpace_newLine depth)).enclosed hleft hright
    simpa only [block, List.map_cons, List.isEmpty_cons, Bool.false_eq_true, if_false,
      List.append_assoc] using hlines

/-- A value laid out for people is read as its tokens. -/
theorem spells_layout (v : Value) (depth : Nat) : Spells (v.layout depth) v.tokens := by
  induction v using Value.induction generalizing depth with
  | natural n => exact fun rest hrest => lex_toDigits n hrest
  | text s => exact fun rest _ => lex_quoted s
  | array items ih =>
    rw [layout, tokens, itemLayouts_eq_map, itemTokens_eq_map]
    exact spells_block (fun v hv => ih v hv (depth + 1)) depth brackets_mem_symbols.1
      brackets_mem_symbols.2
  | object members ih =>
    have hmembers : ∀ m ∈ members, Spells (memberLayout (depth + 1) m) (memberToken m) := by
      intro m hm
      have hspace : ∀ c ∈ [' '], isSpace c = true := by simp [isSpace]
      have := (ih m hm (depth + 1)).named m.1 hspace
      simpa [memberLayout, memberToken] using this
    rw [layout, tokens, memberLayouts_eq_map, memberTokens_eq_map]
    exact spells_block hmembers depth braces_mem_symbols.1 braces_mem_symbols.2

theorem lex_compact (v : Value) : lex v.compact.toList = v.tokens := by
  rw [compact, String.toList_ofList, (spells_spelling v).lex_eq]

theorem lex_pretty (v : Value) {behind : List Char} (h : ∀ c ∈ behind, isSpace c = true) :
    lex (v.pretty.toList ++ behind) = v.tokens := by
  rw [pretty, String.toList_ofList]
  exact ((spells_layout v 0).spaced (List.forall_mem_nil _) h).lex_eq

/-! ## Documents -/

mutual

/-- The document of a value. -/
def document : Value → Document
  | .natural n => .natural n
  | .text s => .string (some s)
  | .array items => .array (itemDocuments items)
  | .object members => .object (memberDocuments members)

/-- The document of each of several values. -/
def itemDocuments : List Value → List Document
  | [] => []
  | v :: rest => v.document :: itemDocuments rest

/-- The members of a document for each of several members. -/
def memberDocuments : List (String × Value) → List Member
  | [] => []
  | (name, v) :: rest => (some name, v.document) :: memberDocuments rest

end

@[simp] theorem itemDocuments_eq_map (items : List Value) :
    itemDocuments items = items.map document := by
  induction items with
  | nil => rfl
  | cons v items ih => rw [itemDocuments, ih, List.map_cons]

@[simp] theorem memberDocuments_eq_map (members : List (String × Value)) :
    memberDocuments members = members.map fun m => (some m.1, m.2.document) := by
  induction members with
  | nil => rfl
  | cons m members ih =>
    rw [memberDocuments, ih]
    rfl

end Value

/-- The first of several pieces stands in front. -/
theorem exists_joinWith_cons {α : Type} (separator piece : List α) (pieces : List (List α)) :
    ∃ tail, joinWith separator (piece :: pieces) = piece ++ tail := by
  cases pieces with
  | nil => exact ⟨[], (List.append_nil piece).symm⟩
  | cons next pieces => exact ⟨_, List.append_assoc piece _ _⟩

namespace Document

/-- The items of an array are read one after the other, up to its end. -/
theorem run_items {v : Value} {items : List Value}
    (h : ∀ w ∈ v :: items, ∀ around, run (.value around) w.tokens = .after w.document around)
    (before : List Document) (around : List Frame) :
    run (.value (.array before :: around))
        (joinWith [.comma] ((v :: items).map Value.tokens) ++ [.rightBracket])
      = .after (.array (before.reverse ++ (v :: items).map Value.document)) around := by
  induction items generalizing v before with
  | nil =>
    have hv := h v List.mem_cons_self
    simp only [List.map_cons, List.map_nil, joinWith]
    rw [run_append, hv, ← List.reverse_cons]
    rfl
  | cons w items ih =>
    obtain ⟨hv, hrest⟩ := List.forall_mem_cons.mp h
    have hitems := ih hrest (v.document :: before)
    rw [List.reverse_cons, List.append_assoc] at hitems
    simp only [List.map_cons, joinWith, List.append_assoc]
    rw [run_append, hv, run_append]
    exact hitems

/-- The members of an object are read one after the other, up to its end. -/
theorem run_members {m : String × Value} {members : List (String × Value)}
    (h : ∀ m' ∈ m :: members, ∀ around,
      run (.value around) m'.2.tokens = .after m'.2.document around)
    (before : List Member) (around : List Frame) :
    run (.nextName before around)
        (joinWith [.comma] ((m :: members).map Value.memberToken) ++ [.rightBrace])
      = .after (.object (before.reverse ++ (m :: members).map fun m => (some m.1, m.2.document)))
          around := by
  -- A member is its name, a colon and a value.
  have hmember : ∀ m' ∈ m :: members, ∀ before,
      run (.nextName before around) (Value.memberToken m')
        = .after m'.2.document (.object before (some m'.1) :: around) := fun m' hm' before =>
    h m' hm' (.object before (some m'.1) :: around)
  induction members generalizing m before with
  | nil =>
    have hm := hmember m List.mem_cons_self before
    simp only [List.map_cons, List.map_nil, joinWith]
    rw [run_append, hm, ← List.reverse_cons]
    rfl
  | cons m' members ih =>
    obtain ⟨hm, hrest⟩ := List.forall_mem_cons.mp hmember
    have hmembers := ih (List.forall_mem_cons.mp h).2 ((some m.1, m.2.document) :: before) hrest
    rw [List.reverse_cons, List.append_assoc] at hmembers
    simp only [List.map_cons, joinWith, List.append_assoc]
    rw [run_append, hm, run_append]
    exact hmembers

/-- The tokens of a value spell its document. -/
theorem run_tokens (v : Value) (around : List Frame) :
    run (.value around) v.tokens = .after v.document around := by
  induction v using Value.induction generalizing around with
  | natural n => rfl
  | text s => rfl
  | array items ih =>
    rw [Value.tokens, Value.document, Value.itemTokens_eq_map, Value.itemDocuments_eq_map]
    cases items with
    | nil => rfl
    | cons v items =>
      have hitems := run_items ih [] around
      -- Before an item, an array that has begun wants a value.
      obtain ⟨tail, htail⟩ :=
        exists_joinWith_cons [Token.comma] v.tokens (items.map Value.tokens)
      rw [List.map_cons, htail] at hitems ⊢
      refine Eq.trans ?_ hitems
      cases v <;> rfl
  | object members ih =>
    rw [Value.tokens, Value.document, Value.memberTokens_eq_map, Value.memberDocuments_eq_map]
    cases members with
    | nil => rfl
    | cons m members =>
      have hmembers := run_members ih [] around
      -- Before a name, an object that has begun wants a name as well as one that goes on.
      obtain ⟨tail, htail⟩ :=
        exists_joinWith_cons [Token.comma] (Value.memberToken m) (members.map Value.memberToken)
      rw [List.map_cons, htail] at hmembers ⊢
      exact Eq.trans rfl hmembers

/-- The text of a value, without blanks, spells its document. -/
theorem ofText_compact (v : Value) : ofText v.compact = ⟨v.document, true⟩ := by
  rw [ofText, Value.lex_compact, ofTokens, run_tokens]
  rfl

/-- The text of a value, laid out for people, spells its document, with blanks behind it. -/
theorem ofText_pretty (v : Value) {behind : String} (h : ∀ c ∈ behind.toList, isSpace c = true) :
    ofText (v.pretty ++ behind) = ⟨v.document, true⟩ := by
  rw [ofText, String.toList_append, Value.lex_pretty v h, ofTokens, run_tokens]
  rfl

end Document

end GraphDependency.Json
