import GraphDependency.Dot.Lexer

set_option autoImplicit false

/-!
# From tokens to statements

A graph text is an optional `strict`, then `graph` or `digraph`, an optional
name and a body in braces.  The body holds statements and semicolons: defaults
for graph, node or edge, assignments, nodes with attributes, and chains of edges
with attributes.  Keywords are bare and may be written in any case.

A reader takes what it reads off the front of the tokens and returns the rest.
What is missing at the end of the tokens is reported on the line of the last one.

Main statement: `readStatement_length`, a statement takes at least one token.
-/

namespace GraphDependency.Dot

/-- A statement of the body. -/
inductive Statement where
  /-- default attributes of the graph, of nodes or of edges, which mean nothing here -/
  | defaults
  /-- an assignment to an attribute of the graph, which means nothing here -/
  | assignment
  /-- a node with attributes -/
  | node (name : String) (attributes : Attributes)
  /-- a chain of edges through the names, all with the same attributes -/
  | chain (names : List String) (attributes : Attributes) (line : Nat)
  deriving DecidableEq, Repr

instance : Inhabited Statement := ⟨.defaults⟩

/-- A reader of tokens. -/
abbrev Step (α : Type) : Type := List Lexeme → Except Fault (α × List Lexeme)

/-- A bare word in small letters. -/
def Token.keyword? : Token → Option String
  | .word s => some (Text.lowercase s)
  | _ => none

/-- Reads a bare or quoted identifier. -/
def readName (last : Nat) (wanted : Wanted) : Step String
  | [] => .error ⟨last, .expected wanted none⟩
  | l :: rest =>
    match l.token.name? with
    | some name => .ok (name, rest)
    | none => .error ⟨l.line, .expected wanted (some l.token)⟩

mutual

/-- Reads any number of attribute groups. -/
def readGroups (last : Nat) (attributes : Attributes) : Step Attributes
  | ⟨.leftBracket, _⟩ :: rest => readEntries last attributes rest
  | rest => .ok (attributes, rest)

/-- Reads a group after its opening bracket, and the groups that follow it. -/
def readEntries (last : Nat) (attributes : Attributes) : Step Attributes
  | [] => .error ⟨last, .expected .attributeName none⟩
  | ⟨.rightBracket, _⟩ :: rest => readGroups last attributes rest
  | ⟨.comma, _⟩ :: rest => readEntries last attributes rest
  | ⟨.semicolon, _⟩ :: rest => readEntries last attributes rest
  | key :: rest =>
    match key.token.name? with
    | none => .error ⟨key.line, .expected .attributeName (some key.token)⟩
    | some name =>
      match rest with
      | [] => .error ⟨last, .expected .equals none⟩
      | [⟨.equals, _⟩] => .error ⟨last, .expected .attributeValue none⟩
      | ⟨.equals, _⟩ :: value :: rest =>
        match value.token.name? with
        | none => .error ⟨value.line, .expected .attributeValue (some value.token)⟩
        | some text => readEntries last (attributes.insert name text) rest
      | other :: _ => .error ⟨other.line, .expected .equals (some other.token)⟩

end

/-- Reads the edge operators and names that continue a chain. -/
def readChain (last : Nat) : Step (List String)
  | [⟨.edgeOp, _⟩] => .error ⟨last, .expected .nodeName none⟩
  | ⟨.edgeOp, _⟩ :: target :: rest =>
    match target.token.name? with
    | none => .error ⟨target.line, .expected .nodeName (some target.token)⟩
    | some name =>
      match readChain last rest with
      | .error fault => .error fault
      | .ok (names, rest) => .ok (name :: names, rest)
  | rest => .ok ([], rest)

/-- Reads what follows the name at the head of a statement. -/
def readTail (last line : Nat) (name : String) : Step Statement
  | ⟨.equals, _⟩ :: rest =>
    match readName last .attributeValue rest with
    | .error fault => .error fault
    | .ok (_, rest) => .ok (.assignment, rest)
  | ⟨.edgeOp, opLine⟩ :: rest =>
    match readChain last (⟨.edgeOp, opLine⟩ :: rest) with
    | .error fault => .error fault
    | .ok (names, rest) =>
      match readGroups last .empty rest with
      | .error fault => .error fault
      | .ok (attributes, rest) => .ok (.chain (name :: names) attributes line, rest)
  | rest =>
    match readGroups last .empty rest with
    | .error fault => .error fault
    | .ok (attributes, rest) => .ok (.node name attributes, rest)

/-- Reads a statement. -/
def readStatement (last : Nat) : Step Statement
  | [] => .error ⟨last, .expected .nodeName none⟩
  | l :: rest =>
    match l.token.keyword? with
    | some "subgraph" => .error ⟨l.line, .subgraph⟩
    | some "graph" | some "node" | some "edge" =>
      match readGroups last .empty rest with
      | .error fault => .error fault
      | .ok (_, rest) => .ok (.defaults, rest)
    | _ =>
      match l.token.name? with
      | none => .error ⟨l.line, .expected .nodeName (some l.token)⟩
      | some name => readTail last l.line name rest

theorem readName_length {last : Nat} {wanted : Wanted} {toks rest : List Lexeme} {s : String}
    (h : readName last wanted toks = .ok (s, rest)) : rest.length < toks.length := by
  unfold readName at h
  split at h
  · simp at h
  · split at h
    · simp only [Except.ok.injEq, Prod.mk.injEq] at h
      simp [h.2]
    · simp at h

mutual

theorem readGroups_length {last : Nat} {acc as : Attributes} {toks rest : List Lexeme}
    (h : readGroups last acc toks = .ok (as, rest)) : rest.length ≤ toks.length := by
  match toks with
  | [] => simp [readGroups] at h; simp [h.2]
  | ⟨t, n⟩ :: toks =>
    cases t
    case leftBracket =>
      rw [readGroups] at h
      have := readEntries_length h
      simp only [List.length_cons]
      omega
    all_goals
      simp only [readGroups, Except.ok.injEq, Prod.mk.injEq] at h
      simp [h.2]

theorem readEntries_length {last : Nat} {acc as : Attributes} {toks rest : List Lexeme}
    (h : readEntries last acc toks = .ok (as, rest)) : rest.length ≤ toks.length := by
  unfold readEntries at h
  split at h
  · simp at h
  · have := readGroups_length h
    simp only [List.length_cons]
    omega
  · have := readEntries_length h
    simp only [List.length_cons]
    omega
  · have := readEntries_length h
    simp only [List.length_cons]
    omega
  · split at h
    · simp at h
    · split at h
      · simp at h
      · simp at h
      · split at h
        · simp at h
        · have := readEntries_length h
          simp only [List.length_cons]
          omega
      · simp at h

end

theorem readChain_length {last : Nat} {toks rest : List Lexeme} {names : List String}
    (h : readChain last toks = .ok (names, rest)) : rest.length ≤ toks.length := by
  fun_induction readChain last toks generalizing names rest with
  | case1 => simp at h
  | case2 => simp at h
  | case3 => simp at h
  | case4 _ _ _ _ _ _ _ hr ih =>
    simp only [Except.ok.injEq, Prod.mk.injEq] at h
    have := ih hr
    simp only [← h.2, List.length_cons]
    omega
  | case5 =>
    simp only [Except.ok.injEq, Prod.mk.injEq] at h
    simp [h.2]

theorem readTail_length {last line : Nat} {name : String} {toks rest : List Lexeme}
    {s : Statement} (h : readTail last line name toks = .ok (s, rest)) :
    rest.length ≤ toks.length := by
  unfold readTail at h
  split at h
  · split at h
    · simp at h
    · rename_i hn
      have := readName_length hn
      simp only [Except.ok.injEq, Prod.mk.injEq] at h
      simp only [← h.2, List.length_cons]
      omega
  · split at h
    · simp at h
    · rename_i hc
      split at h
      · simp at h
      · rename_i hg
        have := readChain_length hc
        have := readGroups_length hg
        simp only [Except.ok.injEq, Prod.mk.injEq] at h
        simp only [← h.2, List.length_cons] at this ⊢
        simp only [List.length_cons] at *
        omega
  · split at h
    · simp at h
    · rename_i hg
      have := readGroups_length hg
      simp only [Except.ok.injEq, Prod.mk.injEq] at h
      simpa [← h.2] using this

/-- A statement takes at least one token. -/
theorem readStatement_length {last : Nat} {toks rest : List Lexeme} {s : Statement}
    (h : readStatement last toks = .ok (s, rest)) : rest.length < toks.length := by
  unfold readStatement at h
  split at h
  · simp at h
  · have groups : ∀ {ls : List Lexeme} {r : Except Fault (Attributes × List Lexeme)},
        r = readGroups last .empty ls →
        (match r with
          | .error fault => .error fault
          | .ok (_, rest) => .ok (Statement.defaults, rest)) = Except.ok (s, rest) →
        rest.length < ls.length + 1 := by
      intro ls r hr hm
      split at hm
      · simp at hm
      · have := readGroups_length hr.symm
        simp only [Except.ok.injEq, Prod.mk.injEq] at hm
        simp only [← hm.2]
        omega
    split at h
    · simp at h
    · exact groups rfl h
    · exact groups rfl h
    · exact groups rfl h
    · split at h
      · simp at h
      · have := readTail_length h
        simp only [List.length_cons]
        omega

/-- Reads statements and semicolons up to the closing brace of the body. -/
def readBody (last : Nat) : Step (List Statement)
  | [] => .error ⟨last, .openBody⟩
  | ⟨.rightBrace, _⟩ :: rest => .ok ([], rest)
  | ⟨.semicolon, _⟩ :: rest => readBody last rest
  | l :: rest =>
    match h : readStatement last (l :: rest) with
    | .error fault => .error fault
    | .ok (statement, rest') =>
      have := readStatement_length h
      match readBody last rest' with
      | .error fault => .error fault
      | .ok (statements, rest'') => .ok (statement :: statements, rest'')
termination_by toks => toks.length
decreasing_by
  · exact Nat.lt_succ_self _
  · exact this

/-- Drops a bare `strict`. -/
def skipStrict : List Lexeme → List Lexeme
  | l :: rest => if l.token.keyword? = some "strict" then rest else l :: rest
  | [] => []

/-- Drops the name of the graph. -/
def skipName : List Lexeme → List Lexeme
  | l :: rest => if l.token.name?.isSome then rest else l :: rest
  | [] => []

/-- Reads `graph` or `digraph`. -/
def readHeading (last : Nat) (toks : List Lexeme) : Except Fault (List Lexeme) :=
  match toks with
  | l :: rest =>
    if l.token.keyword? = some "graph" ∨ l.token.keyword? = some "digraph" then .ok rest
    else .error ⟨l.line, .noGraph⟩
  | [] => .error ⟨last, .noGraph⟩

/-- Reads the opening brace of the body. -/
def readOpening (last : Nat) (toks : List Lexeme) : Except Fault (List Lexeme) :=
  match toks with
  | ⟨.leftBrace, _⟩ :: rest => .ok rest
  | l :: _ => .error ⟨l.line, .expected .leftBrace (some l.token)⟩
  | [] => .error ⟨last, .expected .leftBrace none⟩

/-- The statements of a graph text, given its tokens. -/
def readDocument (toks : List Lexeme) : Except Fault (List Statement) := do
  let last := (toks.getLast?.map Lexeme.line).getD 1
  let rest ← readHeading last (skipStrict toks)
  let rest ← readOpening last (skipName rest)
  let (statements, rest) ← readBody last rest
  match rest with
  | [] => .ok statements
  | l :: _ => .error ⟨l.line, .afterBody l.token⟩

end GraphDependency.Dot
