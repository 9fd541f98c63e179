import GraphDependency.Proofs.Dot.Grammar
import GraphDependency.Proofs.Dot.Lexer

set_option autoImplicit false

/-!
# The lines of graph text

A graph text may stand in a larger text, some lines below its first line.  Nothing that is
read depends on that, and faults are reported as many lines further down.  Only a text without
tokens has no line to go by: it is refused on line 1, wherever it stands.

Main statements: `lex_down`, `readDocument_down`, `toGraph_down` and, from these,
`readGraph_down` and `readGraph_of_no_tokens`.
-/

namespace GraphDependency.Dot

open GraphDependency.Text

/-! ## Lines further down -/

/-- A token `k` lines further down. -/
def Lexeme.down (k : Nat) (l : Lexeme) : Lexeme := { l with line := l.line + k }

/-- A fault `k` lines further down. -/
def Fault.down (k : Nat) (fault : Fault) : Fault := { fault with line := fault.line + k }

/-- A statement `k` lines further down. -/
def Statement.down (k : Nat) : Statement → Statement
  | .chain names attributes line => .chain names attributes (line + k)
  | s => s

/-- An edge of a draft `k` lines further down. -/
def DraftEdge.down (k : Nat) (e : DraftEdge) : DraftEdge := { e with line := e.line + k }

/-- A draft `k` lines further down. -/
def Draft.down (k : Nat) (d : Draft) : Draft := { d with edges := d.edges.map (.down k) }

/-- What a quoted string holds `k` lines further down. -/
def QuotedText.down (k : Nat) (q : QuotedText) : QuotedText := { q with line := q.line + k }

/-- What a step of the lexer leaves `k` lines further down. -/
def LexStep.down (k : Nat) (s : LexStep) : LexStep := { s with line := s.line + k }

/-- The outcome of a run `k` lines further down, where `move` moves what comes out of it. -/
def lowered {α : Type} (k : Nat) (move : α → α) : Except Fault α → Except Fault α
  | .ok a => .ok (move a)
  | .error fault => .error (fault.down k)

/-- The outcome of a reader `k` lines further down: the tokens behind are there, too. -/
def loweredRead {α : Type} (k : Nat) (move : α → α) :
    Except Fault (α × List Lexeme) → Except Fault (α × List Lexeme) :=
  lowered k (Prod.map move (List.map (.down k)))

variable {k line last : Nat} {fresh : Bool} {c : Char} {cs : List Char} {toks : List Lexeme}

/-! ## Readers -/

theorem readName_down (wanted : Wanted) :
    readName (last + k) wanted (toks.map (.down k))
      = loweredRead k id (readName last wanted toks) := by
  cases toks with
  | nil => rfl
  | cons l toks =>
    simp only [List.map_cons, readName, Lexeme.down]
    cases l.token.name? <;> rfl

mutual

theorem readGroups_down {k last : Nat} (acc : Attributes) (toks : List Lexeme) :
    readGroups (last + k) acc (toks.map (.down k))
      = loweredRead k id (readGroups last acc toks) := by
  match toks with
  | [] => rfl
  | ⟨t, n⟩ :: toks =>
    cases t
    case leftBracket => exact readEntries_down acc toks
    all_goals rfl

theorem readEntries_down {k last : Nat} (acc : Attributes) (toks : List Lexeme) :
    readEntries (last + k) acc (toks.map (.down k))
      = loweredRead k id (readEntries last acc toks) := by
  match toks with
  | [] => rfl
  | ⟨t, n⟩ :: toks =>
    cases t
    case rightBracket => exact readGroups_down acc toks
    case comma => exact readEntries_down acc toks
    case semicolon => exact readEntries_down acc toks
    case word name | quoted name =>
      match toks with
      | [] => rfl
      | ⟨t', n'⟩ :: toks =>
        cases t'
        case equals =>
          match toks with
          | [] => rfl
          | ⟨value, n''⟩ :: toks =>
            cases value
            case word text => exact readEntries_down (acc.insert name text) toks
            case quoted text => exact readEntries_down (acc.insert name text) toks
            all_goals rfl
        all_goals rfl
    all_goals rfl

end

theorem readChain_down (toks : List Lexeme) :
    readChain (last + k) (toks.map (.down k)) = loweredRead k id (readChain last toks) := by
  match toks with
  | [] => rfl
  | ⟨t, n⟩ :: toks =>
    cases t
    case edgeOp =>
      match toks with
      | [] => rfl
      | target :: toks =>
        simp only [List.map_cons, Lexeme.down, readChain]
        cases target.token.name? with
        | none => rfl
        | some name =>
          simp only [readChain_down toks]
          cases readChain last toks <;> rfl
    all_goals rfl

/-- What follows the name of a statement does not show on which line it stands, but for the
line of the statement itself. -/
theorem readTail_down (name : String) :
    readTail (last + k) (line + k) name (toks.map (.down k))
      = loweredRead k (.down k) (readTail last line name toks) := by
  match toks with
  | [] => rfl
  | ⟨t, n⟩ :: toks =>
    cases t
    case equals =>
      simp only [List.map_cons, Lexeme.down, readTail, readName_down]
      cases readName last .attributeValue toks <;> rfl
    case edgeOp =>
      have hchain : readChain (last + k) (⟨.edgeOp, n + k⟩ :: toks.map (.down k))
          = loweredRead k id (readChain last (⟨.edgeOp, n⟩ :: toks)) :=
        readChain_down (⟨.edgeOp, n⟩ :: toks)
      simp only [List.map_cons, Lexeme.down, readTail, hchain]
      cases readChain last (⟨.edgeOp, n⟩ :: toks) with
      | error fault => rfl
      | ok read =>
        simp only [loweredRead, lowered, Prod.map, readGroups_down]
        cases readGroups last .empty read.2 <;> rfl
    case leftBracket =>
      simp only [List.map_cons, Lexeme.down, readTail, readGroups, readEntries_down]
      cases readEntries last .empty toks <;> rfl
    all_goals rfl

theorem readStatement_down (toks : List Lexeme) :
    readStatement (last + k) (toks.map (.down k))
      = loweredRead k (.down k) (readStatement last toks) := by
  match toks with
  | [] => rfl
  | l :: toks =>
    simp only [List.map_cons, Lexeme.down, readStatement, readGroups_down]
    split
    · rfl
    -- The three keywords of defaults.
    · cases readGroups last .empty toks <;> rfl
    · cases readGroups last .empty toks <;> rfl
    · cases readGroups last .empty toks <;> rfl
    · cases l.token.name? with
      | none => rfl
      | some name => exact readTail_down name

theorem readBody_of_readStatement_error {l : Lexeme} {fault : Fault}
    (hbrace : l.token ≠ .rightBrace) (hsemicolon : l.token ≠ .semicolon)
    (h : readStatement last (l :: toks) = .error fault) :
    readBody last (l :: toks) = .error fault := by
  rw [readBody]
  · split
    · rename_i hread
      rw [h] at hread
      exact congrArg Except.error (Except.error.inj hread).symm
    · rename_i hread
      rw [h] at hread
      cases hread
  · intro n heq
    exact hbrace (congrArg Lexeme.token heq)
  · intro n heq
    exact hsemicolon (congrArg Lexeme.token heq)

theorem readBody_down (toks : List Lexeme) :
    readBody (last + k) (toks.map (.down k))
      = loweredRead k (List.map (.down k)) (readBody last toks) := by
  have hread : ∀ l toks r, readStatement last (l :: toks) = r →
      readStatement (last + k) (l.down k :: toks.map (.down k)) = loweredRead k (.down k) r := by
    intro l toks r h
    rw [← h]
    exact readStatement_down (l :: toks)
  fun_induction readBody last toks with
  | case1 =>
    rw [List.map_nil, readBody]
    rfl
  | case2 n toks =>
    rw [List.map_cons, Lexeme.down, readBody]
    rfl
  | case3 n toks ih => rw [List.map_cons, Lexeme.down, readBody, ih]
  | case4 l toks hbrace hsemicolon fault h =>
    refine readBody_of_readStatement_error ?_ ?_ (hread l toks _ h)
    · intro heq
      exact hbrace l.line (congrArg (Lexeme.mk · l.line) heq)
    · intro heq
      exact hsemicolon l.line (congrArg (Lexeme.mk · l.line) heq)
  | case5 l toks _ _ s rest h _ fault hbehind ih =>
    rw [List.map_cons, readBody_of_readStatement (hread l toks _ h), ih, hbehind]
    rfl
  | case6 l toks _ _ s rest h _ ss rest' hbehind ih =>
    rw [List.map_cons, readBody_of_readStatement (hread l toks _ h), ih, hbehind]
    rfl

theorem readHeading_down (toks : List Lexeme) :
    readHeading (last + k) (toks.map (.down k))
      = lowered k (List.map (.down k)) (readHeading last toks) := by
  match toks with
  | [] => rfl
  | l :: toks =>
    simp only [List.map_cons, Lexeme.down, readHeading]
    split <;> rfl

theorem readOpening_down (toks : List Lexeme) :
    readOpening (last + k) (toks.map (.down k))
      = lowered k (List.map (.down k)) (readOpening last toks) := by
  match toks with
  | [] => rfl
  | ⟨t, n⟩ :: toks => cases t <;> rfl

theorem skipStrict_down (toks : List Lexeme) :
    skipStrict (toks.map (.down k)) = (skipStrict toks).map (.down k) := by
  match toks with
  | [] => rfl
  | l :: toks =>
    simp only [List.map_cons, Lexeme.down, skipStrict]
    split <;> rfl

theorem skipName_down (toks : List Lexeme) :
    skipName (toks.map (.down k)) = (skipName toks).map (.down k) := by
  match toks with
  | [] => rfl
  | l :: toks =>
    simp only [List.map_cons, Lexeme.down, skipName]
    split <;> rfl

theorem lowered_bind {α β : Type} {move : α → α} {move' : β → β} {r : Except Fault α}
    {f g : α → Except Fault β} (h : ∀ a, f (move a) = lowered k move' (g a)) :
    (lowered k move r).bind f = lowered k move' (r.bind g) := by
  cases r with
  | error fault => rfl
  | ok a => exact h a

/-- Tokens that stand further down are read as the same statements.  There must be one, since
what is missing behind the tokens is reported on the line of the last. -/
theorem readDocument_down (h : toks ≠ []) :
    readDocument (toks.map (.down k))
      = lowered k (List.map (.down k)) (readDocument toks) := by
  have hlast : ((toks.map (Lexeme.down k)).getLast?.map Lexeme.line).getD 1
      = (toks.getLast?.map Lexeme.line).getD 1 + k := by
    rw [List.getLast?_map, List.getLast?_eq_some_getLast h]
    rfl
  unfold readDocument
  simp only [hlast]
  generalize (toks.getLast?.map Lexeme.line).getD 1 = last
  rw [skipStrict_down, readHeading_down]
  refine lowered_bind fun rest => ?_
  rw [skipName_down, readOpening_down]
  refine lowered_bind fun rest => ?_
  rw [readBody_down, loweredRead]
  refine lowered_bind fun read => ?_
  obtain ⟨ss, rest⟩ := read
  cases rest <;> rfl

/-! ## Drafts -/

namespace Draft

theorem chainEdges_down (label : String) (line : Nat) (names : List String) :
    chainEdges label (line + k) names = (chainEdges label line names).map (.down k) := by
  match names with
  | [] => rfl
  | [_] => rfl
  | a :: b :: rest =>
    rw [chainEdges, chainEdges_down label line (b :: rest)]
    rfl

theorem foldl_touch_down (d : Draft) (names : List String) :
    names.foldl touch (d.down k) = (names.foldl touch d).down k := by
  induction names generalizing d with
  | nil => rfl
  | cons name names ih => exact ih (d.touch name)

theorem apply_down (d : Draft) (s : Statement) :
    (d.down k).apply (s.down k) = (d.apply s).down k := by
  cases s with
  | chain names attributes line =>
    simp only [Statement.down, apply, foldl_touch_down, chainEdges_down]
    simp only [down, List.map_append]
  | _ => rfl

theorem ofStatements_down (ss : List Statement) :
    ofStatements (ss.map (.down k)) = (ofStatements ss).down k := by
  have hfold : ∀ d : Draft, (ss.map (Statement.down k)).foldl apply (d.down k)
      = (ss.foldl apply d).down k := by
    induction ss with
    | nil => exact fun d => rfl
    | cons s ss ih =>
      intro d
      rw [List.map_cons, List.foldl_cons, apply_down, ih, List.foldl_cons]
  exact hfold empty

theorem addEdge_down (d : Draft) (g : Graph) (e : DraftEdge) :
    (d.down k).addEdge g (e.down k) = lowered k id (d.addEdge g e) := by
  have hnames : (d.down k).names = d.names := rfl
  simp only [addEdge, hnames, DraftEdge.down]
  cases g.addEdge (d.names.idxOf e.first) (d.names.idxOf e.second) e.label <;> rfl

/-- A refused edge is reported on the line of its statement. -/
theorem toGraph_down (d : Draft) : (d.down k).toGraph = lowered k id d.toGraph := by
  have hfold : ∀ (es : List DraftEdge) (g : Graph),
      (es.map (DraftEdge.down k)).foldlM (d.down k).addEdge g
        = lowered k id (es.foldlM d.addEdge g) := by
    intro es
    induction es with
    | nil => exact fun g => rfl
    | cons e es ih =>
      intro g
      rw [List.map_cons, List.foldlM_cons, addEdge_down, List.foldlM_cons]
      exact lowered_bind ih
  exact hfold d.edges _

end Draft

/-! ## The lexer -/

/-- Lines are counted from wherever the text starts. -/
theorem line_down (c : Char) (line : Nat) :
    (if c = '\n' then line + k + 1 else line + k) = (if c = '\n' then line + 1 else line) + k := by
  split
  · exact Nat.add_right_comm line k 1
  · rfl

theorem skipComment_down (line : Nat) (cs : List Char) :
    skipComment (line + k) cs = (skipComment line cs).map fun p => (p.1 + k, p.2) := by
  fun_induction skipComment line cs with
  | case1 => rfl
  | case2 => rfl
  | case3 line c cs h ih =>
    rw [skipComment, line_down, ih]
    exact h

theorem readQuoted_down (line : Nat) (cs : List Char) :
    readQuoted (line + k) cs = (readQuoted line cs).map (.down k) := by
  have hcons : ∀ (r : Option QuotedText) (c : Char),
      (r.map (QuotedText.down k)).map (QuotedText.cons c)
        = (r.map (QuotedText.cons c)).map (QuotedText.down k) := by
    intro r c
    cases r <;> rfl
  fun_induction readQuoted line cs with
  | case1 => rfl
  | case2 => rfl
  | case3 line cs ih => rw [readQuoted, ih, hcons]
  | case4 line cs ih => rw [readQuoted, ih, hcons]
  | case5 line cs ih => rw [readQuoted, Nat.add_right_comm, ih]
  | case6 line c cs h₁ h₂ h₃ h₄ ih =>
    rw [readQuoted, line_down, ih, hcons]
    · exact h₁
    · exact h₂
    · exact h₃
    · exact h₄

theorem lexOne_down (line : Nat) (fresh : Bool) (c : Char) (cs : List Char) :
    lexOne (line + k) fresh c cs = lowered k (.down k) (lexOne line fresh c cs) := by
  unfold lexOne
  simp only [skipComment_down, readQuoted_down]
  split
  case h_1 => split <;> rfl
  case h_2 =>
    split
    · rfl
    · rename_i cs
      cases skipComment line cs <;> rfl
    · rfl
  case h_10 =>
    split
    · rfl
    · split
      · rfl
      · split <;> rfl
  case h_11 => cases readQuoted line cs <;> rfl
  case h_12 => split <;> rfl
  all_goals rfl

/-- A text that stands further down has the same tokens, as many lines further down. -/
theorem lex_down (line : Nat) (fresh : Bool) (cs : List Char) :
    lex (line + k) fresh cs = lowered k (List.map (.down k)) (lex line fresh cs) := by
  match cs with
  | [] =>
    simp only [lex]
    rfl
  | c :: cs =>
    cases hc : isBlank c with
    | true =>
      rw [lex, if_pos hc, lex, if_pos hc, Nat.add_right_comm]
      split
      · exact lex_down (line + 1) true cs
      · exact lex_down line fresh cs
    | false =>
      rw [lex_cons hc, lex_cons hc, lexOne_down]
      cases hstep : lexOne line fresh c cs with
      | error fault => rfl
      | ok step =>
        have := lexOne_length hstep
        have hbehind := lex_down step.line false step.rest
        simp only [lowered, Except.bind, LexStep.down, hbehind]
        cases lex step.line false step.rest with
        | error fault => rfl
        | ok lexemes => cases step.token? <;> rfl
termination_by cs.length
decreasing_by
  all_goals
    subst_vars
    simp only [List.length_cons]
    omega

/-! ## Graph text -/

/-- A graph text that stands further down is read as the same graph, and its faults are
reported as many lines further down, if it has a token at all. -/
theorem readGraph_down {text : String} (h : tokens line text ≠ .ok []) :
    readGraph (line + k) text = lowered k id (readGraph line text) := by
  have htokens : tokens (line + k) text = lowered k (List.map (.down k)) (tokens line text) :=
    lex_down line true text.toList
  change (tokens (line + k) text).bind (fun toks => (readDocument toks).bind fun statements =>
      (Draft.ofStatements statements).toGraph)
    = lowered k id ((tokens line text).bind fun toks => (readDocument toks).bind fun statements =>
      (Draft.ofStatements statements).toGraph)
  rw [htokens]
  cases hread : tokens line text with
  | error fault => rfl
  | ok toks =>
    have hne : toks ≠ [] := by
      rintro rfl
      exact h hread
    change (readDocument (toks.map (.down k))).bind _ = lowered k id ((readDocument toks).bind _)
    rw [readDocument_down hne]
    refine lowered_bind fun statements => ?_
    rw [Draft.ofStatements_down, Draft.toGraph_down]

/-- A text that has no token is refused on line 1, wherever it stands. -/
theorem readGraph_of_no_tokens {text : String} (h : tokens line text = .ok []) :
    readGraph line text = .error ⟨1, .noGraph⟩ := by
  rw [readGraph, h]
  rfl

/-- Whether a text has a token does not depend on where it stands. -/
theorem tokens_down_eq_nil_iff {text : String} :
    tokens (line + k) text = .ok [] ↔ tokens line text = .ok [] := by
  rw [tokens, tokens, lex_down]
  cases lex line true text.toList with
  | error fault => exact iff_of_false nofun nofun
  | ok lexemes => cases lexemes with
    | nil => exact iff_of_true rfl rfl
    | cons l lexemes => exact iff_of_false nofun nofun

end GraphDependency.Dot
