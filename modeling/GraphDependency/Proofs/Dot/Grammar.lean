import GraphDependency.Dot.Statement
import GraphDependency.Except

set_option autoImplicit false

/-!
# The grammar of graph text

The grammar says which tokens make a graph text and which statements they stand for; it
knows nothing of readers.  No production begins with a token with which one that may come
before it goes on.  So a reader that takes as much as it can takes what the grammar derives,
and what it refuses has no derivation.

Main statements: `exists_groups_of_readGroups` and its kin (a reader takes what the grammar
derives), `readGroups_of_groups` and its kin (and misses nothing), and from them
`readDocument_eq_ok_iff`.
-/

namespace GraphDependency.Dot

/-! ## Productions -/

/-- Attributes of one group, without its brackets: pairs, and separators anywhere between
them. -/
inductive Entries : List Lexeme → List (String × String) → Prop
  | nil : Entries [] []
  | separator {l : Lexeme} {toks : List Lexeme} {es : List (String × String)}
      (h : l.token = .comma ∨ l.token = .semicolon) (rest : Entries toks es) :
      Entries (l :: toks) es
  | entry {key equals value : Lexeme} {toks : List Lexeme} {es : List (String × String)}
      {name text : String} (hkey : key.token.name? = some name) (heq : equals.token = .equals)
      (hvalue : value.token.name? = some text) (rest : Entries toks es) :
      Entries (key :: equals :: value :: toks) ((name, text) :: es)

/-- Any number of attribute groups in brackets. -/
inductive Groups : List Lexeme → List (String × String) → Prop
  | nil : Groups [] []
  | group {opening closing : Lexeme} {entries groups : List Lexeme}
      {es fs : List (String × String)} (hopen : opening.token = .leftBracket)
      (hentries : Entries entries es) (hclose : closing.token = .rightBracket)
      (rest : Groups groups fs) :
      Groups (opening :: (entries ++ closing :: groups)) (es ++ fs)

/-- Any number of edge operators, each with a name behind it. -/
inductive Links : List Lexeme → List String → Prop
  | nil : Links [] []
  | link {op target : Lexeme} {toks : List Lexeme} {name : String} {names : List String}
      (hop : op.token = .edgeOp) (htarget : target.token.name? = some name)
      (rest : Links toks names) : Links (op :: target :: toks) (name :: names)

/-- The words that begin defaults. -/
def defaultWords : List String := ["graph", "node", "edge"]

/-- A token names what a statement is about: it is a name, and no bare word that begins
another kind of statement. -/
def Heads (l : Lexeme) (name : String) : Prop :=
  l.token.name? = some name ∧ l.token.keyword? ≠ some "subgraph"
    ∧ ∀ word ∈ defaultWords, l.token.keyword? ≠ some word

/-- The tokens of a statement. -/
inductive Says : List Lexeme → Statement → Prop
  | defaults {head : Lexeme} {groups : List Lexeme} {es : List (String × String)} {word : String}
      (hword : word ∈ defaultWords) (hhead : head.token.keyword? = some word)
      (hgroups : Groups groups es) : Says (head :: groups) .defaults
  | assignment {head equals value : Lexeme} {name text : String} (hhead : Heads head name)
      (heq : equals.token = .equals) (hvalue : value.token.name? = some text) :
      Says [head, equals, value] .assignment
  | node {head : Lexeme} {groups : List Lexeme} {es : List (String × String)} {name : String}
      (hhead : Heads head name) (hgroups : Groups groups es) :
      Says (head :: groups) (.node name (Attributes.ofList es))
  | chain {head : Lexeme} {links groups : List Lexeme} {es : List (String × String)}
      {name : String} {names : List String} (hhead : Heads head name) (hlinks : Links links names)
      (hne : names ≠ []) (hgroups : Groups groups es) :
      Says (head :: (links ++ groups)) (.chain (name :: names) (Attributes.ofList es) head.line)

/-- Statements, and semicolons anywhere between them. -/
inductive Body : List Lexeme → List Statement → Prop
  | nil : Body [] []
  | semicolon {l : Lexeme} {toks : List Lexeme} {ss : List Statement}
      (h : l.token = .semicolon) (rest : Body toks ss) : Body (l :: toks) ss
  | statement {toks behind : List Lexeme} {s : Statement} {ss : List Statement}
      (h : Says toks s) (rest : Body behind ss) : Body (toks ++ behind) (s :: ss)

/-- A graph text: perhaps `strict`, then the kind of graph, perhaps a name, and a body in
braces. -/
inductive Document : List Lexeme → List Statement → Prop
  | intro {strict title : Option Lexeme} {kind opening closing : Lexeme} {body : List Lexeme}
      {ss : List Statement} (hstrict : ∀ l ∈ strict, l.token.keyword? = some "strict")
      (hkind : kind.token.keyword? = some "graph" ∨ kind.token.keyword? = some "digraph")
      (htitle : ∀ l ∈ title, ∃ name, l.token.name? = some name)
      (hopen : opening.token = .leftBrace) (hbody : Body body ss)
      (hclose : closing.token = .rightBrace) :
      Document (strict.toList ++ kind :: (title.toList ++ opening :: (body ++ [closing]))) ss

/-- What follows cannot be a part of the statement before. -/
def Ends (rest : List Lexeme) : Prop :=
  ∀ l ∈ rest.head?, l.token ≠ .leftBracket ∧ l.token ≠ .equals ∧ l.token ≠ .edgeOp

variable {last line : Nat} {acc as : Attributes} {l : Lexeme} {toks rest taken : List Lexeme}
  {es : List (String × String)} {name : String} {names : List String} {s : Statement}
  {ss : List Statement}

/-! ## Attributes -/

/-- A group without its opening bracket, and the groups that follow it. -/
def Opened (toks : List Lexeme) (es : List (String × String)) : Prop :=
  ∃ entries closing groups es₁ es₂, toks = entries ++ closing :: groups ∧ Entries entries es₁
    ∧ closing.token = .rightBracket ∧ Groups groups es₂ ∧ es = es₁ ++ es₂

theorem Opened.separator (h : l.token = .comma ∨ l.token = .semicolon) (ho : Opened toks es) :
    Opened (l :: toks) es := by
  obtain ⟨entries, closing, groups, es₁, es₂, rfl, he, hc, hg, rfl⟩ := ho
  exact ⟨l :: entries, closing, groups, es₁, es₂, rfl, .separator h he, hc, hg, rfl⟩

theorem Opened.entry {key equals value : Lexeme} {text : String}
    (hkey : key.token.name? = some name) (heq : equals.token = .equals)
    (hvalue : value.token.name? = some text) (ho : Opened toks es) :
    Opened (key :: equals :: value :: toks) ((name, text) :: es) := by
  obtain ⟨entries, closing, groups, es₁, es₂, rfl, he, hc, hg, rfl⟩ := ho
  exact ⟨_, closing, groups, _, es₂, rfl, .entry hkey heq hvalue he, hc, hg, rfl⟩

mutual

theorem exists_groups_of_readGroups {last : Nat} {acc as : Attributes} {toks rest : List Lexeme}
    (h : readGroups last acc toks = .ok (as, rest)) :
    ∃ taken es, toks = taken ++ rest ∧ Groups taken es ∧ as = acc.insertAll es := by
  match toks with
  | [] =>
    cases h
    exact ⟨[], [], rfl, .nil, rfl⟩
  | ⟨t, n⟩ :: toks =>
    cases t
    case leftBracket =>
      rw [readGroups] at h
      obtain ⟨taken, es, rfl, ⟨entries, closing, groups, es₁, es₂, rfl, he, hc, hg, rfl⟩, has⟩ :=
        exists_opened_of_readEntries h
      exact ⟨_, _, rfl, .group rfl he hc hg, has⟩
    all_goals
      cases h
      exact ⟨[], [], rfl, .nil, rfl⟩

theorem exists_opened_of_readEntries {last : Nat} {acc as : Attributes} {toks rest : List Lexeme}
    (h : readEntries last acc toks = .ok (as, rest)) :
    ∃ taken es, toks = taken ++ rest ∧ Opened taken es ∧ as = acc.insertAll es := by
  unfold readEntries at h
  split at h
  · cases h
  · obtain ⟨groups, es, rfl, hg, has⟩ := exists_groups_of_readGroups h
    exact ⟨_, es, rfl, ⟨[], _, groups, [], es, rfl, .nil, rfl, hg, rfl⟩, has⟩
  · obtain ⟨taken, es, rfl, ho, has⟩ := exists_opened_of_readEntries h
    exact ⟨_, es, rfl, ho.separator (Or.inl rfl), has⟩
  · obtain ⟨taken, es, rfl, ho, has⟩ := exists_opened_of_readEntries h
    exact ⟨_, es, rfl, ho.separator (Or.inr rfl), has⟩
  · rename_i key behind _ _ _
    split at h
    · cases h
    · rename_i name hkey
      split at h
      · cases h
      · cases h
      · split at h
        · cases h
        · rename_i text hvalue
          obtain ⟨taken, es, rfl, ho, has⟩ := exists_opened_of_readEntries h
          exact ⟨_, (name, text) :: es, rfl, ho.entry hkey rfl hvalue, has⟩
      · cases h

end

theorem readEntries_of_entries (h : Entries toks es) :
    readEntries last acc (toks ++ rest) = readEntries last (acc.insertAll es) rest := by
  induction h generalizing acc with
  | nil => rfl
  | @separator l toks es h _ ih =>
    obtain ⟨t, n⟩ := l
    obtain rfl | rfl : t = .comma ∨ t = .semicolon := h
    · exact ih
    · exact ih
  | @entry key equals value toks es name text hkey heq hvalue _ ih =>
    obtain ⟨t, n⟩ := key
    obtain ⟨t', n'⟩ := equals
    obtain rfl : t' = .equals := heq
    have hstep : readEntries last acc (⟨t, n⟩ :: ⟨.equals, n'⟩ :: value :: (toks ++ rest))
        = readEntries last (acc.insert name text) (toks ++ rest) := by
      cases t with
      | word name' | quoted name' =>
        cases hkey
        simp only [readEntries, hvalue]
        rfl
      | _ => cases hkey
    exact hstep.trans ih

theorem readGroups_of_groups (h : Groups toks es)
    (hends : ∀ l ∈ rest.head?, l.token ≠ .leftBracket) :
    readGroups last acc (toks ++ rest) = .ok (acc.insertAll es, rest) := by
  induction h generalizing acc with
  | nil =>
    cases rest with
    | nil => rfl
    | cons l rest =>
      obtain ⟨t, n⟩ := l
      cases t
      case leftBracket => exact absurd rfl (hends _ rfl)
      all_goals rfl
  | @group opening closing entries groups es fs hopen hentries hclose _ ih =>
    obtain ⟨t, n⟩ := opening
    obtain ⟨t', n'⟩ := closing
    obtain rfl : t = .leftBracket := hopen
    obtain rfl : t' = .rightBracket := hclose
    rw [List.cons_append, List.append_assoc, List.cons_append, readGroups,
      readEntries_of_entries hentries]
    refine ih.trans ?_
    rw [Attributes.insertAll, Attributes.insertAll, Attributes.insertAll, List.foldl_append]

/-! ## Statements -/

theorem exists_links_of_readChain (h : readChain last toks = .ok (names, rest)) :
    ∃ taken, toks = taken ++ rest ∧ Links taken names := by
  fun_induction readChain last toks generalizing names rest with
  | case1 => cases h
  | case2 => cases h
  | case3 => cases h
  | case4 n target behind name hname names' rest' hread ih =>
    cases h
    obtain ⟨taken, rfl, hlinks⟩ := ih hread
    exact ⟨_, rfl, .link rfl hname hlinks⟩
  | case5 =>
    cases h
    exact ⟨[], rfl, .nil⟩

theorem ne_nil_of_readChain {n : Nat}
    (h : readChain last (⟨.edgeOp, n⟩ :: toks) = .ok (names, rest)) : names ≠ [] := by
  cases toks with
  | nil => cases h
  | cons target toks =>
    rw [readChain] at h
    split at h
    · cases h
    · split at h
      · cases h
      · cases h
        exact List.cons_ne_nil _ _

theorem readChain_of_links (h : Links toks names)
    (hends : ∀ l ∈ rest.head?, l.token ≠ .edgeOp) :
    readChain last (toks ++ rest) = .ok (names, rest) := by
  induction h with
  | nil =>
    cases rest with
    | nil => rfl
    | cons l rest =>
      obtain ⟨t, n⟩ := l
      cases t
      case edgeOp => exact absurd rfl (hends _ rfl)
      all_goals rfl
  | @link op target toks name names hop htarget _ ih =>
    obtain ⟨t, n⟩ := op
    obtain rfl : t = .edgeOp := hop
    rw [List.cons_append, List.cons_append, readChain, htarget]
    simp only [ih]

theorem exists_of_readTail {head : Lexeme} (hhead : Heads head name)
    (h : readTail last head.line name toks = .ok (s, rest)) :
    ∃ taken, toks = taken ++ rest ∧ Says (head :: taken) s := by
  unfold readTail at h
  split at h
  · split at h
    · cases h
    · rename_i n behind _ text rest' hread
      cases h
      cases behind with
      | nil => cases hread
      | cons value behind =>
        unfold readName at hread
        simp only at hread
        split at hread
        · rename_i hvalue
          cases hread
          exact ⟨[_, value], rfl, .assignment hhead rfl hvalue⟩
        · cases hread
  · split at h
    · cases h
    · rename_i hread
      split at h
      · cases h
      · rename_i hgroups
        cases h
        obtain ⟨links, hlinks, hl⟩ := exists_links_of_readChain hread
        obtain ⟨groups, es, rfl, hg, rfl⟩ := exists_groups_of_readGroups hgroups
        rw [hlinks]
        exact ⟨links ++ groups, (List.append_assoc ..).symm,
          .chain hhead hl (ne_nil_of_readChain hread) hg⟩
  · split at h
    · cases h
    · rename_i hgroups
      cases h
      obtain ⟨groups, es, rfl, hg, rfl⟩ := exists_groups_of_readGroups hgroups
      exact ⟨groups, rfl, .node hhead hg⟩

theorem readStatement_of_defaults {word : String} (hword : word ∈ defaultWords)
    (hkeyword : l.token.keyword? = some word) :
    readStatement last (l :: rest)
      = (readGroups last .empty rest).map fun p => (.defaults, p.2) := by
  simp only [defaultWords, List.mem_cons, List.not_mem_nil, or_false] at hword
  obtain rfl | rfl | rfl := hword
  all_goals
    simp only [readStatement, hkeyword]
    cases readGroups last .empty rest <;> rfl

theorem readStatement_of_heads (h : Heads l name) :
    readStatement last (l :: rest) = readTail last l.line name rest := by
  obtain ⟨hname, hsub, hwords⟩ := h
  rw [readStatement]
  split
  · rename_i hkeyword
    exact absurd hkeyword hsub
  · rename_i hkeyword
    exact absurd hkeyword (hwords "graph" (by decide))
  · rename_i hkeyword
    exact absurd hkeyword (hwords "node" (by decide))
  · rename_i hkeyword
    exact absurd hkeyword (hwords "edge" (by decide))
  · rw [hname]

/-- A statement begins with one of the words for defaults, or with a name. -/
theorem begins_of_readStatement (h : readStatement last (l :: toks) = .ok (s, rest)) :
    (∃ word ∈ defaultWords, l.token.keyword? = some word) ∨ ∃ name, Heads l name := by
  by_cases hword : ∃ word ∈ defaultWords, l.token.keyword? = some word
  · exact Or.inl hword
  · refine Or.inr ?_
    rw [readStatement] at h
    split at h
    · cases h
    · rename_i hkeyword
      exact absurd ⟨"graph", by decide, hkeyword⟩ hword
    · rename_i hkeyword
      exact absurd ⟨"node", by decide, hkeyword⟩ hword
    · rename_i hkeyword
      exact absurd ⟨"edge", by decide, hkeyword⟩ hword
    · rename_i hsub _ _ _
      split at h
      · cases h
      · rename_i name hname
        exact ⟨name, hname, hsub, fun word hmem heq => hword ⟨word, hmem, heq⟩⟩

theorem exists_of_readStatement (h : readStatement last toks = .ok (s, rest)) :
    ∃ taken, toks = taken ++ rest ∧ Says taken s := by
  cases toks with
  | nil => cases h
  | cons l toks =>
    obtain ⟨word, hword, hkeyword⟩ | ⟨name, hhead⟩ := begins_of_readStatement h
    · rw [readStatement_of_defaults hword hkeyword] at h
      cases hread : readGroups last .empty toks with
      | error fault =>
        rw [hread] at h
        cases h
      | ok p =>
        rw [hread] at h
        cases h
        obtain ⟨groups, es, rfl, hg, -⟩ := exists_groups_of_readGroups hread
        exact ⟨l :: groups, rfl, .defaults hword hkeyword hg⟩
    · rw [readStatement_of_heads hhead] at h
      obtain ⟨taken, rfl, hsays⟩ := exists_of_readTail hhead h
      exact ⟨_, rfl, hsays⟩

/-- Attribute groups begin with a bracket, if there are any. -/
theorem Groups.head (h : Groups toks es) (hl : l ∈ (toks ++ rest).head?) :
    l ∈ rest.head? ∨ l.token = .leftBracket := by
  cases h with
  | nil => exact Or.inl hl
  | group hopen _ _ _ =>
    cases hl
    exact Or.inr hopen

theorem readTail_of_node (h : ∀ l ∈ toks.head?, l.token ≠ .equals ∧ l.token ≠ .edgeOp) :
    readTail last line name toks
      = (readGroups last .empty toks).map fun p => (.node name p.1, p.2) := by
  rw [readTail.eq_def]
  split
  · exact absurd rfl (h _ rfl).1
  · exact absurd rfl (h _ rfl).2
  · cases readGroups last .empty toks <;> rfl

theorem readStatement_of_says (h : Says toks s) (hends : Ends rest) :
    readStatement last (toks ++ rest) = .ok (s, rest) := by
  have hbracket : ∀ l ∈ rest.head?, l.token ≠ .leftBracket := fun l hl => (hends l hl).1
  cases h with
  | @defaults head groups es word hword hhead hgroups =>
    rw [List.cons_append, readStatement_of_defaults hword hhead,
      readGroups_of_groups hgroups hbracket]
    rfl
  | @assignment head equals value name text hhead heq hvalue =>
    obtain ⟨t, n⟩ := equals
    obtain rfl : t = .equals := heq
    rw [List.cons_append, readStatement_of_heads hhead]
    simp only [List.cons_append, List.nil_append, readTail, readName, hvalue]
  | @node head groups es name hhead hgroups =>
    rw [List.cons_append, readStatement_of_heads hhead, readTail_of_node,
      readGroups_of_groups hgroups hbracket]
    · rfl
    · intro l hl
      rcases hgroups.head hl with hl | hl
      · exact (hends l hl).2
      · rw [hl]
        exact ⟨by decide, by decide⟩
  | @chain head links groups es name names hhead hlinks hne hgroups =>
    have hread : readChain last (links ++ (groups ++ rest)) = .ok (names, groups ++ rest) := by
      refine readChain_of_links hlinks fun l hl => ?_
      rcases hgroups.head hl with hl | hl
      · exact (hends l hl).2.2
      · rw [hl]
        decide
    rw [List.cons_append, List.append_assoc, readStatement_of_heads hhead]
    cases hlinks with
    | nil => exact absurd rfl hne
    | @link op target toks name' names' hop htarget hrest =>
      obtain ⟨t, n⟩ := op
      obtain rfl : t = .edgeOp := hop
      rw [List.cons_append] at hread ⊢
      rw [readTail, hread]
      simp only [readGroups_of_groups hgroups hbracket]
      rfl

/-! ## Bodies -/

/-- A statement begins with a name. -/
theorem Says.head (h : Says toks s) :
    ∃ l behind name, toks = l :: behind ∧ l.token.name? = some name := by
  cases h with
  | @defaults head groups es word hword hhead hgroups =>
    obtain ⟨t, n⟩ := head
    cases t with
    | word text => exact ⟨_, groups, text, rfl, rfl⟩
    | _ => cases hhead
  | assignment hhead _ _ => exact ⟨_, _, _, rfl, hhead.1⟩
  | node hhead _ => exact ⟨_, _, _, rfl, hhead.1⟩
  | chain hhead _ _ _ => exact ⟨_, _, _, rfl, hhead.1⟩

/-- What follows a statement in a body cannot be a part of it. -/
theorem Body.ends {closing : Lexeme} (h : Body toks ss) (hclose : closing.token = .rightBrace) :
    Ends (toks ++ closing :: rest) := by
  cases h with
  | nil =>
    rintro l ⟨⟩
    rw [hclose]
    exact ⟨nofun, nofun, nofun⟩
  | semicolon h rest =>
    rintro l ⟨⟩
    rw [h]
    exact ⟨nofun, nofun, nofun⟩
  | statement h rest =>
    obtain ⟨l, behind, name, rfl, hname⟩ := h.head
    rintro l' ⟨⟩
    refine ⟨?_, ?_, ?_⟩
    all_goals
      intro heq
      rw [heq] at hname
      cases hname

theorem exists_body_of_readBody (h : readBody last toks = .ok (ss, rest)) :
    ∃ taken closing, toks = taken ++ closing :: rest ∧ Body taken ss
      ∧ closing.token = .rightBrace := by
  fun_induction readBody last toks generalizing ss rest with
  | case1 => cases h
  | case2 n behind =>
    cases h
    exact ⟨[], _, rfl, .nil, rfl⟩
  | case3 n behind ih =>
    obtain ⟨taken, closing, rfl, hbody, hclose⟩ := ih h
    exact ⟨_ :: taken, closing, rfl, .semicolon rfl hbody, hclose⟩
  | case4 => cases h
  | case5 => cases h
  | case6 l behind _ _ s rest' hread _ ss' rest'' hbehind ih =>
    cases h
    obtain ⟨first, hfirst, hsays⟩ := exists_of_readStatement hread
    obtain ⟨taken, closing, rfl, hbody, hclose⟩ := ih hbehind
    exact ⟨first ++ taken, closing, by rw [hfirst, List.append_assoc], .statement hsays hbody,
      hclose⟩

/-- Behind a statement the body goes on. -/
theorem readBody_of_readStatement (h : readStatement last toks = .ok (s, rest)) :
    readBody last toks = (readBody last rest).map fun p => (s :: p.1, p.2) := by
  generalize hbehind : readBody last rest = behind
  unfold readBody
  split
  · simp [readStatement] at h
  · simp [readStatement, Token.keyword?, Token.name?] at h
  · simp [readStatement, Token.keyword?, Token.name?] at h
  · split
    · rename_i hfault
      rw [h] at hfault
      cases hfault
    · rename_i hok
      rw [h] at hok
      cases hok
      rw [hbehind]
      cases behind <;> rfl

theorem readBody_of_body {closing : Lexeme} (h : Body toks ss)
    (hclose : closing.token = .rightBrace) :
    readBody last (toks ++ closing :: rest) = .ok (ss, rest) := by
  induction h with
  | nil =>
    obtain ⟨t, n⟩ := closing
    obtain rfl : t = .rightBrace := hclose
    rw [List.nil_append, readBody]
  | @semicolon l toks ss h _ ih =>
    obtain ⟨t, n⟩ := l
    obtain rfl : t = .semicolon := h
    rw [List.cons_append, readBody, ih]
  | @statement toks behind s ss h hbody ih =>
    have hread : readStatement last (toks ++ (behind ++ closing :: rest))
        = .ok (s, behind ++ closing :: rest) := readStatement_of_says h (hbody.ends hclose)
    rw [List.append_assoc, readBody_of_readStatement hread, ih]
    rfl

/-! ## Documents -/

theorem exists_strict (toks : List Lexeme) :
    ∃ strict : Option Lexeme, toks = strict.toList ++ skipStrict toks
      ∧ ∀ l ∈ strict, l.token.keyword? = some "strict" := by
  cases toks with
  | nil => exact ⟨none, rfl, nofun⟩
  | cons l toks =>
    by_cases h : l.token.keyword? = some "strict"
    · refine ⟨some l, by rw [skipStrict, if_pos h]; rfl, ?_⟩
      rintro _ ⟨⟩
      exact h
    · exact ⟨none, by rw [skipStrict, if_neg h]; rfl, nofun⟩

theorem exists_title (toks : List Lexeme) :
    ∃ title : Option Lexeme, toks = title.toList ++ skipName toks
      ∧ ∀ l ∈ title, ∃ name, l.token.name? = some name := by
  cases toks with
  | nil => exact ⟨none, rfl, nofun⟩
  | cons l toks =>
    by_cases h : l.token.name?.isSome = true
    · refine ⟨some l, by rw [skipName, if_pos h]; rfl, ?_⟩
      rintro _ ⟨⟩
      exact Option.isSome_iff_exists.mp h
    · exact ⟨none, by rw [skipName, if_neg h]; rfl, nofun⟩

theorem skipStrict_append {strict : Option Lexeme}
    (hstrict : ∀ l ∈ strict, l.token.keyword? = some "strict")
    (hl : l.token.keyword? ≠ some "strict") :
    skipStrict (strict.toList ++ l :: rest) = l :: rest := by
  cases strict with
  | none => exact if_neg hl
  | some first => exact if_pos (hstrict first rfl)

theorem skipName_append {title : Option Lexeme}
    (htitle : ∀ l ∈ title, ∃ name, l.token.name? = some name) (hl : l.token.name? = none) :
    skipName (title.toList ++ l :: rest) = l :: rest := by
  cases title with
  | none =>
    refine if_neg ?_
    rw [hl]
    exact Bool.false_ne_true
  | some first => exact if_pos (Option.isSome_iff_exists.mpr (htitle first rfl))

theorem readHeading_eq_ok_iff : readHeading last toks = .ok rest
    ↔ ∃ kind, toks = kind :: rest
      ∧ (kind.token.keyword? = some "graph" ∨ kind.token.keyword? = some "digraph") := by
  constructor
  · intro h
    cases toks with
    | nil => cases h
    | cons l toks =>
      rw [readHeading] at h
      split at h
      · rename_i hkind
        cases h
        exact ⟨l, rfl, hkind⟩
      · cases h
  · rintro ⟨kind, rfl, hkind⟩
    rw [readHeading, if_pos hkind]

theorem readOpening_eq_ok_iff : readOpening last toks = .ok rest
    ↔ ∃ opening, toks = opening :: rest ∧ opening.token = .leftBrace := by
  cases toks with
  | nil => exact ⟨nofun, nofun⟩
  | cons l toks =>
    obtain ⟨t, n⟩ := l
    constructor
    · intro h
      cases t <;> cases h
      exact ⟨_, rfl, rfl⟩
    · rintro ⟨opening, ⟨⟩, h⟩
      obtain rfl : t = .leftBrace := h
      rfl

/-- Tokens are read as a graph text exactly if they are one. -/
theorem readDocument_eq_ok_iff : readDocument toks = .ok ss ↔ Document toks ss := by
  unfold readDocument
  generalize (Option.map Lexeme.line _).getD 1 = last
  change ((readHeading last (skipStrict toks)).bind fun behind =>
    (readOpening last (skipName behind)).bind fun body => (readBody last body).bind _) = _ ↔ _
  simp only [bind_eq_ok_iff, readHeading_eq_ok_iff, readOpening_eq_ok_iff]
  constructor
  · rintro ⟨behind, ⟨kind, hkind, hgraph⟩, body, ⟨opening, hopening, hleft⟩, ⟨ss', rest⟩, hread, h⟩
    cases rest with
    | cons => cases h
    | nil =>
      cases h
      obtain ⟨taken, closing, rfl, hbody, hclose⟩ := exists_body_of_readBody hread
      obtain ⟨strict, hstrict, hs⟩ := exists_strict toks
      obtain ⟨title, htitle, ht⟩ := exists_title behind
      rw [hstrict, hkind, htitle, hopening]
      exact .intro hs hgraph ht hleft hbody hclose
  · rintro ⟨hstrict, hkind, htitle, hopen, hbody, hclose⟩
    rename_i strict title kind opening closing body
    have hnot : kind.token.keyword? ≠ some "strict" := by
      rcases hkind with h | h <;> rw [h] <;> decide
    have hbrace : opening.token.name? = none := by rw [hopen]; rfl
    exact ⟨_, ⟨kind, skipStrict_append hstrict hnot, hkind⟩, _,
      ⟨opening, skipName_append htitle hbrace, hopen⟩, _, readBody_of_body hbody hclose, rfl⟩

end GraphDependency.Dot
