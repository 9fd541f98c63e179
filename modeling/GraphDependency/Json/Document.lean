import GraphDependency.Json.Token

set_option autoImplicit false

/-!
# Documents as they are read

The tree that a text spells.  A text may go wrong at some place; its document
then holds everything before that place, with a broken value there, so that what
stands in front can still be judged first.

The tree is built by an automaton with a stack: a state says what has to come
next and which arrays and objects are open, and each token leads to the next
state.

Main statement: `run_append`, reading goes on where it stood.
-/

namespace GraphDependency.Json

/-- What a text spells. -/
inductive Document where
  | null
  | boolean (value : Bool)
  | natural (n : Nat)
  /-- a number that is not natural -/
  | number
  /-- a string; without a text if a surrogate stands alone in it -/
  | string (text? : Option String)
  | array (items : List Document)
  /-- members in the order in which they stand; names may repeat -/
  | object (members : List (Option String × Document))
  /-- here the text goes wrong -/
  | broken
  deriving Repr, Inhabited

/-- A member of an object; its name is without a text if a surrogate stands alone
in it. -/
abbrev Member : Type := Option String × Document

namespace Document

mutual

/-- The text goes wrong nowhere in the document. -/
def intact : Document → Bool
  | .array items => intactItems items
  | .object members => intactMembers members
  | .broken => false
  | _ => true

/-- The text goes wrong in none of several documents. -/
def intactItems : List Document → Bool
  | [] => true
  | d :: rest => d.intact && intactItems rest

/-- The text goes wrong in none of several members. -/
def intactMembers : List Member → Bool
  | [] => true
  | (_, d) :: rest => d.intact && intactMembers rest

end

/-- An array or object that is open, with what it holds so far, the last first. -/
inductive Frame where
  | array (before : List Document)
  /-- a member of this name is being read -/
  | object (before : List Member) (name : Option String)
  deriving Repr, Inhabited

/-- Puts a document into the open containers around it, closing each after it. -/
def enclose : List Frame → Document → Document
  | [], d => d
  | .array before :: around, d => enclose around (.array (d :: before).reverse)
  | .object before name :: around, d => enclose around (.object ((name, d) :: before).reverse)

/-- What has to come next. -/
inductive State where
  /-- a value -/
  | value (around : List Frame)
  /-- the first value of an array, or its end -/
  | firstItem (around : List Frame)
  /-- the first name of an object, or its end -/
  | firstName (around : List Frame)
  /-- the next name of an object -/
  | nextName (before : List Member) (around : List Frame)
  /-- the colon after a name -/
  | colon (before : List Member) (name : Option String) (around : List Frame)
  /-- what may follow a value -/
  | after (d : Document) (around : List Frame)
  /-- nothing: the text has gone wrong -/
  | wrong (d : Document)
  deriving Repr, Inhabited

/-- The state once the text has gone wrong inside open containers. -/
def fail (around : List Frame) : State := .wrong (enclose around .broken)

/-- The state after the first token of a value. -/
def begin (around : List Frame) : Token → State
  | .null => .after .null around
  | .boolean b => .after (.boolean b) around
  | .natural n => .after (.natural n) around
  | .number => .after .number around
  | .string text? => .after (.string text?) around
  | .leftBracket => .firstItem around
  | .leftBrace => .firstName around
  | _ => fail around

/-- The state after a token. -/
def step : State → Token → State
  | .value around, t => begin around t
  | .firstItem around, .rightBracket => .after (.array []) around
  | .firstItem around, t => begin (.array [] :: around) t
  | .firstName around, .rightBrace => .after (.object []) around
  | .firstName around, .string name => .colon [] name around
  | .firstName around, _ => fail (.object [] none :: around)
  | .nextName before around, .string name => .colon before name around
  | .nextName before around, _ => fail (.object before none :: around)
  | .colon before name around, .colon => .value (.object before name :: around)
  | .colon before name around, _ => fail (.object before name :: around)
  | .after d (.array before :: around), .comma => .value (.array (d :: before) :: around)
  | .after d (.array before :: around), .rightBracket =>
    .after (.array (d :: before).reverse) around
  | .after d (.object before name :: around), .comma => .nextName ((name, d) :: before) around
  | .after d (.object before name :: around), .rightBrace =>
    .after (.object ((name, d) :: before).reverse) around
  | .after d (.array before :: around), _ => fail (.array (d :: before) :: around)
  | .after d (.object before name :: around), _ =>
    fail (.object ((name, d) :: before) none :: around)
  | .after d [], _ => .wrong d
  | .wrong d, _ => .wrong d

/-- What a text spells, and whether it spells that and nothing else. -/
structure Reading where
  document : Document
  whole : Bool
  deriving Repr, Inhabited

/-- What was read when the text ends in a state.  A text that ends too early goes
wrong at its end. -/
def State.finish (s : State) : Reading :=
  match s with
  | .after d [] => ⟨d, true⟩
  | s =>
    match step s .stray with
    | .wrong d => ⟨d, false⟩
    | _ => ⟨.broken, false⟩

/-- The state after several tokens. -/
def run (s : State) (ts : List Token) : State := ts.foldl step s

/-- Reading goes on where it stood. -/
theorem run_append (s : State) (ts us : List Token) : run s (ts ++ us) = run (run s ts) us :=
  List.foldl_append

/-- What tokens spell. -/
def ofTokens (ts : List Token) : Reading := (run (.value []) ts).finish

/-- What a text spells. -/
def ofText (text : String) : Reading := ofTokens (lex text.toList)

end Document

end GraphDependency.Json
