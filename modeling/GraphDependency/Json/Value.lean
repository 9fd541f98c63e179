import GraphDependency.Json.Token

set_option autoImplicit false

/-!
# Values to be written

The values that this library writes: natural numbers, strings, arrays and objects
whose members stand in a fixed order.  They are written without blanks or, for
people, with one element on a line.

Main statement: `compact_array`, the elements of an array stand between brackets,
with commas between them.
-/

namespace GraphDependency.Json

/-- A value to be written. -/
inductive Value where
  | natural (n : Nat)
  | text (s : String)
  | array (items : List Value)
  | object (members : List (String × Value))
  deriving Repr, Inhabited

/-- The spelling of a token. -/
def Token.spelling : Token → List Char
  | .leftBrace => ['\x7b']
  | .rightBrace => ['\x7d']
  | .leftBracket => ['[']
  | .rightBracket => [']']
  | .colon => [':']
  | .comma => [',']
  | .null => ['n', 'u', 'l', 'l']
  | .boolean true => ['t', 'r', 'u', 'e']
  | .boolean false => ['f', 'a', 'l', 's', 'e']
  | .natural n => Nat.toDigits 10 n
  | .number => ['-', '0']
  | .string (some text) => quoted text.toList
  | .string none => ['"', '\\', 'u', 'd', '8', '0', '0', '"']
  | .stray => ['?']

/-- Lists with a separator between them, one after the other. -/
def joinWith {α : Type} (separator : List α) : List (List α) → List α
  | [] => []
  | [piece] => piece
  | piece :: next :: rest => piece ++ separator ++ joinWith separator (next :: rest)

namespace Value

mutual

/-- The tokens of a value. -/
def tokens : Value → List Token
  | .natural n => [.natural n]
  | .text s => [.string (some s)]
  | .array items => .leftBracket :: (joinWith [.comma] (itemTokens items) ++ [.rightBracket])
  | .object members => .leftBrace :: (joinWith [.comma] (memberTokens members) ++ [.rightBrace])

/-- The tokens of each of several values. -/
def itemTokens : List Value → List (List Token)
  | [] => []
  | v :: rest => v.tokens :: itemTokens rest

/-- The tokens of each of several members. -/
def memberTokens : List (String × Value) → List (List Token)
  | [] => []
  | (name, v) :: rest => (.string (some name) :: .colon :: v.tokens) :: memberTokens rest

end

/-- The text of a value, without blanks. -/
def compact (v : Value) : String := String.ofList (v.tokens.flatMap Token.spelling)

/-- The start of a line at a depth. -/
def newLine (depth : Nat) : List Char := '\n' :: List.replicate (2 * depth) ' '

/-- Pieces between two brackets, each on a line of its own. -/
def block (left right : Char) (depth : Nat) (pieces : List (List Char)) : List Char :=
  if pieces.isEmpty then [left, right]
  else
    left :: (newLine (depth + 1) ++ joinWith (',' :: newLine (depth + 1)) pieces
      ++ newLine depth ++ [right])

mutual

/-- The characters of a value laid out for people, at a depth. -/
def layout (depth : Nat) : Value → List Char
  | .natural n => Nat.toDigits 10 n
  | .text s => quoted s.toList
  | .array items => block '[' ']' depth (itemLayouts (depth + 1) items)
  | .object members => block '\x7b' '\x7d' depth (memberLayouts (depth + 1) members)

/-- The characters of each of several values. -/
def itemLayouts (depth : Nat) : List Value → List (List Char)
  | [] => []
  | v :: rest => v.layout depth :: itemLayouts depth rest

/-- The characters of each of several members. -/
def memberLayouts (depth : Nat) : List (String × Value) → List (List Char)
  | [] => []
  | (name, v) :: rest =>
    (quoted name.toList ++ [':', ' '] ++ v.layout depth) :: memberLayouts depth rest

end

/-- The text of a value, laid out for people. -/
def pretty (v : Value) : String := String.ofList (v.layout 0)

/-- The elements of an array stand between brackets, with commas between them. -/
theorem compact_array (items : List Value) :
    (Value.array items).compact
      = String.ofList ('[' :: ((joinWith [Token.comma] (itemTokens items)).flatMap Token.spelling
          ++ [']'])) := by
  simp [compact, tokens, Token.spelling]

end Value

end GraphDependency.Json
