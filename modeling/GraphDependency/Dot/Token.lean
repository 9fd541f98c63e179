import GraphDependency.Graph
import GraphDependency.Text.Blank
import GraphDependency.Text.Escaped
import GraphDependency.Text.Lowercase

set_option autoImplicit false

/-!
# Tokens of graph text

The lexical units of the graph language, the places at which they stand, and
every reason for which a graph text is refused.
-/

namespace GraphDependency.Dot

open GraphDependency.Text

/-- A lexical unit. -/
inductive Token where
  /-- a bare identifier or numeral -/
  | word (text : String)
  /-- a quoted string, without its quotes and escapes -/
  | quoted (text : String)
  | leftBrace
  | rightBrace
  | leftBracket
  | rightBracket
  | equals
  | comma
  | semicolon
  /-- an edge operator of either kind -/
  | edgeOp
  deriving DecidableEq, Repr, Inhabited

namespace Token

/-- The name of a bare or quoted identifier. -/
def name? : Token → Option String
  | .word s => some s
  | .quoted s => some s
  | _ => none

/-- How a token is shown in a message. -/
def describe : Token → String
  | .word s => "Id(" ++ escape s ++ ")"
  | .quoted s => "Quoted(" ++ escape s ++ ")"
  | .leftBrace => "LBrace"
  | .rightBrace => "RBrace"
  | .leftBracket => "LBracket"
  | .rightBracket => "RBracket"
  | .equals => "Eq"
  | .comma => "Comma"
  | .semicolon => "Semi"
  | .edgeOp => "EdgeOp"

end Token

/-- A token with the line on which it starts. -/
structure Lexeme where
  token : Token
  line : Nat
  deriving DecidableEq, Repr, Inhabited

/-- What a production of the grammar wants next. -/
inductive Wanted where
  | leftBrace
  | nodeName
  | attributeName
  | equals
  | attributeValue
  deriving DecidableEq, Repr, Inhabited

/-- How a wanted item is called in a message. -/
def Wanted.describe : Wanted → String
  | .leftBrace => "'\x7b'"
  | .nodeName => "node name"
  | .attributeName => "attribute name"
  | .equals => "'='"
  | .attributeValue => "attribute value"

/-- Why a graph text is refused. -/
inductive Cause where
  /-- a block comment has no end -/
  | openComment
  /-- a slash starts no comment -/
  | loneSlash
  /-- a dash starts neither an edge operator nor a numeral -/
  | loneDash
  /-- a quoted string has no end -/
  | openString
  /-- a character starts no token -/
  | strayCharacter (c : Char)
  /-- the text does not start a graph -/
  | noGraph
  /-- the grammar wants something else than the token found, or than the end -/
  | expected (wanted : Wanted) (found : Option Token)
  /-- the body has no end -/
  | openBody
  /-- something follows the body -/
  | afterBody (found : Token)
  /-- a subgraph -/
  | subgraph
  /-- the graph refuses an edge -/
  | edge (fault : GraphFault)
  deriving DecidableEq, Repr, Inhabited

/-- The wording of a cause. -/
def Cause.message : Cause → String
  | .openComment => "unterminated block comment"
  | .loneSlash => "unexpected '/'"
  | .loneDash => "unexpected '-'"
  | .openString => "unterminated string"
  | .strayCharacter c => "unexpected character '" ++ String.singleton c ++ "'"
  | .noGraph => "expected 'graph' or 'digraph'"
  | .expected wanted (some t) =>
      "expected " ++ wanted.describe ++ ", found " ++ t.describe
  | .expected wanted none => "expected " ++ wanted.describe ++ ", found end of input"
  | .openBody => "missing closing '\x7d'"
  | .afterBody t => "unexpected " ++ t.describe ++ " after graph body"
  | .subgraph => "subgraphs are not supported"
  | .edge fault => fault.message

/-- A cause with the line that it is reported at. -/
structure Fault where
  line : Nat
  cause : Cause
  deriving DecidableEq, Repr, Inhabited

/-- The message about something that cannot be read. -/
def parseMessage (line : Nat) (cause : String) : String :=
  "parse error at line " ++ toString line ++ ": " ++ cause

/-- The message about a refused graph text. -/
def Fault.message (fault : Fault) : String := parseMessage fault.line fault.cause.message

end GraphDependency.Dot
