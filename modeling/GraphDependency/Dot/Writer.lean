import GraphDependency.Dot.Draft

set_option autoImplicit false

/-!
# From graphs to text

Vertices are written by position with their label and attributes, then the edges
in order.  A text is written bare if it is an identifier that is no keyword, or
an optional dash with ASCII digits; otherwise between quotes, with quotes and
backslashes escaped.

Main statement: `escapeQuoted_append`, escaping goes character by character.
-/

namespace GraphDependency.Dot

/-- The words that may not stand bare for a name. -/
def keywords : List String := ["strict", "graph", "digraph", "node", "edge", "subgraph"]

/-- An ASCII letter or an underscore. -/
def isIdentifierStart (c : Char) : Bool :=
  ('a' ≤ c && c ≤ 'z') || ('A' ≤ c && c ≤ 'Z') || c == '_'

/-- An ASCII letter, a digit or an underscore. -/
def isIdentifierPart (c : Char) : Bool := isAsciiAlnum c || c == '_'

/-- The text is an ASCII identifier. -/
def isIdentifier : List Char → Bool
  | [] => false
  | c :: cs => isIdentifierStart c && cs.all isIdentifierPart

/-- The text is one or more digits after an optional dash. -/
def isNumeral : List Char → Bool
  | [] => false
  | '-' :: cs => !cs.isEmpty && cs.all Char.isDigit
  | cs => cs.all Char.isDigit

/-- The text can be written bare. -/
def isPlain (text : String) : Bool :=
  (isIdentifier text.toList && !keywords.contains (Text.lowercase text)) || isNumeral text.toList

/-- What stands for a text between quotes. -/
def escapeQuoted : List Char → List Char
  | [] => []
  | c :: cs =>
    if c = '\\' ∨ c = '"' then '\\' :: c :: escapeQuoted cs else c :: escapeQuoted cs

/-- The written form of a label, a name or a value. -/
def quote (text : String) : String :=
  if isPlain text then text
  else String.ofList ('"' :: escapeQuoted text.toList ++ ['"'])

theorem escapeQuoted_append (xs ys : List Char) :
    escapeQuoted (xs ++ ys) = escapeQuoted xs ++ escapeQuoted ys := by
  induction xs with
  | nil => rfl
  | cons c cs ih => by_cases h : c = '\\' ∨ c = '"' <;> simp [escapeQuoted, h, ih]

/-- An attribute inside the brackets of a vertex. -/
def writeAttribute (name value : String) : String :=
  ", " ++ quote name ++ "=" ++ quote value

/-- The attributes that are written: all but the label and the identity. -/
def writtenEntries (vertex : Vertex) : List (String × String) :=
  vertex.attributes.entries.filter fun e => e.1 ≠ labelName ∧ e.1 ≠ identityName

/-- The line of a vertex. -/
def writeVertex (id : Nat) (vertex : Vertex) : String :=
  "  " ++ toString id ++ " [label=" ++ quote vertex.label
    ++ String.join ((writtenEntries vertex).map fun e => writeAttribute e.1 e.2) ++ "];\n"

/-- The line of an edge. -/
def writeEdge (e : Edge) : String :=
  "  " ++ toString e.first ++ " -- " ++ toString e.second
    ++ " [label=" ++ quote e.label ++ "];\n"

/-- The text of a graph. -/
def writeGraph (g : Graph) : String :=
  "graph G \x7b\n"
    ++ String.join (g.vertices.toList.mapIdx writeVertex)
    ++ String.join (g.edges.toList.map writeEdge)
    ++ "\x7d\n"

end GraphDependency.Dot
