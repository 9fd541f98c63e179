import GraphDependency.Dependency
import GraphDependency.Dot.Writer
import GraphDependency.Text.Numeral

set_option autoImplicit false

/-!
# Dependency text

A dependency is written as a line of premises, a line of conclusion literals and
the graph text of its pattern.  Literals are separated by blanks; the first
equals sign of a literal parts its sides.  A side that starts with a number, a
point and something more is an attribute of that pattern vertex, every other
side is a constant.

Main statement: `splitAtFirst_eq_some_iff`, where a text is parted.
-/

namespace GraphDependency

open GraphDependency.Text

/-- Parts a text at the first occurrence of a character, which is dropped. -/
def splitAtFirst (sep : Char) : List Char → Option (List Char × List Char)
  | [] => none
  | c :: cs =>
    if c = sep then some ([], cs)
    else (splitAtFirst sep cs).map fun p => (c :: p.1, p.2)

/-- Where a text is parted. -/
theorem splitAtFirst_eq_some_iff {sep : Char} {cs before after : List Char} :
    splitAtFirst sep cs = some (before, after)
      ↔ cs = before ++ sep :: after ∧ sep ∉ before := by
  induction cs generalizing before with
  | nil => simp [splitAtFirst]
  | cons c cs ih =>
    rw [splitAtFirst]
    by_cases h : c = sep
    · subst h
      cases before with
      | nil => simp
      | cons b before => simp; grind
    · cases before with
      | nil => simp [h]
      | cons b before =>
        simp only [h, if_false, Option.map_eq_some_iff, Prod.mk.injEq, List.cons.injEq,
          Prod.exists, List.cons_append, List.mem_cons, not_or]
        constructor
        · rintro ⟨x, y, hxy, ⟨rfl, rfl⟩, rfl⟩
          obtain ⟨h1, h2⟩ := ih.mp hxy
          exact ⟨⟨rfl, h1⟩, fun hc => h hc.symm, h2⟩
        · rintro ⟨⟨rfl, h1⟩, -, h2⟩
          exact ⟨before, after, ih.mpr ⟨h1, h2⟩, ⟨rfl, rfl⟩, rfl⟩

/-- Why a literal is refused. -/
inductive LiteralFault where
  /-- there is no equals sign -/
  | noEquals (text : String)
  /-- a side is empty -/
  | emptySide (text : String)
  deriving DecidableEq, Repr, Inhabited

/-- The wording of a refusal. -/
def LiteralFault.message : LiteralFault → String
  | .noEquals text => "literal '" ++ text ++ "' has no '='"
  | .emptySide text => "literal '" ++ text ++ "' has an empty side"

/-- Why a dependency text is refused. -/
inductive DependencyTextFault where
  /-- a literal of the premises (line 1) or the conclusion (line 2) -/
  | literal (line : Nat) (fault : LiteralFault)
  /-- the graph text of the pattern -/
  | pattern (fault : Dot.Fault)
  /-- the parts make no dependency -/
  | malformed (fault : DependencyFault)
  deriving DecidableEq, Repr, Inhabited

/-- The message about a refused dependency text. -/
def DependencyTextFault.message : DependencyTextFault → String
  | .literal line fault => Dot.parseMessage line fault.message
  | .pattern fault => fault.message
  | .malformed fault => fault.message

/-- A side of a literal that names an attribute of a pattern vertex. -/
def parseVertexTerm? (cs : List Char) : Option Term :=
  match splitAtFirst '.' cs with
  | none => none
  | some (before, after) =>
    match readUnsigned max64 before with
    | .error _ => none
    | .ok index => if after.isEmpty then none else some (.vertex index (String.ofList after))

/-- The meaning of a side of a literal. -/
def parseTerm (cs : List Char) : Term :=
  (parseVertexTerm? cs).getD (.constant (String.ofList cs))

/-- The meaning of a literal. -/
def parseLiteral (cs : List Char) : Except LiteralFault Literal :=
  match splitAtFirst '=' cs with
  | none => .error (.noEquals (String.ofList cs))
  | some (lhs, rhs) =>
    if lhs.isEmpty || rhs.isEmpty then .error (.emptySide (String.ofList cs))
    else .ok ⟨parseTerm lhs, parseTerm rhs⟩

/-- The literals of a line. -/
def parseLiterals (cs : List Char) : Except LiteralFault (List Literal) :=
  (words cs).mapM parseLiteral

/-- The literals of a line with the given number. -/
def parseLiteralLine (line : Nat) (cs : List Char) :
    Except DependencyTextFault (List Literal) :=
  (parseLiterals cs).mapError (.literal line)

/-- The first line of a text and what follows its end. -/
def splitLine (cs : List Char) : List Char × List Char :=
  (splitAtFirst '\n' cs).getD (cs, [])

/-- Reads a dependency: premises, conclusion, pattern, and then the whole. -/
def readDependency (text : String) : Except DependencyTextFault Dependency := do
  let (first, rest) := splitLine text.toList
  let (second, rest) := splitLine rest
  let premises ← parseLiteralLine 1 first
  let conclusion ← parseLiteralLine 2 second
  let pattern ← (Dot.readGraph 3 (String.ofList rest)).mapError .pattern
  (Dependency.ofParts pattern premises conclusion).mapError .malformed

/-- A line of literals. -/
def writeLiterals (literals : List Literal) : String :=
  " ".intercalate (literals.map Literal.text)

/-- The text of a dependency. -/
def writeDependency (d : Dependency) : String :=
  writeLiterals d.premises ++ "\n" ++ writeLiterals d.conclusion ++ "\n"
    ++ Dot.writeGraph d.pattern

end GraphDependency
