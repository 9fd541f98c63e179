import GraphDependency.Text.Blank
import GraphDependency.Text.Lowercase
import GraphDependency.Text.Numeral

set_option autoImplicit false

/-!
# Strategies and settings

How dependencies are checked, and how the choice is read from text and from
environment variables.

Main statement: `parse_name`, a strategy is read back from its name.
-/

namespace GraphDependency

open GraphDependency.Text

/-- How dependencies are checked. -/
inductive Strategy where
  /-- exhaustive matching in the whole data graph -/
  | naive
  /-- matching around pinned centers, shared out between workers -/
  | distributed
  /-- enumeration along an index of candidates -/
  | index
  deriving DecidableEq, Repr

namespace Strategy

/-- The strategy if none is chosen is the index. -/
instance : Inhabited Strategy := ⟨.index⟩

/-- Every strategy. -/
def all : List Strategy := [.naive, .distributed, .index]

/-- The name of a strategy. -/
def name : Strategy → String
  | .naive => "naive"
  | .distributed => "distributed"
  | .index => "index"

/-- The strategies by the names under which they can be chosen, in small letters. -/
def named? (text : String) : Option Strategy :=
  if text = "naive" ∨ text = "naive_gfd_verifier" then some .naive
  else if text = "distributed" ∨ text = "gfd_verifier" then some .distributed
  else if text = "index" ∨ text = "cpi" ∨ text = "egfd_verifier" then some .index
  else none

/-- The name as it is looked up: without blanks around it, in small letters. -/
def normalize (text : String) : String := lowercase (trim text)

/-- The message about a name that no strategy has. -/
def unknownMessage (text : String) : String :=
  "unknown strategy '" ++ text ++ "': expected naive, distributed or index"

/-- The strategy with a name; the error is a message about the name. -/
def parse (text : String) : Except String Strategy :=
  match named? (normalize text) with
  | some strategy => .ok strategy
  | none => .error (unknownMessage (normalize text))

/-- A strategy is read back from its name. -/
theorem parse_name (strategy : Strategy) : parse strategy.name = .ok strategy := by
  have h : ∀ s : Strategy, normalize s.name = s.name := by
    intro s
    cases s <;> decide
  rw [parse, h]
  cases strategy <;> rfl

end Strategy

/-- The name of the variable that chooses the strategy. -/
def strategyKey : String := "GFD_STRATEGY"

/-- The name of the variable that chooses the number of workers. -/
def threadsKey : String := "GFD_THREADS"

end GraphDependency
