import GraphDependency.Graph
import GraphDependency.Selection

set_option autoImplicit false

/-!
# The order in which a pattern is matched

A plan lists the vertices of a pattern so that each one is, where the pattern
allows it, adjacent to a vertex before it.  After the root comes the vertex with
the most neighbors placed; among those the one of highest degree, and among
those the one of lowest position.

Main statement: `mem_of_next?`, the next vertex is one still to be placed.
-/

namespace GraphDependency.Matching

/-- A vertex of the pattern with its neighbors placed before it, each with the
label of the connecting edge. -/
structure Step where
  vertex : Nat
  back : List (Nat × String)
  deriving DecidableEq, Repr, Inhabited

/-- The placed neighbor around whose image candidates are looked for. -/
def Step.pivot? (s : Step) : Option Nat := s.back.head?.map Prod.fst

/-- The edges from a vertex to placed vertices. -/
def placedIncident (pattern : Graph) (placed : List Nat) (u : Nat) : List (Nat × String) :=
  (pattern.incident u).filter fun p => placed.contains p.1

/-- The first vertex is preferred over the second one as the next to be placed. -/
def preferred (pattern : Graph) (placed : List Nat) (u w : Nat) : Bool :=
  let m := (placedIncident pattern placed u).length
  let n := (placedIncident pattern placed w).length
  n < m || (m == n && pattern.degree w < pattern.degree u)

/-- The next vertex to be placed. -/
def next? (pattern : Graph) (placed unplaced : List Nat) : Option Nat :=
  firstBest? (preferred pattern placed) unplaced

/-- The next vertex is one still to be placed. -/
theorem mem_of_next? {pattern : Graph} {placed unplaced : List Nat} {u : Nat}
    (h : next? pattern placed unplaced = some u) : u ∈ unplaced :=
  mem_of_firstBest? h

/-- The steps for the vertices still to be placed. -/
def continuePlan (pattern : Graph) (placed unplaced : List Nat) : List Step :=
  match h : next? pattern placed unplaced with
  | none => []
  | some u =>
    have : (unplaced.erase u).length < unplaced.length := by
      have hm := mem_of_next? h
      have := List.length_erase_of_mem hm
      have := List.length_pos_of_mem hm
      omega
    ⟨u, placedIncident pattern placed u⟩
      :: continuePlan pattern (u :: placed) (unplaced.erase u)
termination_by unplaced.length

/-- The plan from a root. -/
def plan (pattern : Graph) (root : Nat) : List Step :=
  ⟨root, []⟩ :: continuePlan pattern [root] (pattern.ids.erase root)

/-- The root if none is asked for: the first vertex of highest degree. -/
def defaultRoot? (pattern : Graph) : Option Nat :=
  firstBest? (fun u w => pattern.degree w < pattern.degree u) pattern.ids

end GraphDependency.Matching
