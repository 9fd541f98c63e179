import GraphDependency.Graph.Reach

set_option autoImplicit false

/-!
# Breadth-first trees

A breadth-first tree of a pattern is given by its root.  Its levels are the
layers around the root; the parent of a vertex is its lowest neighbor one level
up.  Edges that join no vertex to its parent are left out of the tree.

Main statement: `parentIn?_mem`, a parent is a neighbor one level up.
-/

namespace GraphDependency.Pattern

/-- A breadth-first tree. -/
structure Tree where
  pattern : Graph
  root : Nat
  /-- The vertices by distance from the root, each level ascending. -/
  levels : List (List Nat)
  /-- The parent of each vertex. -/
  parents : Array (Option Nat)
  deriving DecidableEq, Repr

namespace Tree

/-- The level of a vertex, zero for one that is not reached. -/
def levelIn (levels : List (List Nat)) (u : Nat) : Nat :=
  (levels.findIdx? fun level => level.contains u).getD 0

/-- The lowest neighbor one level up, if the vertex is reached and not the root. -/
def parentIn? (g : Graph) (levels : List (List Nat)) (u : Nat) : Option Nat :=
  match levels.findIdx? fun level => level.contains u with
  | some (depth + 1) => (levels.getD depth []).find? fun p => (g.neighbors u).contains p
  | _ => none

/-- The breadth-first tree of a pattern from a vertex, if there is such a vertex. -/
def build? (g : Graph) (root : Nat) : Option Tree :=
  if root < g.size then
    let levels := g.layers root
    some ⟨g, root, levels, Array.ofFn (n := g.size) fun u => parentIn? g levels u.val⟩
  else none

/-- The parent of a vertex, if it has one. -/
def parent? (t : Tree) (u : Nat) : Option Nat := (t.parents[u]?).join

/-- The level of a vertex, zero for one that is not reached. -/
def level (t : Tree) (u : Nat) : Nat := levelIn t.levels u

/-- The vertices with the given parent, ascending. -/
def children (t : Tree) (u : Nat) : List Nat :=
  t.pattern.ids.filter fun w => t.parent? w = some u

/-- Two vertices are parent and child. -/
def isTreeEdge (t : Tree) (a b : Nat) : Bool :=
  t.parent? a == some b || t.parent? b == some a

/-- The edges left out of the tree, in the order and orientation of the pattern. -/
def nonTreeEdges (t : Tree) : List (Nat × Nat) :=
  (t.pattern.edges.toList.map fun e => (e.first, e.second)).filter fun e =>
    !t.isTreeEdge e.1 e.2

/-- The vertices are joined by an edge within a level. -/
def isSameLevelEdge (t : Tree) (a b : Nat) : Bool :=
  t.level a == t.level b && t.pattern.adjacent a b && !t.isTreeEdge a b

/-- The number of edges left out of the tree that touch a path. -/
def nonTreeCount (t : Tree) (path : List Nat) : Nat :=
  t.nonTreeEdges.countP fun e => path.contains e.1 || path.contains e.2

/-- A parent is a neighbor one level up. -/
theorem parentIn?_mem {g : Graph} {levels : List (List Nat)} {u p : Nat}
    (h : parentIn? g levels u = some p) :
    p ∈ g.neighbors u
      ∧ ∃ depth, levels.findIdx? (fun level => level.contains u) = some (depth + 1)
      ∧ p ∈ levels.getD depth [] := by
  unfold parentIn? at h
  split at h
  · rename_i depth hd
    have hp := List.find?_some h
    exact ⟨by simpa using hp, depth, hd, List.mem_of_find?_eq_some h⟩
  · simp at h

end Tree

end GraphDependency.Pattern
