import GraphDependency.Pattern.Tree

set_option autoImplicit false

/-!
# Discovering a breadth-first tree

A breadth-first tree is found level by level.  The vertices of a level are scanned in
ascending order, each with its neighbors in any order; a neighbor that was not seen before
becomes a child of the vertex that is scanned, and belongs to the next level.  The search
ends with a level that leads to nothing new.  On the way the tables of a tree are filled:
the parent, the level and the children of every vertex.

Main statement: `length_round`, a round sees as many vertices as it finds; so the search
ends.
-/

namespace GraphDependency.Pattern

/-- How far a search has come. -/
structure Discovery where
  /-- The vertices not seen so far. -/
  unseen : List Nat
  /-- The vertices of the next level, in the order in which they were seen. -/
  found : List Nat
  /-- The parent of each vertex that has one. -/
  parents : Array (Option Nat)
  /-- The level of each vertex, zero where it is not known. -/
  levelOf : Array Nat
  /-- The children of each vertex, in the order in which they were seen. -/
  children : Array (List Nat)
  deriving DecidableEq, Repr

namespace Discovery

/-- Before the search only the root is seen. -/
def start (g : Graph) (root : Nat) : Discovery where
  unseen := g.ids.filter fun w => w != root
  found := []
  parents := Array.replicate g.size none
  levelOf := Array.replicate g.size 0
  children := Array.replicate g.size []

/-- Comes from `u` to a neighbor, whose level is `depth` if it was not seen before. -/
def meet (depth u : Nat) (s : Discovery) (w : Nat) : Discovery :=
  if s.unseen.contains w then
    { unseen := s.unseen.erase w
      found := s.found ++ [w]
      parents := s.parents.setIfInBounds w (some u)
      levelOf := s.levelOf.setIfInBounds w depth
      children := s.children.modify u fun list => list ++ [w] }
  else s

/-- Scans the neighbors of a vertex. -/
def scan (listing : Nat → List Nat) (depth : Nat) (s : Discovery) (u : Nat) : Discovery :=
  (listing u).foldl (meet depth u) s

/-- Scans a level. -/
def round (listing : Nat → List Nat) (depth : Nat) (level : List Nat) (s : Discovery) :
    Discovery :=
  level.foldl (scan listing depth) { s with found := [] }

theorem length_meet (depth u : Nat) (s : Discovery) (w : Nat) :
    (s.meet depth u w).unseen.length + (s.meet depth u w).found.length
      = s.unseen.length + s.found.length := by
  unfold meet
  split
  · rename_i hw
    have hmem : w ∈ s.unseen := List.contains_iff_mem.mp hw
    have hpos := List.length_pos_of_mem hmem
    simp only [List.length_append, List.length_singleton, List.length_erase_of_mem hmem]
    omega
  · rfl

/-- What a round finds was unseen before. -/
theorem length_round (listing : Nat → List Nat) (depth : Nat) (level : List Nat)
    (s : Discovery) :
    (round listing depth level s).unseen.length + (round listing depth level s).found.length
      = s.unseen.length := by
  have hscan : ∀ (ws : List Nat) (u : Nat) (s : Discovery),
      (ws.foldl (meet depth u) s).unseen.length + (ws.foldl (meet depth u) s).found.length
        = s.unseen.length + s.found.length := by
    intro ws u
    induction ws with
    | nil => exact fun _ => rfl
    | cons w ws ih => exact fun s => (ih _).trans (length_meet depth u s w)
  have hlevel : ∀ (level : List Nat) (s : Discovery),
      (level.foldl (scan listing depth) s).unseen.length
          + (level.foldl (scan listing depth) s).found.length
        = s.unseen.length + s.found.length := by
    intro level
    induction level with
    | nil => exact fun _ => rfl
    | cons u level ih => exact fun s => (ih _).trans (hscan (listing u) u s)
  exact hlevel level _

/-- The levels from a given one on, and what is known in the end. -/
def levelsFrom (listing : Nat → List Nat) (depth : Nat) (level : List Nat) (s : Discovery) :
    List (List Nat) × Discovery :=
  let s' := round listing depth level s
  if h : s'.found = [] then ([level], s')
  else
    have : s'.unseen.length < s.unseen.length := by
      have hlength : s'.unseen.length + s'.found.length = s.unseen.length :=
        length_round listing depth level s
      have hpos : 0 < s'.found.length := List.length_pos_iff.mpr h
      omega
    let (levels, last) := levelsFrom listing (depth + 1) s'.found.mergeSort s'
    (level :: levels, last)
termination_by s.unseen.length

end Discovery

/-- A breadth-first tree with tables of all that it is asked for. -/
structure TreeTables where
  root : Nat
  levels : List (List Nat)
  parents : Array (Option Nat)
  levelOf : Array Nat
  children : Array (List Nat)
  nonTree : List (Nat × Nat)
  deriving DecidableEq, Repr

/-- Searches a pattern from a root, with the neighbors of every vertex in the order of a
listing. -/
def discover (g : Graph) (listing : Nat → List Nat) (root : Nat) : TreeTables :=
  let (levels, s) := Discovery.levelsFrom listing 1 [root] (.start g root)
  let parent? (u : Nat) : Option Nat := (s.parents[u]?).join
  { root
    levels
    parents := s.parents
    levelOf := s.levelOf
    children := s.children.map fun list => list.mergeSort
    nonTree := (g.edges.toList.filter fun e =>
        parent? e.first != some e.second && parent? e.second != some e.first).map
      fun e => (e.first, e.second) }

end GraphDependency.Pattern
