import GraphDependency.Pattern.Peeling

set_option autoImplicit false

/-!
# Core and forest of a pattern

Peeling off vertices with one remaining neighbor, one at a time, leaves the core
of a pattern: what lies on cycles or between them.  The vertices peeled off form
trees that hang off the core; the trees at one core vertex, together with that
vertex, are one entry of the forest.  A pattern with one edge less than vertices
is all core.

Besides the list of the core vertices a table is kept that marks them.

Main statement: `mem_core_lt`, the core consists of pattern vertices.
-/

namespace GraphDependency.Pattern

/-- The core vertices of a pattern and its forest. -/
structure Decomposition where
  /-- Core vertices, ascending. -/
  core : List Nat
  /-- For every core vertex with trees, that vertex and the vertices of its
  trees, ascending. -/
  forest : List (List Nat)
  /-- The marks of the core vertices. -/
  marks : Array Bool
  deriving DecidableEq, Repr, Inhabited

namespace Decomposition

/-- The vertex is marked as a core vertex. -/
def inCore (d : Decomposition) (u : Nat) : Bool := (d.marks[u]?).getD false

end Decomposition

/-- The number of vertices not met yet. -/
def unmet (g : Graph) (tree : List Nat) : Nat := (g.ids.filter fun w => !tree.contains w).length

theorem unmet_snoc {g : Graph} {tree : List Nat} {u : Nat} (hu : u < g.size) (hnew : u ∉ tree) :
    unmet g (tree ++ [u]) < unmet g tree := by
  have hmem : u ∈ g.ids.filter fun w => !tree.contains w := by simp [Graph.ids, hu, hnew]
  have heq : (g.ids.filter fun w => !(tree ++ [u]).contains w)
      = (g.ids.filter fun w => !tree.contains w).filter fun w => w != u := by
    rw [List.filter_filter]
    refine List.filter_congr fun w _ => ?_
    by_cases hw : w = u <;> simp [hw]
  rw [unmet, unmet, heq]
  exact List.length_filter_lt_length_iff_exists.mpr ⟨u, hmem, by simp⟩

/-- Goes on to the vertices peeled off next to those met, beginning with the top of the stack.
A vertex that was met before is passed over. -/
def collectTree {g : Graph} (s : Peeling g) (stack tree : List Nat) : List Nat :=
  match stack with
  | [] => tree
  | u :: stack =>
    if h : u < g.size ∧ u ∉ tree then
      have := unmet_snoc h.1 h.2
      let next := (g.neighbors u).filter fun w => s.isPeeled w && !(tree ++ [u]).contains w
      collectTree s (next.reverse ++ stack) (tree ++ [u])
    else collectTree s stack tree
termination_by (unmet g tree, stack.length)

/-- A core vertex with the vertices of the trees that hang off it, ascending. -/
def treesAt {g : Graph} (s : Peeling g) (attachment : Nat) : List Nat :=
  (collectTree s ((g.neighbors attachment).filter s.isPeeled).reverse [attachment]).mergeSort

/-- A table with marks for some vertices. -/
def marking (size : Nat) (us : List Nat) : Array Bool :=
  us.foldl (fun marks u => marks.setIfInBounds u true) (Array.replicate size false)

/-- The core of a pattern that is no tree. -/
def cyclicCore (g : Graph) : List Nat := (peeling g).left

/-- The core and the forest of a pattern. -/
def decompose (g : Graph) : Decomposition :=
  if g.size = g.edgeCount + 1 then ⟨g.ids, [], Array.replicate g.size true⟩
  else
    let core := cyclicCore g
    ⟨core, (core.map (treesAt (peeling g))).filter fun entry => 1 < entry.length,
      marking g.size core⟩

/-- The core consists of pattern vertices. -/
theorem mem_core_lt {g : Graph} {u : Nat} (h : u ∈ (decompose g).core) : u < g.size := by
  unfold decompose at h
  split at h
  · simpa [Graph.ids] using h
  · exact (Peeling.mem_left_iff.mp h).1

end GraphDependency.Pattern
