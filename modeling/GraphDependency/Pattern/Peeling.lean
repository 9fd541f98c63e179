import GraphDependency.Graph.Reach

set_option autoImplicit false

/-!
# Peeling off the vertices with one neighbor left

Vertices with one neighbor left are peeled off, one at a time.  Kept for every vertex are a
mark if it was peeled off and the number of its neighbors that are left.  That number is no
longer kept up to date once the vertex is peeled off.  A stack holds vertices that had one
neighbor left when they were put onto it; whether that is still so is checked again when
they are taken from it.

Main statements: `isPeeled_strip`, peeling a vertex off marks this vertex only, and
`length_left_strip`, it leaves fewer vertices.
-/

namespace GraphDependency.Pattern

/-- How far the peeling of a pattern has come. -/
structure Peeling (g : Graph) where
  /-- The vertices that were peeled off. -/
  marks : Vector Bool g.size
  /-- The number of neighbors left, for every vertex that is left itself. -/
  degrees : Vector Nat g.size
  deriving DecidableEq, Repr

namespace Peeling

variable {g : Graph}

/-- Nothing is peeled off. -/
def start (g : Graph) : Peeling g :=
  ⟨Vector.replicate g.size false, (Vector.range g.size).map g.degree⟩

/-- The vertex was peeled off. -/
def isPeeled (s : Peeling g) (u : Nat) : Bool := (s.marks.toArray[u]?).getD false

/-- The number of neighbors left. -/
def degree (s : Peeling g) (u : Nat) : Nat := (s.degrees.toArray[u]?).getD 0

/-- The vertices that are left, ascending. -/
def left (s : Peeling g) : List Nat := g.ids.filter fun u => !s.isPeeled u

/-- Marks a vertex. -/
def mark (s : Peeling g) (u : Nat) : Peeling g :=
  { s with marks := s.marks.setIfInBounds u true }

/-- Takes one from the number of neighbors left. -/
def lower (s : Peeling g) (w : Nat) : Peeling g :=
  { s with degrees := s.degrees.setIfInBounds w (s.degree w - 1) }

/-- A vertex that is left loses a neighbor, and is put onto the stack if it has one more. -/
def expose (r : Peeling g × List Nat) (w : Nat) : Peeling g × List Nat :=
  if r.1.isPeeled w then r
  else (r.1.lower w, if (r.1.lower w).degree w = 1 then w :: r.2 else r.2)

/-- Peels a vertex off: marks it and takes it from its neighbors. -/
def strip (s : Peeling g) (u : Nat) (stack : List Nat) : Peeling g × List Nat :=
  (g.neighbors u).foldl expose (s.mark u, stack)

@[simp] theorem isPeeled_lower (s : Peeling g) (w u : Nat) :
    (s.lower w).isPeeled u = s.isPeeled u := rfl

@[simp] theorem degree_mark (s : Peeling g) (u w : Nat) : (s.mark u).degree w = s.degree w := rfl

theorem isPeeled_mark (s : Peeling g) {u : Nat} (hu : u < g.size) (w : Nat) :
    (s.mark u).isPeeled w = (w == u || s.isPeeled w) := by
  by_cases hw : w = u
  · simp [isPeeled, mark, hw, hu]
  · simp [isPeeled, mark, hw, Ne.symm hw]

theorem degree_lower (s : Peeling g) {w : Nat} (hw : w < g.size) (u : Nat) :
    (s.lower w).degree u = if u = w then s.degree w - 1 else s.degree u := by
  by_cases hu : u = w
  · simp [degree, lower, hu, hw]
  · simp [degree, lower, hu, Ne.symm hu]

@[simp] theorem isPeeled_expose (r : Peeling g × List Nat) (w u : Nat) :
    (expose r w).1.isPeeled u = r.1.isPeeled u := by
  rw [expose]
  split <;> rfl

theorem isPeeled_foldl_expose (ws : List Nat) (r : Peeling g × List Nat) (u : Nat) :
    (ws.foldl expose r).1.isPeeled u = r.1.isPeeled u := by
  induction ws generalizing r with
  | nil => rfl
  | cons w ws ih => rw [List.foldl_cons, ih, isPeeled_expose]

/-- Peeling a vertex off marks this vertex only. -/
theorem isPeeled_strip (s : Peeling g) {u : Nat} (hu : u < g.size) (stack : List Nat) (w : Nat) :
    (s.strip u stack).1.isPeeled w = (w == u || s.isPeeled w) := by
  rw [strip, isPeeled_foldl_expose, s.isPeeled_mark hu]

/-- A vertex with one neighbor left is one of the pattern. -/
theorem lt_size_of_degree {s : Peeling g} {u : Nat} (h : s.degree u = 1) : u < g.size := by
  refine Nat.lt_of_not_le fun hle => ?_
  simp [degree, hle] at h

theorem mem_left_iff {s : Peeling g} {u : Nat} :
    u ∈ s.left ↔ u < g.size ∧ s.isPeeled u = false := by
  simp [left, Graph.ids]

theorem left_strip (s : Peeling g) {u : Nat} (hu : u < g.size) (stack : List Nat) :
    (s.strip u stack).1.left = s.left.filter fun w => w != u := by
  rw [left, left, List.filter_filter]
  refine List.filter_congr fun w _ => ?_
  rw [s.isPeeled_strip hu, Bool.not_or]
  rfl

/-- With every vertex that is peeled off fewer are left. -/
theorem length_left_strip {s : Peeling g} {u : Nat} (h : u ∈ s.left) (stack : List Nat) :
    (s.strip u stack).1.left.length < s.left.length := by
  rw [s.left_strip (mem_left_iff.mp h).1]
  exact List.length_filter_lt_length_iff_exists.mpr ⟨u, h, by simp⟩

/-- Peels off what can be, beginning with the top of the stack. -/
def run (s : Peeling g) (stack : List Nat) : Peeling g :=
  match stack with
  | [] => s
  | u :: stack =>
    if h : s.isPeeled u = false ∧ s.degree u = 1 then
      have hu := mem_left_iff.mpr ⟨lt_size_of_degree h.2, h.1⟩
      have := length_left_strip hu stack
      run (s.strip u stack).1 (s.strip u stack).2
    else run s stack
termination_by (s.left.length, stack.length)

end Peeling

/-- What is left of a pattern when all is peeled off that can be. -/
def peeling (g : Graph) : Peeling g :=
  (Peeling.start g).run (g.ids.filter fun u => (Peeling.start g).degree u == 1).reverse

end GraphDependency.Pattern
