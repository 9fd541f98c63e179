import GraphDependency.Matching.Plan

set_option autoImplicit false

/-!
# Planning with running counts

A plan can be made without going back to the vertices that are placed.  Kept for every
vertex are a mark if it is placed and the number of its neighbors that are.  Placing a
vertex adds one at each of its neighbors, and the next vertex is the one with the highest
count among those without a mark.

Main statements: `isPlaced_place` and `unplaced_place`, what placing a vertex does to the
marks, and `length_unplaced_place`, every vertex that is placed leaves fewer to be placed.
-/

namespace GraphDependency.Matching

/-- How far the making of a plan has come. -/
structure Planning (pattern : Graph) where
  /-- The vertices that are placed. -/
  marks : Vector Bool pattern.size
  /-- The number of neighbors of each vertex that are placed. -/
  counts : Vector Nat pattern.size
  deriving DecidableEq, Repr

namespace Planning

variable {pattern : Graph}

/-- Nothing is placed. -/
def start (pattern : Graph) : Planning pattern :=
  ⟨Vector.replicate pattern.size false, Vector.replicate pattern.size 0⟩

/-- The vertex is placed. -/
def isPlaced (s : Planning pattern) (u : Nat) : Bool := (s.marks[u]?).getD false

/-- The number of neighbors of a vertex that are placed. -/
def count (s : Planning pattern) (u : Nat) : Nat := (s.counts[u]?).getD 0

/-- The vertices that are not placed, ascending. -/
def unplaced (s : Planning pattern) : List Nat := pattern.ids.filter fun w => !s.isPlaced w

/-- Adds one to the count of a vertex. -/
def raise (s : Planning pattern) (w : Nat) : Planning pattern :=
  { s with counts := s.counts.setIfInBounds w (s.count w + 1) }

/-- Marks a vertex. -/
def mark (s : Planning pattern) (u : Nat) : Planning pattern :=
  { s with marks := s.marks.setIfInBounds u true }

/-- Places a vertex: marks it and counts it at its neighbors. -/
def place (s : Planning pattern) (u : Nat) : Planning pattern :=
  (pattern.neighbors u).foldl raise (s.mark u)

/-- The step that places a vertex, with the edges from it to placed vertices. -/
def stepAt (s : Planning pattern) (u : Nat) : Step :=
  ⟨u, (pattern.incident u).filter fun e => s.isPlaced e.1⟩

/-- The first vertex is preferred over the second one: it has the higher count, or the same one
and the higher degree, or both the same and the lower position. -/
def preferred (s : Planning pattern) (u w : Nat) : Bool :=
  s.count w < s.count u
    || (s.count u == s.count w
      && (pattern.degree w < pattern.degree u
        || (pattern.degree u == pattern.degree w && u < w)))

/-- The next vertex to be placed. -/
def next? (s : Planning pattern) : Option Nat := firstBest? s.preferred s.unplaced

@[simp] theorem isPlaced_raise (s : Planning pattern) (w u : Nat) :
    (s.raise w).isPlaced u = s.isPlaced u := rfl

@[simp] theorem count_mark (s : Planning pattern) (u w : Nat) :
    (s.mark u).count w = s.count w := rfl

theorem isPlaced_foldl_raise (ws : List Nat) (s : Planning pattern) (u : Nat) :
    (ws.foldl raise s).isPlaced u = s.isPlaced u := by
  induction ws generalizing s with
  | nil => rfl
  | cons w ws ih => rw [List.foldl_cons, ih, isPlaced_raise]

/-- Placing a vertex marks this vertex only. -/
theorem isPlaced_place (s : Planning pattern) {u : Nat} (hu : u < pattern.size) (w : Nat) :
    (s.place u).isPlaced w = (w == u || s.isPlaced w) := by
  rw [place, isPlaced_foldl_raise]
  by_cases hw : w = u
  · simp [isPlaced, mark, hw, hu]
  · simp [isPlaced, mark, hw, Ne.symm hw]

theorem mem_unplaced_iff {s : Planning pattern} {u : Nat} :
    u ∈ s.unplaced ↔ u < pattern.size ∧ s.isPlaced u = false := by
  simp [unplaced, Graph.ids]

/-- A vertex that is placed is no longer to be placed. -/
theorem unplaced_place (s : Planning pattern) {u : Nat} (hu : u < pattern.size) :
    (s.place u).unplaced = s.unplaced.filter fun w => w != u := by
  rw [unplaced, unplaced, List.filter_filter]
  refine List.filter_congr fun w _ => ?_
  rw [s.isPlaced_place hu, Bool.not_or]
  rfl

/-- Every vertex that is placed leaves fewer to be placed. -/
theorem length_unplaced_place {s : Planning pattern} {u : Nat} (h : u ∈ s.unplaced) :
    (s.place u).unplaced.length < s.unplaced.length := by
  rw [s.unplaced_place (mem_unplaced_iff.mp h).1]
  exact List.length_filter_lt_length_iff_exists.mpr ⟨u, h, by simp⟩

/-- The steps for the vertices that are not placed. -/
def steps (s : Planning pattern) : List Step :=
  match h : s.next? with
  | none => []
  | some u =>
    have := length_unplaced_place (mem_of_firstBest? h)
    s.stepAt u :: steps (s.place u)
termination_by s.unplaced.length

end Planning

/-- The plan from a root, made with running counts. -/
def countedPlan (pattern : Graph) (root : Nat) : List Step :=
  let s := Planning.start pattern
  s.stepAt root :: (s.place root).steps

end GraphDependency.Matching
