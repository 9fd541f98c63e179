import GraphDependency.Graph
import GraphDependency.Selection

set_option autoImplicit false

/-!
# Local filters

Conditions on a data vertex that can be read off its surroundings and without
which it cannot be the image of a pattern vertex; and the choice of the pattern
vertex from which an index is built.

Main statements: `mem_of_selectRoot?`, the root is one of the vertices offered,
and `selectRoot?_isSome`, if there are any, one is chosen.
-/

namespace GraphDependency.Candidate

/-- The highest degree among the neighbors, zero without neighbors. -/
def maxNeighborDegree (g : Graph) (v : Nat) : Nat :=
  (g.neighbors v).foldl (fun best w => max best (g.degree w)) 0

/-- The number of neighbors with a label. -/
def neighborCount (g : Graph) (v : Nat) (label : String) : Nat :=
  (g.neighbors v).countP fun w => g.label w = label

/-- The labels of the neighbors, ascending, each with the number of neighbors
that carry it. -/
def neighborLabels (g : Graph) (v : Nat) : List (String × Nat) :=
  (Graph.sortDistinct ((g.neighbors v).map g.label)).map fun label =>
    (label, neighborCount g v label)

/-- The data vertex `v` has the label of the pattern vertex `u`, a neighbor of
at least the degree of each neighbor of `u`, and at least as many neighbors of
every label. -/
def verify (data : Graph) (v : Nat) (pattern : Graph) (u : Nat) : Bool :=
  data.label v == pattern.label u
    && maxNeighborDegree pattern u ≤ maxNeighborDegree data v
    && (neighborLabels pattern u).all fun e => e.2 ≤ neighborCount data v e.1

/-- The data vertex `v` has the label of the pattern vertex `u` and at least its
degree. -/
def labelDegreeOk (data : Graph) (v : Nat) (pattern : Graph) (u : Nat) : Bool :=
  data.label v == pattern.label u && pattern.degree u ≤ data.degree v

/-- A number of candidates for `u` per edge at `u`. -/
def ratio (pattern : Graph) (u count : Nat) : Float :=
  Float.ofNat count / Float.ofNat (max (pattern.degree u) 1)

/-- Sorts vertices by the ratio of a number of candidates; equal ratios keep
their order. -/
def rank (pattern : Graph) (count : Nat → Nat) (us : List Nat) : List Nat :=
  ((us.map fun u => (u, ratio pattern u (count u))).mergeSort fun a b => a.2 ≤ b.2).map Prod.fst

/-- The number of data vertices with the label and the degree of `u`. -/
def degreeCount (pattern data : Graph) (u : Nat) : Nat :=
  (data.withLabel (pattern.label u)).countP fun v => pattern.degree u ≤ data.degree v

/-- The number of data vertices that pass `verify` for `u`. -/
def verifiedCount (pattern data : Graph) (u : Nat) : Nat :=
  (data.withLabel (pattern.label u)).countP fun v => verify data v pattern u

/-- Chooses the vertex with the fewest candidates per edge: three are chosen by
label and degree, and one of them by the full conditions.  There has to be a
choice, and only vertices of the pattern may be offered. -/
def selectRoot? (pattern data : Graph) (core : List Nat) : Option Nat :=
  if core.all fun u => u < pattern.size then
    (rank pattern (verifiedCount pattern data)
      ((rank pattern (degreeCount pattern data) core).take 3)).head?
  else none

theorem mem_of_mem_rank {pattern : Graph} {count : Nat → Nat} {us : List Nat} {u : Nat}
    (h : u ∈ rank pattern count us) : u ∈ us := by
  obtain ⟨e, he, rfl⟩ := List.mem_map.mp h
  rw [List.mem_mergeSort] at he
  obtain ⟨u, hu, rfl⟩ := List.mem_map.mp he
  exact hu

/-- The root is one of the vertices offered. -/
theorem mem_of_selectRoot? {pattern data : Graph} {core : List Nat} {u : Nat}
    (h : selectRoot? pattern data core = some u) : u ∈ core ∧ u < pattern.size := by
  unfold selectRoot? at h
  split at h
  · rename_i hall
    have hm := mem_of_mem_rank (List.mem_of_mem_take (mem_of_mem_rank (List.mem_of_head? h)))
    exact ⟨hm, by simpa using List.all_eq_true.mp hall u hm⟩
  · simp at h

theorem length_rank (pattern : Graph) (count : Nat → Nat) (us : List Nat) :
    (rank pattern count us).length = us.length := by
  simp [rank, List.length_mergeSort]

/-- If vertices of the pattern are offered, one is chosen. -/
theorem selectRoot?_isSome {pattern data : Graph} {core : List Nat} (h : core ≠ [])
    (hlt : ∀ u ∈ core, u < pattern.size) : (selectRoot? pattern data core).isSome = true := by
  have hall : (core.all fun u => decide (u < pattern.size)) = true := by simpa using hlt
  have hlen : 0 < core.length := List.length_pos_iff.mpr h
  rw [selectRoot?, if_pos hall, List.isSome_head?]
  rw [← List.length_pos_iff, length_rank, List.length_take, length_rank]
  omega

end GraphDependency.Candidate
