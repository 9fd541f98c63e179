import GraphDependency.Graph.Reach
import GraphDependency.Selection

set_option autoImplicit false

/-!
# Centers and balls

The center of a pattern is a vertex from which no vertex is far away.  All
vertices of an embedding lie in the ball of the pattern's radius around the image
of the center; the size of that ball is how heavy the search around it is taken
to be.

Main statement: `center?_eq_none_iff`, only the empty pattern has no center.
-/

namespace GraphDependency.Validation

/-- The first vertex of the least eccentricity, with its eccentricity. -/
def center? (pattern : Graph) : Option (Nat × Nat) :=
  (firstBest? (fun a b => a.2 < b.2)
    (pattern.ids.map fun u => (u, pattern.eccentricity u)))

/-- Only the empty pattern has no center. -/
theorem center?_eq_none_iff {pattern : Graph} : center? pattern = none ↔ pattern.size = 0 := by
  simp [center?, firstBest?_eq_none_iff, Graph.ids]

/-- The edges between the vertices of a list, each as its ends in ascending order. -/
def innerEdges (g : Graph) (vs : List Nat) : List (Nat × Nat) :=
  vs.flatMap fun v =>
    ((g.neighbors v).filter fun w => v < w && vs.contains w).map fun w => (v, w)

/-- The number of vertices within a radius and of edges between them. -/
def ballWeight (g : Graph) (radius candidate : Nat) : Nat :=
  let ball := g.ball radius candidate
  ball.length + (innerEdges g ball).length

end GraphDependency.Validation
