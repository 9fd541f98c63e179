import GraphDependency.Graph

set_option autoImplicit false

/-!
# Reachability

Breadth-first layers: the vertices at distance zero, one, two, … from a set of
vertices, along the edges of a graph.  Distance, connectivity and balls are read
off them.

Main statements: `mem_step_iff`, what one layer adds, and `length_layers_le`, a
search to depth `d` has at most `d + 1` layers.
-/

namespace GraphDependency.Graph

/-- The vertices among `unseen` that are adjacent to a vertex of the frontier. -/
def step (g : Graph) (frontier unseen : List Nat) : List Nat :=
  unseen.filter fun w => (g.neighbors w).any frontier.contains

/-- The layers beyond a frontier, drawn from the vertices not seen so far, up to
a depth. -/
def spread (g : Graph) : Nat → List Nat → List Nat → List (List Nat)
  | 0, _, _ => []
  | depth + 1, frontier, unseen =>
    let next := g.step frontier unseen
    if next.isEmpty then []
    else next :: spread g depth next (unseen.filter fun w => !next.contains w)

/-- The layers around a vertex up to a depth; each is ascending. -/
def layersWithin (g : Graph) (depth start : Nat) : List (List Nat) :=
  [start] :: g.spread depth [start] (g.ids.filter fun w => w != start)

/-- The layers around a vertex.  No vertex is further away than the number of
vertices. -/
def layers (g : Graph) (start : Nat) : List (List Nat) := g.layersWithin g.size start

/-- The vertices within a number of hops. -/
def ball (g : Graph) (radius center : Nat) : List Nat := (g.layersWithin radius center).flatten

/-- The vertices that can be reached. -/
def reachable (g : Graph) (start : Nat) : List Nat := (g.layers start).flatten

/-- The distance of the furthest vertex that can be reached. -/
def eccentricity (g : Graph) (start : Nat) : Nat := (g.layers start).length - 1

/-- Every vertex can be reached from every other one. -/
def isConnected (g : Graph) : Bool :=
  g.isEmpty || (g.reachable 0).length == g.size

/-- What one layer adds. -/
theorem mem_step_iff {g : Graph} {frontier unseen : List Nat} {w : Nat} :
    w ∈ g.step frontier unseen ↔ w ∈ unseen ∧ ∃ u ∈ frontier, u ∈ g.neighbors w := by
  simp only [step, List.mem_filter, List.any_eq_true, List.contains_iff_mem]
  constructor
  · rintro ⟨h, u, hn, hf⟩; exact ⟨h, u, hf, hn⟩
  · rintro ⟨h, u, hf, hn⟩; exact ⟨h, u, hn, hf⟩

theorem length_spread_le (g : Graph) (depth : Nat) (frontier unseen : List Nat) :
    (g.spread depth frontier unseen).length ≤ depth := by
  induction depth generalizing frontier unseen with
  | zero => simp [spread]
  | succ depth ih =>
    simp only [spread]
    split
    · simp
    · simpa using ih _ _

/-- A search to depth `d` has at most `d + 1` layers. -/
theorem length_layers_le (g : Graph) (depth start : Nat) :
    (g.layersWithin depth start).length ≤ depth + 1 := by
  simpa [layersWithin] using g.length_spread_le depth [start] _

end GraphDependency.Graph
