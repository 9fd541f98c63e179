import GraphDependency.Candidate.Order
import GraphDependency.Matching.Search

set_option autoImplicit false

/-!
# Enumeration along a matching order

A course lists, for the vertices of a pattern in matching order, where their
candidates come from and what they have to satisfy: the candidates of the root,
or those linked to the image of the parent; and an edge with the right label to
the image of every other neighbor before it.

Main statement: `mem_choices_iff`, where a vertex may go.
-/

namespace GraphDependency.Candidate

open GraphDependency.Pattern GraphDependency.Matching

/-- A pattern vertex on a course. -/
structure Stop where
  vertex : Nat
  /-- The vertex to whose image the candidates are linked. -/
  parent? : Option Nat
  /-- The neighbors before this vertex, apart from its parent, with edge labels. -/
  checks : List (Nat × String)
  deriving DecidableEq, Repr, Inhabited

/-- The stops of a sequence of vertices, behind the ones before. -/
def stopsAfter (t : Tree) (before : List Nat) : List Nat → List Stop
  | [] => []
  | u :: rest =>
    let others := before.filter fun w => t.parent? u != some w
    ⟨u, t.parent? u,
        others.filterMap fun w => (t.pattern.edgeLabel? w u).map fun label => (w, label)⟩
      :: stopsAfter t (before ++ [u]) rest

/-- The stops of a matching order. -/
def stops (t : Tree) (order : Order) : List Stop := stopsAfter t [] order.sequence

/-- The data vertices from which an image is chosen, ascending. -/
def Stop.source (s : Stop) (i : Index) (image : Nat → Nat) : List Nat :=
  match s.parent? with
  | none => i.candidates s.vertex
  | some p => i.linked s.vertex (image p)

/-- The data vertex is joined to the images of the other neighbors before. -/
def Stop.accepts (s : Stop) (data : Graph) (image : Nat → Nat) (v : Nat) : Bool :=
  s.checks.all fun e => data.edgeLabel? (image e.1) v == some e.2

/-- Where the vertex of a stop can go. -/
def choices (data : Graph) (i : Index) (p : Placement) (s : Stop) : List Nat :=
  (s.source i p.image).filter fun v => !p.uses v && s.accepts data p.image v

theorem mem_choices_iff {data : Graph} {i : Index} {p : Placement} {s : Stop} {v : Nat} :
    v ∈ choices data i p s
      ↔ v ∈ s.source i p.image ∧ p.uses v = false ∧ s.accepts data p.image v = true := by
  simp [choices]

end GraphDependency.Candidate
