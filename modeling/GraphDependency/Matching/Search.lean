import GraphDependency.Literal
import GraphDependency.Matching.Plan

set_option autoImplicit false

/-!
# Matching a pattern in a data graph

The search places the vertices of a plan one after the other, in depth first
order, and hands every complete embedding to a visitor, which may stop it.  An
embedding sends different pattern vertices to different data vertices, keeps
labels, and sends edges to edges.  A query may restrict it further.

Main statement: `mem_candidates_iff`, where a vertex may be placed.
-/

namespace GraphDependency.Matching

/-- What is looked for, and where. -/
structure Query where
  pattern : Graph
  data : Graph
  /-- Which data vertices a pattern vertex may go to, besides those of its label. -/
  vertexOk : Nat → Nat → Bool
  /-- Which data edge labels a pattern edge label may go to. -/
  edgeOk : String → String → Bool

namespace Query

/-- Every pair of vertices is accepted. -/
def anyVertex : Nat → Nat → Bool := fun _ _ => true

/-- One pattern vertex may only go to one data vertex. -/
def pinned (center candidate : Nat) : Nat → Nat → Bool :=
  fun u v => u != center || v == candidate

/-- Edge labels have to be equal. -/
def equalLabels : String → String → Bool := fun a b => a = b

/-- All embeddings of a pattern in a data graph. -/
def plain (pattern data : Graph) : Query := ⟨pattern, data, anyVertex, equalLabels⟩

end Query

/-- The pattern vertices placed so far with their images, the last one first. -/
abbrev Placement : Type := List (Nat × Nat)

namespace Placement

/-- The image of a pattern vertex, zero if it is not placed. -/
def image (p : Placement) (u : Nat) : Nat :=
  ((p.find? fun e => e.1 = u).map Prod.snd).getD 0

/-- A data vertex is the image of a placed vertex. -/
def uses (p : Placement) (v : Nat) : Bool := p.any fun e => e.2 = v

/-- The embedding of a pattern with `n` vertices. -/
def toEmbedding (n : Nat) (p : Placement) : Embedding := (Array.range n).map p.image

end Placement

section Candidates

variable (q : Query) (isUsed : Nat → Bool) (image : Nat → Nat) (s : Step)

/-- The data vertices that are tried, given the images of the placed vertices: the neighbors of
the pivot's image, or without a pivot all vertices of the label. -/
def poolFrom : List Nat :=
  match s.pivot? with
  | some w => q.data.neighbors (image w)
  | none => q.data.withLabel (q.pattern.label s.vertex)

/-- The data vertex is free, carries the label, has the degree, is accepted by
the query, and is joined to the images of all placed neighbors by edges that the
query accepts. -/
def fitsWith (v : Nat) : Bool :=
  !isUsed v
    && q.data.label v == q.pattern.label s.vertex
    && q.pattern.degree s.vertex ≤ q.data.degree v
    && q.vertexOk s.vertex v
    && s.back.all fun e =>
      match q.data.edgeLabel? v (image e.1) with
      | some label => q.edgeOk e.2 label
      | none => false

/-- Where the vertex of a step can be placed, given what is in use and the images of the placed
vertices. -/
def candidatesWith : List Nat := (poolFrom q image s).filter (fitsWith q isUsed image s)

end Candidates

/-- The data vertices that are tried after a placement. -/
def pool (q : Query) (p : Placement) (s : Step) : List Nat := poolFrom q p.image s

/-- A data vertex is right for a step after a placement. -/
def fits (q : Query) (p : Placement) (s : Step) (v : Nat) : Bool := fitsWith q p.uses p.image s v

/-- Where the vertex of a step can be placed. -/
def candidates (q : Query) (p : Placement) (s : Step) : List Nat :=
  candidatesWith q p.uses p.image s

theorem mem_candidates_iff {q : Query} {p : Placement} {s : Step} {v : Nat} :
    v ∈ candidates q p s ↔ v ∈ pool q p s ∧ fits q p s v = true :=
  List.mem_filter

/-- Visits every way to place the vertices of the remaining steps. -/
def search {σ : Type} (q : Query) (visit : σ → Embedding → ForInStep σ) :
    List Step → Placement → σ → ForInStep σ
  | [], p, state => visit state (p.toEmbedding q.pattern.size)
  | s :: rest, p, state =>
    visitAll (fun state v => search q visit rest ((s.vertex, v) :: p) state) state
      (candidates q p s)

/-- How a run ended. -/
structure Run (σ : Type) where
  /-- What the visitor left. -/
  state : σ
  /-- The number of embeddings visited. -/
  embeddings : Nat
  /-- The visitor stopped the run. -/
  stopped : Bool
  deriving DecidableEq, Repr, Inhabited

/-- Counts the embeddings that a visitor sees. -/
def counting {σ : Type} (visit : σ → Embedding → ForInStep σ) (state : σ × Nat)
    (embedding : Embedding) : ForInStep (σ × Nat) :=
  match visit state.1 embedding with
  | .done s => .done (s, state.2 + 1)
  | .yield s => .yield (s, state.2 + 1)

/-- Visits all embeddings, beginning with the given root of the pattern.  The
empty pattern has none. -/
def forEachEmbedding {σ : Type} (q : Query) (root? : Option Nat)
    (visit : σ → Embedding → ForInStep σ) (state : σ) : Run σ :=
  match root?.or (defaultRoot? q.pattern) with
  | none => ⟨state, 0, false⟩
  | some root =>
    if q.pattern.size ≤ root ∨ q.data.size < q.pattern.size then ⟨state, 0, false⟩
    else
      match search q (counting visit) (plan q.pattern root) [] (state, 0) with
      | .done (state, count) => ⟨state, count, true⟩
      | .yield (state, count) => ⟨state, count, false⟩

end GraphDependency.Matching
