import GraphDependency.Proofs.Workload.Growth
import Mathlib.Tactic.Linarith

set_option autoImplicit false

/-!
# The data graph of a workload

There is a data graph if there are names for all vertices that were asked for, and for all
edges that the choices make.  How many edges that is depends on the choices; up to a number of
vertices there are names even for an edge between any two of them.

Main statements: `foldlM_drawEdge` (what refusing edges does to the edges), `exists_drawGraph`
and `drawGraph_refused`.
-/

namespace GraphDependency.Workload

open GraphDependency.Graph GraphDependency.Random

variable {σ : Type} (source : Source σ) (p : Parameters)

/-! ## Vertices -/

/-- So many vertices were appended, or it was refused to append one of them. -/
def Appended (count : Nat) (drawn : Option (Array Vertex)) : Prop :=
  if count ≤ Capacity.indices then ∃ vertices, drawn = some vertices ∧ vertices.size = count
  else drawn = none

theorem always_appendVertex_of_appended {count : Nat} {drawn : Option (Array Vertex)}
    (h : Appended count drawn) (i : Nat) :
    Always (appendVertex source p drawn i) (Appended (count + 1)) := by
  unfold Appended at h ⊢
  split at h
  · obtain ⟨vertices, rfl, hsize⟩ := h
    refine (Always.trivial _).bind fun vertex _ => Always.of_pure ?_
    split
    · exact ⟨_, Capacity.push?_of_lt (by omega) vertex, by rw [Array.size_push, hsize]⟩
    · exact Capacity.push?_of_le (by omega) vertex
  · subst h
    refine Always.of_pure ?_
    rw [if_neg (by omega)]

theorem always_drawVertices : Always (drawVertices source p) (Appended p.vertices) := by
  have hall := Always.foldlM (fun done drawn => Appended done.length drawn)
    (show Appended 0 (some #[]) from ⟨#[], rfl, rfl⟩)
    (fun done i drawn h => by
      rw [List.length_append]
      exact always_appendVertex_of_appended source p h i) (List.range p.vertices)
  rwa [List.length_range] at hall

/-! ## Edges -/

/-- Joins a pair of vertices, or does not, whether there is a name for the edge or not. -/
def joinPair (edges : Array Edge) (pair : Nat × Nat) : StateM σ (Array Edge) := do
  match ← drawLabel? source p with
  | some label => return edges.push ⟨pair.1, pair.2, label⟩
  | none => return edges

/-- The edges that the choices make. -/
def joined : StateM σ (Array Edge) := do
  let _ ← drawVertices source p
  (pairsBelow p.vertices).foldlM (joinPair source p) #[]

/-- The number of edges that the choices make, from a state of the source. -/
def edgeDemand (s : σ) : Nat := (joined source p s).1.size

variable {edges : Array Edge} {pair : Nat × Nat}

/-- A pair of vertices is joined or passed over. -/
theorem always_joinPair {done : List (Nat × Nat)}
    (h : (edges.toList.map ends).Sublist done) (pair : Nat × Nat) :
    Always (joinPair source p edges pair) fun edges =>
      (edges.toList.map ends).Sublist (done ++ [pair]) := by
  refine (Always.trivial _).bind fun label? _ => ?_
  cases label? with
  | some label =>
    refine Always.of_pure ?_
    rw [Array.toList_push, List.map_append]
    exact h.append (List.Sublist.refl [pair])
  | none => exact Always.of_pure (h.trans (List.sublist_append_left _ _))

/-- The choices join different pairs. -/
theorem always_joined :
    Always (joined source p) fun edges =>
      (edges.toList.map ends).Sublist (pairsBelow p.vertices) := by
  refine (Always.trivial (drawVertices source p)).bind fun _ _ => ?_
  have hstart : ((#[] : Array Edge).toList.map ends).Sublist [] := List.nil_sublist []
  exact Always.foldlM (fun done (edges : Array Edge) => (edges.toList.map ends).Sublist done)
    hstart (fun _ pair _ h => always_joinPair source p h pair) _

theorem size_le_joinPair (s : σ) : edges.size ≤ (joinPair source p edges pair s).1.size := by
  have h : Always (joinPair source p edges pair) fun more => edges.size ≤ more.size := by
    refine (Always.trivial _).bind fun label? _ => ?_
    cases label? with
    | some label => exact Always.of_pure (by rw [Array.size_push]; exact Nat.le_succ _)
    | none => exact Always.of_pure (Nat.le_refl _)
  exact h s

theorem size_le_foldlM_joinPair (pairs : List (Nat × Nat)) (s : σ) :
    edges.size ≤ (pairs.foldlM (joinPair source p) edges s).1.size := by
  induction pairs generalizing edges s with
  | nil => exact Nat.le_refl _
  | cons pair pairs ih =>
    rw [List.foldlM_cons]
    exact (size_le_joinPair source p s).trans (ih _)

theorem drawEdge_eq (s : σ) :
    drawEdge source p (some edges) pair s
      = ((drawLabel? source p s).1.elim (some edges) fun label =>
          Capacity.push? edges ⟨pair.1, pair.2, label⟩, (drawLabel? source p s).2) := by
  change (match (drawLabel? source p s).1 with
    | some label => pure (Capacity.push? edges ⟨pair.1, pair.2, label⟩)
    | none => pure (some edges) : StateM σ (Option (Array Edge))) (drawLabel? source p s).2 = _
  cases (drawLabel? source p s).1 <;> rfl

theorem joinPair_eq (s : σ) :
    joinPair source p edges pair s
      = ((drawLabel? source p s).1.elim edges fun label => edges.push ⟨pair.1, pair.2, label⟩,
          (drawLabel? source p s).2) := by
  change (match (drawLabel? source p s).1 with
    | some label => pure (edges.push ⟨pair.1, pair.2, label⟩)
    | none => pure edges : StateM σ (Array Edge)) (drawLabel? source p s).2 = _
  cases (drawLabel? source p s).1 <;> rfl

/-- An edge is refused if there is no name for it. -/
theorem drawEdge_some (hle : edges.size ≤ Capacity.indices) (s : σ) :
    drawEdge source p (some edges) pair s
      = (if (joinPair source p edges pair s).1.size ≤ Capacity.indices then
          some (joinPair source p edges pair s).1 else none,
        (joinPair source p edges pair s).2) := by
  rw [drawEdge_eq, joinPair_eq]
  cases (drawLabel? source p s).1 with
  | none => rw [Option.elim_none, Option.elim_none, if_pos hle]
  | some label =>
    rw [Option.elim_some, Option.elim_some, Array.size_push]
    by_cases hlt : edges.size < Capacity.indices
    · rw [Capacity.push?_of_lt hlt, if_pos (Nat.succ_le_of_lt hlt)]
    · rw [Capacity.push?_of_le (Nat.le_of_not_lt hlt), if_neg (by omega)]

/-- Going through a list goes on from the state behind its first element. -/
theorem foldlM_cons_apply {α β : Type} (f : β → α → StateM σ β) (b : β) (x : α) (xs : List α)
    (s : σ) : (x :: xs).foldlM f b s = xs.foldlM f (f b x s).1 (f b x s).2 := by
  rw [List.foldlM_cons]
  rfl

theorem foldlM_drawEdge_none (pairs : List (Nat × Nat)) (s : σ) :
    pairs.foldlM (drawEdge source p) none s = (none, s) := by
  induction pairs generalizing s with
  | nil => rfl
  | cons pair pairs ih => exact ih s

/-- The edges are those that the choices make, if there are names for all of them. -/
theorem foldlM_drawEdge (hle : edges.size ≤ Capacity.indices) (pairs : List (Nat × Nat)) (s : σ) :
    (pairs.foldlM (drawEdge source p) (some edges) s).1
      = if (pairs.foldlM (joinPair source p) edges s).1.size ≤ Capacity.indices then
          some (pairs.foldlM (joinPair source p) edges s).1 else none := by
  induction pairs generalizing edges s with
  | nil => exact (if_pos hle).symm
  | cons pair pairs ih =>
    rw [foldlM_cons_apply, foldlM_cons_apply, drawEdge_some source p hle]
    by_cases hnext : (joinPair source p edges pair s).1.size ≤ Capacity.indices
    · rw [if_pos hnext]
      exact ih hnext _
    · have hmore : (joinPair source p edges pair s).1.size ≤ (pairs.foldlM (joinPair source p)
          (joinPair source p edges pair s).1 (joinPair source p edges pair s).2).1.size :=
        size_le_foldlM_joinPair source p pairs _
      rw [if_neg hnext, foldlM_drawEdge_none, if_neg (by omega)]

/-! ## The number of pairs -/

/-- The pairs below a bound whose first number is one of the first few. -/
theorem two_mul_sum_range {n k : Nat} (hk : k ≤ n) :
    2 * ((List.range k).map fun i => n - (i + 1)).sum + k * (k + 1) = 2 * k * n := by
  induction k with
  | zero => simp
  | succ k ih =>
    obtain ⟨m, rfl⟩ := Nat.exists_eq_add_of_le hk
    have h := ih (by omega)
    rw [List.range_succ, List.map_append, List.sum_append, List.map_singleton,
      List.sum_singleton, Nat.add_sub_cancel_left]
    linarith [h, Nat.mul_comm k m]

theorem length_pairsBelow (n : Nat) : 2 * (pairsBelow n).length = n * (n - 1) := by
  have hsum := two_mul_sum_range (Nat.le_refl n)
  have hlength : (pairsBelow n).length = ((List.range n).map fun i => n - (i + 1)).sum := by
    simp [pairsBelow, List.length_flatMap]
  rw [hlength]
  cases n with
  | zero => rfl
  | succ n =>
    rw [Nat.add_sub_cancel]
    linarith

/-- Up to this number of vertices, there are names for the edges between all of them. -/
def alwaysNamed : Nat := 92682

theorem edgeDemand_le (h : p.vertices ≤ alwaysNamed) (s : σ) :
    edgeDemand source p s ≤ Capacity.indices := by
  have hlength := (always_joined source p s).length_le
  rw [List.length_map, Array.length_toList] at hlength
  have hpairs := length_pairsBelow p.vertices
  have hmul : p.vertices * (p.vertices - 1) ≤ 92682 * 92681 :=
    Nat.mul_le_mul h (Nat.sub_le_sub_right h 1)
  rw [edgeDemand, Capacity.indices]
  omega

/-! ## The data graph -/

variable {source p} {s : σ}

/-- The vertices are drawn first, then the edges. -/
theorem drawGraph_eq :
    (drawGraph source p s).1 = match (drawVertices source p s).1 with
      | none => .error (.capacity p.vertices)
      | some vertices => match (drawEdges source p (drawVertices source p s).2).1 with
        | none => .error (.capacity (Capacity.indices + 1))
        | some edges => (Graph.ofLists vertices.toList edges.toList).mapError .graph := by
  rcases hvertices : drawVertices source p s with ⟨_ | vertices, s'⟩
  · simp only [drawGraph, bind, StateT.bind, hvertices]
    rfl
  · rcases hedges : drawEdges source p s' with ⟨_ | edges, s''⟩ <;>
    · simp only [drawGraph, bind, StateT.bind, hvertices, hedges]
      rfl

/-- With all vertices, it depends on the number of edges whether there is a data graph. -/
theorem drawGraph_of_some {vertices : Array Vertex}
    (h : (drawVertices source p s).1 = some vertices) :
    (drawGraph source p s).1
      = if edgeDemand source p s ≤ Capacity.indices then
          (Graph.ofLists vertices.toList (joined source p s).1.toList).mapError .graph
        else .error (.capacity (Capacity.indices + 1)) := by
  have hdrawn : (drawEdges source p (drawVertices source p s).2).1
      = if edgeDemand source p s ≤ Capacity.indices then some (joined source p s).1 else none :=
    foldlM_drawEdge source p (Nat.zero_le _) (pairsBelow p.vertices) _
  rw [drawGraph_eq, h, hdrawn]
  by_cases hle : edgeDemand source p s ≤ Capacity.indices
  · rw [if_pos hle, if_pos hle]
  · rw [if_neg hle, if_neg hle]

/-- With names for all vertices and edges there is a data graph. -/
theorem exists_drawGraph (hvertices : p.vertices ≤ Capacity.indices)
    (hedges : edgeDemand source p s ≤ Capacity.indices) :
    ∃ g, (drawGraph source p s).1 = .ok g ∧ g.size = p.vertices
      ∧ g.edgeCount = edgeDemand source p s := by
  obtain ⟨vertices, hdrawn, hsize⟩ := (if_pos hvertices).mp (always_drawVertices source p s)
  have hends := always_joined source p s
  rw [← hsize, ← Array.length_toList] at hends
  obtain ⟨g, hg, hgvertices, hgedges⟩ := exists_ofLists hends
  refine ⟨g, ?_, ?_, ?_⟩
  · rw [drawGraph_of_some hdrawn, if_pos hedges, hg]
    rfl
  · rw [Graph.size, hgvertices, ← hsize]
  · rw [edgeCount, hgedges]
    rfl

/-- Without a name for every vertex and every edge there is none. -/
theorem drawGraph_refused
    (h : Capacity.indices < p.vertices ∨ Capacity.indices < edgeDemand source p s) :
    ∃ count, (drawGraph source p s).1 = .error (.capacity count) := by
  have hvertices := always_drawVertices source p s
  by_cases hle : p.vertices ≤ Capacity.indices
  · obtain ⟨vertices, hdrawn, -⟩ := (if_pos hle).mp hvertices
    exact ⟨_, (drawGraph_of_some hdrawn).trans (if_neg (by omega))⟩
  · have hnone := (if_neg hle).mp hvertices
    exact ⟨p.vertices, by rw [drawGraph_eq, hnone]⟩

end GraphDependency.Workload
