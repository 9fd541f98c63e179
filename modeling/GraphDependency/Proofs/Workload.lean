import GraphDependency.Except
import GraphDependency.Proofs.Dependency.Text
import GraphDependency.Proofs.Validation.Center
import GraphDependency.Proofs.Validation.Exhaustive
import GraphDependency.Proofs.Workload.DataGraph

set_option autoImplicit false

/-!
# What a workload contains

Whatever the choices are, a workload has the vertices that were asked for, and all dependencies
that were asked for if any can be made at all.  Their patterns were grown in the data graph, so
none of them holds for want of an embedding.  Only if there are no names for all vertices or
edges of the data graph, or for more dependencies than fit into memory, there is no workload.

Main statements: `always_drawAllParts`, `exists_generate` and `generate_exact`.
-/

namespace GraphDependency.Workload

open GraphDependency.Graph GraphDependency.Matching GraphDependency.Random

variable {σ : Type} (source : Source σ) (p : Parameters)

/-! ## Dependencies -/

theorem always_drawVertexTerm {size : Nat} (h : 0 < size) :
    Always (drawVertexTerm source size) fun t => ∀ i ∈ t.index?, i < size := by
  refine (always_wide source h).bind fun index hindex => ?_
  refine (Always.trivial _).bind fun name _ => Always.of_pure fun i hi => ?_
  cases hi
  exact hindex

theorem always_drawTerm {size : Nat} (h : 0 < size) (values : Nat) :
    Always (drawTerm source size values) fun t => ∀ i ∈ t.index?, i < size := by
  refine (Always.trivial _).bind fun vertex _ => ?_
  split
  · exact always_drawVertexTerm source h
  · exact (Always.trivial _).bind fun value _ => Always.of_pure nofun

/-- A literal is about vertices of the pattern. -/
theorem always_drawLiteral {size : Nat} (h : 0 < size) (values : Nat) :
    Always (drawLiteral source size values) (Literal.InRange size) := by
  refine (always_drawVertexTerm source h).bind fun lhs hlhs => ?_
  refine (always_drawTerm source h values).bind fun rhs hrhs => Always.of_pure fun i hi => ?_
  rcases List.mem_append.mp hi with hi | hi
  · exact hlhs i (Option.mem_toList.mp hi)
  · exact hrhs i (Option.mem_toList.mp hi)

/-- The literals of a dependency are about its pattern. -/
theorem always_drawParts {pattern : Graph} (h : 0 < pattern.size) :
    Always (drawParts source p pattern) fun parts => parts.pattern = pattern
      ∧ ∀ l ∈ parts.premises ++ parts.conclusion, l.InRange pattern.size := by
  have hliteral := always_drawLiteral source h (max p.attributeValues 1)
  refine (Always.trivial _).bind fun count _ => ?_
  refine (Always.mapM fun _ _ => hliteral).bind fun premises hpremises => ?_
  refine hliteral.bind fun conclusion hconclusion => Always.of_pure ⟨rfl, ?_⟩
  exact List.forall_mem_append.mpr ⟨hpremises.2, List.forall_mem_singleton.mpr hconclusion⟩

/-- The parts of a dependency with a pattern that was grown in the data graph. -/
def Suitable (data : Graph) (room : Nat) (parts : Parts) : Prop :=
  (∃ g, GrownPattern data room g parts.pattern)
    ∧ ∀ l ∈ parts.premises ++ parts.conclusion, l.InRange parts.pattern.size

/-- There are as many dependencies as were asked for, or none if there is no pattern. -/
theorem always_drawAllParts (data : Graph) (count : Nat) :
    Always (drawAllParts source p data count) fun all =>
      all.length = (if data.size = 0 ∨ p.patternVertices = 0 then 0 else count)
        ∧ ∀ parts ∈ all, Suitable data p.patternVertices parts := by
  induction count with
  | zero => exact Always.of_pure ⟨by split <;> rfl, by simp⟩
  | succ count ih =>
    refine (always_drawPattern? source data p.patternVertices).bind fun drawn hdrawn => ?_
    by_cases hroom : data.size = 0 ∨ p.patternVertices = 0
    · rw [if_pos hroom] at hdrawn
      subst hdrawn
      exact Always.of_pure ⟨(if_pos hroom).symm, by simp⟩
    · rw [if_neg hroom] at hdrawn ih ⊢
      obtain ⟨g, pattern, rfl, hgrown⟩ := hdrawn
      refine (always_drawParts source p hgrown.embedded.nonempty).bind fun parts hparts => ?_
      obtain ⟨rfl, hrange⟩ := hparts
      refine ih.bind fun rest hrest => Always.of_pure ⟨?_, ?_⟩
      · rw [List.length_cons, hrest.1]
      · exact List.forall_mem_cons.mpr ⟨⟨⟨g, hgrown⟩, hrange⟩, hrest.2⟩

/-- Such parts make a dependency. -/
theorem Suitable.exists_toDependency {data : Graph} {room : Nat} {parts : Parts}
    (h : Suitable data room parts) :
    ∃ d, parts.toDependency = .ok d ∧ ∃ g, GrownPattern data room g d.pattern := by
  obtain ⟨⟨g, hg⟩, hrange⟩ := h
  obtain ⟨d, hd⟩ := Dependency.ofParts_ok_iff.mpr ⟨hrange, hg.connected⟩
  refine ⟨d, mapError_eq_ok_iff.mpr hd, g, ?_⟩
  rwa [← (ofParts_eq_ok_iff.mp hd).1]

/-! ## Workloads -/

variable {p}

/-- The data graph and the dependencies come after the test of the edge probability. -/
theorem generate_eq (hunit : p.edgeProbability.inUnit = true) (s : σ) :
    (generate source p s).1 = match (drawGraph source p s).1 with
      | .error fault => .error fault
      | .ok graph =>
        if Capacity.fits Capacity.dependencyBytes p.dependencies then
          ((drawAllParts source p graph p.dependencies (drawGraph source p s).2).1.mapM
            Parts.toDependency).map fun ds => ⟨graph, ds⟩
        else .error (.capacity p.dependencies) := by
  rw [generate, if_neg (by simp [hunit])]
  simp only [bind, StateT.bind]
  rcases drawGraph source p s with ⟨_ | graph, s'⟩
  · rfl
  · by_cases hfits : Capacity.fits Capacity.dependencyBytes p.dependencies = true
    · simp only [if_pos hfits]
      rfl
    · simp only [if_neg hfits]
      rfl

/-- What a workload is, by the number of its edges. -/
structure Fulfilled (p : Parameters) (edges : Nat) (w : Workload) : Prop where
  size_eq : w.graph.size = p.vertices
  edgeCount_eq : w.graph.edgeCount = edges
  length_eq : w.dependencies.length
    = if 1 ≤ p.vertices ∧ 1 ≤ p.patternVertices then p.dependencies else 0
  grown : ∀ d ∈ w.dependencies, ∃ g, GrownPattern w.graph p.patternVertices g d.pattern

/-- With names for the vertices and edges and room for the dependencies there is a workload. -/
theorem exists_generate (hunit : p.edgeProbability.inUnit = true) {s : σ}
    (hvertices : p.vertices ≤ Capacity.indices)
    (hedges : edgeDemand source p s ≤ Capacity.indices)
    (hfits : Capacity.fits Capacity.dependencyBytes p.dependencies = true) :
    ∃ w, (generate source p s).1 = .ok w ∧ Fulfilled p (edgeDemand source p s) w := by
  obtain ⟨graph, hgraph, hsize, hcount⟩ := exists_drawGraph hvertices hedges
  have hall := always_drawAllParts source p graph p.dependencies (drawGraph source p s).2
  obtain ⟨ds, hds, hlength, hgrown⟩ :=
    exists_mapM_eq_ok fun parts hparts => (hall.2 parts hparts).exists_toDependency
  refine ⟨⟨graph, ds⟩, ?_, hsize, hcount, ?_, hgrown⟩
  · rw [generate_eq source hunit, hgraph]
    simp only
    rw [if_pos hfits, hds]
    rfl
  · rw [hlength, hall.1, hsize]
    split <;> split <;> omega

/-- Without them there is none, even if no dependency would be made. -/
theorem generate_refused (hunit : p.edgeProbability.inUnit = true) {s : σ}
    (h : Capacity.indices < p.vertices ∨ Capacity.indices < edgeDemand source p s
      ∨ Capacity.fits Capacity.dependencyBytes p.dependencies = false) :
    ∃ count, (generate source p s).1 = .error (.capacity count) := by
  rw [generate_eq source hunit]
  by_cases hnamed : Capacity.indices < p.vertices ∨ Capacity.indices < edgeDemand source p s
  · obtain ⟨count, hrefused⟩ := drawGraph_refused hnamed
    exact ⟨count, by rw [hrefused]⟩
  · have hfits := (or_assoc.mpr h).resolve_left hnamed
    have hvertices : p.vertices ≤ Capacity.indices :=
      Nat.le_of_not_lt fun hlt => hnamed (Or.inl hlt)
    have hedges : edgeDemand source p s ≤ Capacity.indices :=
      Nat.le_of_not_lt fun hlt => hnamed (Or.inr hlt)
    obtain ⟨graph, hgraph, -⟩ := exists_drawGraph hvertices hedges
    refine ⟨p.dependencies, ?_⟩
    rw [hgraph]
    simp only
    rw [if_neg (by simp [hfits])]

/-- With an edge probability between zero and one there is a workload, whatever the choices are,
if there are names for the vertices that were asked for and for the edges that the choices make,
and room for the dependencies; otherwise there is none.  There are names for the edges whatever
the choices are, if there are not too many vertices.  The data graph has the vertices that were
asked for and the edges that the choices make.  The workload has all the dependencies if there is
a vertex to start a pattern at and a pattern may have one, otherwise none.  Every pattern is
connected, has not more vertices than it may have, and was grown in the data graph; the vertices
that it was grown from are an embedding, so that its vertices and edges can be named as well. -/
theorem generate_exact (source : Source σ) (p : Parameters)
    (hunit : p.edgeProbability.inUnit = true) (s : σ) :
    (p.vertices ≤ Capacity.indices → edgeDemand source p s ≤ Capacity.indices →
        Capacity.fits Capacity.dependencyBytes p.dependencies = true →
        ∃ w, (generate source p s).1 = .ok w ∧ w.graph.size = p.vertices
          ∧ w.graph.edgeCount = edgeDemand source p s
          ∧ w.dependencies.length
            = (if 1 ≤ p.vertices ∧ 1 ≤ p.patternVertices then p.dependencies else 0)
          ∧ ∀ d ∈ w.dependencies, d.pattern.isConnected = true
            ∧ 1 ≤ d.pattern.size ∧ d.pattern.size ≤ p.patternVertices
            ∧ d.pattern.size ≤ w.graph.size ∧ d.pattern.edgeCount ≤ w.graph.edgeCount
            ∧ (∃ g : Growth, g.Grown w.graph ∧ d.pattern.size = g.chosen.length
                ∧ (Query.plain d.pattern w.graph).IsEmbedding g.chosen.toArray)
            ∧ d.triviallyHolds w.graph = false)
      ∧ (Capacity.indices < p.vertices ∨ Capacity.indices < edgeDemand source p s
          ∨ Capacity.fits Capacity.dependencyBytes p.dependencies = false →
        ∃ count, (generate source p s).1 = .error (.capacity count))
      ∧ (p.vertices ≤ alwaysNamed → edgeDemand source p s ≤ Capacity.indices) := by
  refine ⟨fun hvertices hedges hfits => ?_, generate_refused source hunit, fun h =>
    edgeDemand_le source p h s⟩
  obtain ⟨w, hw, hfulfilled⟩ := exists_generate source hunit hvertices hedges hfits
  refine ⟨w, hw, hfulfilled.size_eq, hfulfilled.edgeCount_eq, hfulfilled.length_eq, fun d hd => ?_⟩
  obtain ⟨g, hg⟩ := hfulfilled.grown d hd
  exact ⟨hg.connected, hg.embedded.nonempty, hg.size_le, hg.embedded.size_le,
    hg.embedded.edgeCount_le, ⟨g, hg.grown, hg.size_eq, hg.embedded⟩,
    Dependency.triviallyHolds_eq_false hg.embedded⟩

/-- Forty vertices, every second pair of them joined on average, and eight dependencies. -/
def fortyVertices : Parameters := ⟨40, .half, 3, 2, 3, 8, 4, 7⟩

/-- Eight dependencies are made, and each of them has an embedding. -/
theorem generate_exact_fortyVertices :
    fortyVertices.edgeProbability.inUnit = true
      ∧ fortyVertices.vertices ≤ alwaysNamed
      ∧ Capacity.fits Capacity.dependencyBytes fortyVertices.dependencies = true
      ∧ ∃ w, ofParameters fortyVertices = .ok w ∧ w.graph.size = 40 ∧ w.dependencies.length = 8
        ∧ ∀ d ∈ w.dependencies, ∃ m, (Query.plain d.pattern w.graph).IsEmbedding m := by
  have hunit : fortyVertices.edgeProbability.inUnit = true := by decide
  have hfew : fortyVertices.vertices ≤ alwaysNamed := by decide
  have hfits : Capacity.fits Capacity.dependencyBytes fortyVertices.dependencies = true := by
    decide
  obtain ⟨hroom, -, hnamed⟩ := generate_exact chacha fortyVertices hunit
    (Stream.start (.ofSeed fortyVertices.seed))
  obtain ⟨w, hw, hsize, -, hlength, hall⟩ := hroom (by decide) (hnamed hfew) hfits
  refine ⟨hunit, hfew, hfits, w, (ofParameters_eq _).trans hw, hsize, hlength, fun d hd => ?_⟩
  obtain ⟨-, -, -, -, -, ⟨g, -, -, hg⟩, -⟩ := hall d hd
  exact ⟨_, hg⟩

/-- No vertices, and as many dependencies as can be asked for. -/
def noVertices : Parameters := ⟨0, .half, 1, 1, 1, 18446744073709551615, 1, 0⟩

/-- There is no workload, although none of the dependencies would be made. -/
theorem ofParameters_noVertices :
    noVertices.edgeProbability.inUnit = true ∧ ∀ w, ofParameters noVertices ≠ .ok w := by
  have hunit : noVertices.edgeProbability.inUnit = true := by decide
  refine ⟨hunit, fun w hw => ?_⟩
  obtain ⟨count, hrefused⟩ := generate_refused chacha hunit
    (s := Stream.start (.ofSeed noVertices.seed)) (Or.inr (Or.inr (by decide)))
  rw [ofParameters_eq, hrefused] at hw
  cases hw

end GraphDependency.Workload
