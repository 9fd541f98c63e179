import GraphDependency.Proofs.Counting
import GraphDependency.Proofs.Graph.Walk
import GraphDependency.Validation.Center

set_option autoImplicit false

/-!
# What a ball weighs

The weight of a ball is the number of vertices within its radius and of the edges that have
both of their ends among them.

Main statements: `encard_edgesAmong` (edges are counted once) and `ballWeight_eq`.
-/

namespace GraphDependency

namespace Graph

/-- The vertex can be reached within a number of hops. -/
def Within (g : Graph) (radius center v : Nat) : Prop := ∃ n ≤ radius, g.Hops center n v

/-- The edges with both ends inside. -/
def edgesAmong (g : Graph) (inside : Nat → Prop) : Set Edge :=
  {e | e ∈ g.edges ∧ inside e.first ∧ inside e.second}

variable {g : Graph}

/-- An edge is determined by the vertices that it joins. -/
theorem eq_of_joins_ends {e f : Edge} (he : e ∈ g.edges) (hf : f ∈ g.edges)
    (h : e.Joins f.first f.second) : e = f :=
  g.edge_unique he hf h (Or.inl ⟨rfl, rfl⟩)

theorem nodup_edges (g : Graph) : g.edges.toList.Nodup :=
  g.simple.imp fun h heq => h (Or.inl ⟨congrArg Edge.first heq, congrArg Edge.second heq⟩)

/-- All edges are counted by the edge count. -/
theorem encard_edges (g : Graph) : {e | e ∈ g.edges}.encard = g.edgeCount := by
  rw [edgeCount, ← Array.length_toList, ← encard_setOf_mem g.nodup_edges]
  exact congrArg Set.encard (Set.ext fun e => Array.mem_toList_iff.symm)

end Graph

namespace Validation

open GraphDependency.Graph

variable {g : Graph} {vs : List Nat} {v w radius center : Nat}

theorem mem_innerEdges_iff :
    (v, w) ∈ innerEdges g vs ↔ v < w ∧ v ∈ vs ∧ w ∈ vs ∧ w ∈ g.neighbors v := by
  simp only [innerEdges, List.mem_flatMap, List.mem_map, List.mem_filter, Bool.and_eq_true,
    decide_eq_true_eq, List.contains_iff_mem, Prod.mk.injEq]
  constructor
  · rintro ⟨_, hv, _, ⟨hadj, hlt, hw⟩, rfl, rfl⟩
    exact ⟨hlt, hv, hw, hadj⟩
  · rintro ⟨hlt, hv, hw, hadj⟩
    exact ⟨v, hv, w, ⟨hadj, hlt, hw⟩, rfl, rfl⟩

theorem nodup_innerEdges (h : vs.Nodup) : (innerEdges g vs).Nodup := by
  refine List.nodup_flatMap.mpr ⟨fun v _ => ?_, h.imp fun {v w} hne p hv hw => hne ?_⟩
  · exact ((g.nodup_neighbors v).filter _).map fun _ _ heq => congrArg Prod.snd heq
  · obtain ⟨_, _, rfl⟩ := List.mem_map.mp hv
    obtain ⟨_, _, heq⟩ := List.mem_map.mp hw
    exact (congrArg Prod.fst heq).symm

/-- The ends of an edge in ascending order. -/
def ascendingEnds (e : Edge) : Nat × Nat := (min e.first e.second, max e.first e.second)

theorem ascendingEnds_eq_iff {e f : Edge} :
    ascendingEnds e = ascendingEnds f ↔ e.Joins f.first f.second := by
  simp only [ascendingEnds, Prod.mk.injEq]
  unfold Edge.Joins
  omega

/-- Listed by ascending ends, the edges among some vertices are counted once each. -/
theorem encard_edgesAmong (h : vs.Nodup) :
    (g.edgesAmong (· ∈ vs)).encard = (innerEdges g vs).length := by
  have hinjective : Set.InjOn ascendingEnds (g.edgesAmong (· ∈ vs)) := fun e he f hf heq =>
    eq_of_joins_ends he.1 hf.1 (ascendingEnds_eq_iff.mp heq)
  have himage : ascendingEnds '' g.edgesAmong (· ∈ vs) = {p | p ∈ innerEdges g vs} := by
    refine Set.ext fun ⟨v, w⟩ => Iff.trans ?_ mem_innerEdges_iff.symm
    rw [mem_neighbors_iff]
    constructor
    · rintro ⟨e, ⟨he, hfirst, hsecond⟩, hends⟩
      obtain ⟨rfl, rfl⟩ := Prod.mk.inj hends
      rcases Nat.lt_or_gt_of_ne (g.loopless e he) with hlt | hgt
      · rw [Nat.min_eq_left (Nat.le_of_lt hlt), Nat.max_eq_right (Nat.le_of_lt hlt)]
        exact ⟨hlt, hfirst, hsecond, e, he, Or.inl ⟨rfl, rfl⟩⟩
      · rw [Nat.min_eq_right (Nat.le_of_lt hgt), Nat.max_eq_left (Nat.le_of_lt hgt)]
        exact ⟨hgt, hsecond, hfirst, e, he, Or.inr ⟨rfl, rfl⟩⟩
    · rintro ⟨hlt, hv, hw, e, he, ⟨rfl, rfl⟩ | ⟨rfl, rfl⟩⟩
      · refine ⟨e, ⟨he, hv, hw⟩, ?_⟩
        rw [ascendingEnds, Nat.min_eq_left (Nat.le_of_lt hlt), Nat.max_eq_right (Nat.le_of_lt hlt)]
      · refine ⟨e, ⟨he, hw, hv⟩, ?_⟩
        rw [ascendingEnds, Nat.min_eq_right (Nat.le_of_lt hlt), Nat.max_eq_left (Nat.le_of_lt hlt)]
  rw [← hinjective.encard_image, himage, encard_setOf_mem (nodup_innerEdges h)]

/-- However the vertices of a ball are listed, they and the edges between them are counted. -/
theorem encard_add_encard (h : vs.Nodup) (hvs : ∀ v, v ∈ vs ↔ g.Within radius center v) :
    {v | g.Within radius center v}.encard + (g.edgesAmong (g.Within radius center)).encard
      = ((vs.length + (innerEdges g vs).length : Nat) : ℕ∞) := by
  rw [← funext fun v => propext (hvs v), encard_setOf_mem h, encard_edgesAmong h]
  exact (Nat.cast_add _ _).symm

/-- A ball weighs as much as there are vertices in it and edges between them. -/
theorem ballWeight_eq (g : Graph) (radius center : Nat) :
    (ballWeight g radius center : ℕ∞)
      = {v | g.Within radius center v}.encard + (g.edgesAmong (g.Within radius center)).encard :=
  (encard_add_encard (nodup_flatten_layersWithin radius center) fun _ => mem_ball_iff).symm

theorem length_add_length_innerEdges (h : vs.Nodup)
    (hvs : ∀ v, v ∈ vs ↔ g.Within radius center v) :
    vs.length + (innerEdges g vs).length = ballWeight g radius center := by
  rw [← Nat.cast_inj (R := ℕ∞), ballWeight_eq, encard_add_encard h hvs]

end Validation

end GraphDependency
