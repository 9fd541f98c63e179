import GraphDependency.Candidate.Filter
import GraphDependency.Proofs.Matching.Embedding

set_option autoImplicit false

/-!
# The local filters are necessary

An embedding sends the neighbors of a pattern vertex to different neighbors of its
image, with the same labels and no lower degrees.  So whatever is counted around a
pattern vertex is at least as large around its image.

Main statements: `labelDegreeOk_image` and `verify_image`.
-/

namespace GraphDependency.Candidate

open GraphDependency.Matching

theorem labelDegreeOk_iff {data pattern : Graph} {v u : Nat} :
    labelDegreeOk data v pattern u = true
      ↔ data.label v = pattern.label u ∧ pattern.degree u ≤ data.degree v := by
  simp [labelDegreeOk]

theorem label_eq_of_verify {data pattern : Graph} {v u : Nat}
    (h : verify data v pattern u = true) : data.label v = pattern.label u := by
  rw [verify, Bool.and_eq_true, Bool.and_eq_true, beq_iff_eq] at h
  exact h.1.1

/-- The highest degree among the neighbors is a least upper bound. -/
theorem maxNeighborDegree_le_iff {g : Graph} {v n : Nat} :
    maxNeighborDegree g v ≤ n ↔ ∀ w ∈ g.neighbors v, g.degree w ≤ n := by
  have h : ∀ (ws : List Nat) (best : Nat),
      ws.foldl (fun best w => max best (g.degree w)) best ≤ n
        ↔ best ≤ n ∧ ∀ w ∈ ws, g.degree w ≤ n := by
    intro ws
    induction ws with
    | nil => simp
    | cons w ws ih =>
      intro best
      rw [List.foldl_cons, ih, List.forall_mem_cons, Nat.max_le, and_assoc]
  rw [maxNeighborDegree, h]
  exact and_iff_right (Nat.zero_le n)

theorem mem_neighborLabels_iff {g : Graph} {v n : Nat} {label : String} :
    (label, n) ∈ neighborLabels g v
      ↔ (∃ w ∈ g.neighbors v, g.label w = label) ∧ neighborCount g v label = n := by
  simp only [neighborLabels, List.mem_map, Graph.mem_sortDistinct_iff, Prod.mk.injEq]
  constructor
  · rintro ⟨other, hw, rfl, hn⟩
    exact ⟨hw, hn⟩
  · rintro ⟨hw, hn⟩
    exact ⟨label, hw, rfl, hn⟩

variable {q : Query} {m : Embedding} (h : q.IsEmbedding m) {u : Nat}

include h

theorem maxNeighborDegree_le_image (u : Nat) :
    maxNeighborDegree q.pattern u ≤ maxNeighborDegree q.data (m.image u) := by
  refine maxNeighborDegree_le_iff.mpr ?_
  intro w hw
  exact (h.degree_le w).trans (maxNeighborDegree_le_iff.mp (Nat.le_refl _) _ (h.mem_neighbors hw))

theorem neighborCount_le_image (u : Nat) (label : String) :
    neighborCount q.pattern u label ≤ neighborCount q.data (m.image u) label := by
  have hcount := (h.map_neighbors_subperm u).countP_le fun v => q.data.label v = label
  rw [List.countP_map] at hcount
  refine Nat.le_trans (Nat.le_of_eq ?_) hcount
  refine List.countP_congr ?_
  intro w hw
  simp [h.label_eq w (q.pattern.lt_size_of_mem_neighbors hw)]

/-- The image of a vertex has its label and at least its degree. -/
theorem labelDegreeOk_image (hu : u < q.pattern.size) :
    labelDegreeOk q.data (m.image u) q.pattern u = true :=
  labelDegreeOk_iff.mpr ⟨h.label_eq u hu, h.degree_le u⟩

/-- The image of a vertex passes the full local conditions. -/
theorem verify_image (hu : u < q.pattern.size) :
    verify q.data (m.image u) q.pattern u = true := by
  rw [verify, Bool.and_eq_true, Bool.and_eq_true, beq_iff_eq, decide_eq_true_eq,
    List.all_eq_true]
  refine ⟨⟨h.label_eq u hu, maxNeighborDegree_le_image h u⟩, ?_⟩
  rintro ⟨label, n⟩ hmem
  obtain ⟨-, rfl⟩ := mem_neighborLabels_iff.mp hmem
  exact decide_eq_true (neighborCount_le_image h u label)

end GraphDependency.Candidate
