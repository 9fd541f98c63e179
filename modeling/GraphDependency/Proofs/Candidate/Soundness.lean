import GraphDependency.Proofs.Candidate.Filter
import GraphDependency.Proofs.Candidate.Links

set_option autoImplicit false

/-!
# What an index may contain

Whatever is a candidate has the label of its pattern vertex, and whatever is linked
is joined by an edge with the label of the pattern edge.  Building starts with nothing
and keeps this, and so does refining.

Main statements: `Sound.build` and `Sound.refine`.
-/

namespace GraphDependency.Candidate.Index

open GraphDependency.Pattern

/-- Candidates and links are where they belong. -/
structure Sound (data : Graph) (t : Tree) (i : Index) : Prop where
  size_candidateTable : i.candidateTable.size = t.pattern.size
  size_linkTable : i.linkTable.size = t.pattern.size
  candidate : ∀ u, ∀ y ∈ i.candidates u, y < data.size ∧ data.label y = t.pattern.label u
  link : ∀ u x ys, (x, ys) ∈ i.links u → ∀ y ∈ ys,
    data.label y = t.pattern.label u ∧ ∃ p label, t.parent? u = some p
      ∧ t.pattern.edgeLabel? p u = some label ∧ data.edgeLabel? x y = some label

namespace Sound

variable {data : Graph} {t : Tree} {i : Index}

theorem empty (data : Graph) (t : Tree) : Sound data t (Index.empty t.pattern.size) := by
  have hcandidates : ∀ u, (Index.empty t.pattern.size).candidates u = [] := by
    intro u
    simp only [candidates, Index.empty, Array.getElem?_replicate]
    split <;> rfl
  have hlinks : ∀ u, (Index.empty t.pattern.size).links u = [] := by
    intro u
    simp only [links, Index.empty, Array.getElem?_replicate]
    split <;> rfl
  constructor
  · simp [Index.empty]
  · simp [Index.empty]
  all_goals simp [hcandidates, hlinks]

/-! ## Writing -/

theorem setCandidates (h : Sound data t i) {u : Nat} {c : List Nat} {hasc : c.Pairwise (· < ·)}
    (hc : ∀ y ∈ c, y < data.size ∧ data.label y = t.pattern.label u) :
    Sound data t (i.setCandidates u c hasc) where
  size_candidateTable := by simpa using h.size_candidateTable
  size_linkTable := h.size_linkTable
  candidate w := by
    rcases candidates_setCandidates_eq_or i u w with ⟨heq, rfl⟩ | heq
    · rwa [heq]
    · rw [heq]
      exact h.candidate w
  link := h.link

theorem filterCandidates (h : Sound data t i) (u : Nat) (f : Nat → Bool) :
    Sound data t (i.filterCandidates u f) :=
  h.setCandidates fun y hy => h.candidate u y (List.mem_of_mem_filter hy)

theorem setLinks (h : Sound data t i) {u : Nat} {l : Links} {hl : Links.Ordered l}
    (hlink : ∀ x ys, (x, ys) ∈ l → ∀ y ∈ ys,
      data.label y = t.pattern.label u ∧ ∃ p label, t.parent? u = some p
        ∧ t.pattern.edgeLabel? p u = some label ∧ data.edgeLabel? x y = some label) :
    Sound data t (i.setLinks u l hl) where
  size_candidateTable := h.size_candidateTable
  size_linkTable := by simpa using h.size_linkTable
  candidate := h.candidate
  link w := by
    rcases links_setLinks_eq_or i u w with ⟨heq, rfl⟩ | heq
    · rwa [heq]
    · rw [heq]
      exact h.link w

/-! ## Building -/

theorem rootCandidates (h : Sound data t i) :
    Sound data t (i.setCandidates t.root (Index.rootCandidates data t)
      (pairwise_rootCandidates data t)) :=
  h.setCandidates fun _ hy => (Graph.mem_withLabel_iff _).mp (List.mem_of_mem_filter hy)

theorem foundCandidates (h : Sound data t i) (visited : List Nat) (u : Nat) :
    Sound data t (i.setCandidates u (Index.foundCandidates data t i visited u)
      (pairwise_foundCandidates data t i visited u)) := by
  refine h.setCandidates fun y hy => ?_
  obtain ⟨hy, hok⟩ := List.mem_filter.mp hy
  rw [Bool.and_eq_true] at hok
  exact ⟨(Graph.mem_ids _).mp hy, label_eq_of_verify hok.2⟩

theorem fillLevel (h : Sound data t i) (visited level : List Nat) :
    Sound data t (Index.fillLevel data t i visited level) := by
  induction level generalizing i visited with
  | nil => exact h
  | cons u rest ih => exact ih (h.foundCandidates visited u) _

theorem dropPending (h : Sound data t i) (u : Nat) (behind : List Nat) :
    Sound data t (Index.dropPending data t i u behind) := by
  unfold Index.dropPending
  split
  · exact h
  · exact h.filterCandidates u _

theorem settleLevel (h : Sound data t i) (level : List Nat) :
    Sound data t (Index.settleLevel data t i level) := by
  induction level with
  | nil => exact h
  | cons u behind ih => exact ih.dropPending u behind

theorem linkVertex (h : Sound data t i) (u : Nat) :
    Sound data t (Index.linkVertex data t i u) := by
  unfold Index.linkVertex
  split
  · exact h
  · rename_i p hp
    split
    · exact h
    · rename_i label hlabel
      refine h.setLinks fun x ys hmem y hy => ?_
      rw [(mem_linksFrom_iff.mp hmem).2.2, List.mem_filter, decide_eq_true_eq] at hy
      exact ⟨(h.candidate u y hy.1).2, p, label, hp, hlabel, hy.2⟩

theorem buildLevel (h : Sound data t i) (visited level : List Nat) :
    Sound data t (Index.buildLevel data t i visited level) :=
  List.foldlRecOn level _ ((h.fillLevel visited level).settleLevel level)
    fun _ hi u _ => hi.linkVertex u

theorem buildLevels (h : Sound data t i) (visited : List Nat) (levels : List (List Nat)) :
    Sound data t (Index.buildLevels data t i visited levels) := by
  induction levels generalizing i visited with
  | nil => exact h
  | cons level rest ih => exact ih (h.buildLevel visited level) _

/-- Building an index puts candidates and links where they belong. -/
theorem build (data : Graph) (t : Tree) : Sound data t (Index.build data t) :=
  (empty data t).rootCandidates.buildLevels _ _

/-! ## Refining -/

theorem pruneLinks (h : Sound data t i) {c : Nat} (hc : c < t.pattern.size) :
    Sound data t (Index.pruneLinks i c) := by
  have hc' : c < i.linkTable.size := h.size_linkTable ▸ hc
  have hmem : ∀ x ys, (x, ys) ∈ (Index.pruneLinks i c).links c →
      ∃ zs, (x, zs) ∈ i.links c ∧ ys = zs.filter (i.candidates c).contains := by
    intro x ys hx
    rw [mem_links_pruneLinks_iff hc', if_pos rfl] at hx
    exact hx.2
  rw [Index.pruneLinks, links_setLinks i hc', if_pos rfl] at hmem
  refine h.setLinks fun x ys hx y hy => ?_
  obtain ⟨zs, hz, rfl⟩ := hmem x ys hx
  exact h.link c x zs hz y (List.mem_of_mem_filter hy)

theorem foldl_pruneLinks (h : Sound data t i) {cs : List Nat}
    (hlt : ∀ c ∈ cs, c < t.pattern.size) : Sound data t (cs.foldl Index.pruneLinks i) :=
  List.foldlRecOn cs _ h fun _ hi c hc => hi.pruneLinks (hlt c hc)

/-- Leaving out entries keeps an index sound. -/
theorem filterLinks (h : Sound data t i) (u : Nat) (f : Nat × List Nat → Bool) :
    Sound data t (i.filterLinks u f) :=
  h.setLinks fun x ys hx => h.link u x ys (List.mem_of_mem_filter hx)

theorem pruneUp (h : Sound data t i) (hchild : ∀ u, ∀ c ∈ t.children u, c < t.pattern.size)
    (u : Nat) : Sound data t (Index.pruneUp data t i u) := by
  by_cases hnil : t.children u = []
  · rwa [pruneUp_eq_self data t i hnil]
  · rw [pruneUp_eq data t i hnil]
    have hpruned := h.foldl_pruneLinks (hchild u)
    exact List.foldlRecOn (t.children u) _ (hpruned.filterCandidates u _)
      fun _ hi c _ => hi.filterLinks c _

theorem pruneDown (h : Sound data t i) (u : Nat) :
    Sound data t (Index.pruneDown t i u) := by
  unfold Index.pruneDown
  split
  · exact h
  · exact (h.filterLinks u _).filterCandidates u _

theorem foldl_pruneUp (h : Sound data t i) (hchild : ∀ u, ∀ c ∈ t.children u, c < t.pattern.size)
    (vs : List Nat) : Sound data t (vs.foldl (Index.pruneUp data t) i) :=
  List.foldlRecOn vs _ h fun _ hi u _ => hi.pruneUp hchild u

/-- Refining an index leaves candidates and links where they belong. -/
theorem refine (h : Sound data t i) (hchild : ∀ u, ∀ c ∈ t.children u, c < t.pattern.size) :
    Sound data t (Index.refine data t i) :=
  List.foldlRecOn _ _ (h.foldl_pruneUp hchild _) fun _ hi u _ => hi.pruneDown u

end Sound

end GraphDependency.Candidate.Index
