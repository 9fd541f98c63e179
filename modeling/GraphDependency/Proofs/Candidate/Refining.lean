import GraphDependency.Proofs.Candidate.Rounds
import GraphDependency.Proofs.Candidate.Soundness
import GraphDependency.Proofs.Pattern.Tree

set_option autoImplicit false

/-!
# The steps of a refinement

A step upwards at a vertex drops candidates that have no link to one of the children,
and the links that belong to them; a step downwards drops the links that do not come
from candidates of the parent, and the candidates that are left without one.

Main statements: `mem_candidates_pruneUp_iff` and `linked_pruneUp_iff`,
`mem_candidates_pruneDown_iff` and `linked_pruneDown_iff`.
-/

namespace GraphDependency.Candidate.Index

open GraphDependency.Pattern

variable {data : Graph} {t : Tree} {i : Index} {u w x y p : Nat} {ys : List Nat}

/-! ## Links and children -/

theorem child_lt_size (ht : Tree.build? t.pattern t.root = some t) {c : Nat}
    (hc : c ∈ t.children u) : c < t.pattern.size :=
  (Tree.parent?_lt_size ht ((Tree.mem_children_iff ht).mp hc)).2

theorem linked_pruneLinks_iff {c : Nat} (hc : c < i.linkTable.size) :
    (pruneLinks i c).Linked w x y ↔ i.Linked w x y ∧ (c = w → y ∈ i.candidates w) := by
  unfold Linked
  simp only [mem_links_pruneLinks_iff hc]
  by_cases hcw : c = w
  · subst hcw
    simp only [if_true, forall_true_left]
    constructor
    · rintro ⟨_, ⟨-, zs, hz, rfl⟩, hy⟩
      obtain ⟨hy, hcand⟩ := List.mem_filter.mp hy
      exact ⟨⟨zs, hz, hy⟩, by simpa using hcand⟩
    · rintro ⟨⟨zs, hz, hy⟩, hcand⟩
      have hmem : y ∈ zs.filter (i.candidates c).contains :=
        List.mem_filter.mpr ⟨hy, by simpa using hcand⟩
      exact ⟨_, ⟨List.ne_nil_of_mem hmem, zs, hz, rfl⟩, hmem⟩
  · simp [hcw]

theorem linked_foldl_pruneLinks_iff {cs : List Nat} (hcs : ∀ c ∈ cs, c < i.linkTable.size) :
    (cs.foldl pruneLinks i).Linked w x y
      ↔ i.Linked w x y ∧ (w ∈ cs → y ∈ i.candidates w) := by
  induction cs generalizing i with
  | nil => simp
  | cons c cs ih =>
    obtain ⟨hc, hcs⟩ := List.forall_mem_cons.mp hcs
    rw [List.foldl_cons, ih (by simpa [pruneLinks] using hcs), linked_pruneLinks_iff hc,
      candidates_pruneLinks, and_assoc, List.mem_cons, eq_comm (a := c)]
    tauto

/-- Pruning links leaves no entry without a target. -/
theorem ne_nil_of_mem_foldl_pruneLinks {cs : List Nat} (hcs : ∀ c ∈ cs, c < i.linkTable.size)
    (h : ∀ x ys, (x, ys) ∈ i.links w → ys ≠ [])
    (hmem : (x, ys) ∈ (cs.foldl pruneLinks i).links w) : ys ≠ [] := by
  induction cs generalizing i with
  | nil => exact h x ys hmem
  | cons c cs ih =>
    obtain ⟨hc, hcs⟩ := List.forall_mem_cons.mp hcs
    refine ih (by simpa [pruneLinks] using hcs) (fun x ys hmem => ?_) hmem
    rw [mem_links_pruneLinks_iff hc] at hmem
    split at hmem
    · exact hmem.1
    · exact h x ys hmem

theorem mem_links_of_mem_foldl_dropLinks {cs removed : List Nat}
    (hcs : ∀ c ∈ cs, c < i.linkTable.size)
    (hmem : (x, ys) ∈ (cs.foldl (dropLinks · removed) i).links w) : (x, ys) ∈ i.links w := by
  induction cs generalizing i with
  | nil => exact hmem
  | cons c cs ih =>
    obtain ⟨hc, hcs⟩ := List.forall_mem_cons.mp hcs
    exact ((mem_links_dropLinks_iff hc).mp (ih (by simpa [dropLinks] using hcs) hmem)).1

theorem linked_dropLinks_iff {c : Nat} {removed : List Nat} (hc : c < i.linkTable.size) :
    (dropLinks i removed c).Linked w x y ↔ i.Linked w x y ∧ (c = w → x ∉ removed) := by
  unfold Linked
  simp only [mem_links_dropLinks_iff hc]
  constructor
  · rintro ⟨ys, ⟨hys, hx⟩, hy⟩
    exact ⟨⟨ys, hys, hy⟩, hx⟩
  · rintro ⟨⟨ys, hys, hy⟩, hx⟩
    exact ⟨ys, ⟨hys, hx⟩, hy⟩

theorem linked_foldl_dropLinks_iff {cs removed : List Nat}
    (hcs : ∀ c ∈ cs, c < i.linkTable.size) :
    (cs.foldl (dropLinks · removed) i).Linked w x y
      ↔ i.Linked w x y ∧ (w ∈ cs → x ∉ removed) := by
  induction cs generalizing i with
  | nil => simp
  | cons c cs ih =>
    obtain ⟨hc, hcs⟩ := List.forall_mem_cons.mp hcs
    rw [List.foldl_cons, ih (by simpa [dropLinks] using hcs), linked_dropLinks_iff hc,
      and_assoc, List.mem_cons, eq_comm (a := c)]
    tauto

@[simp] theorem candidates_foldl_dropLinks (i : Index) (removed cs : List Nat) (w : Nat) :
    (cs.foldl (dropLinks · removed) i).candidates w = i.candidates w := by
  induction cs generalizing i with
  | nil => rfl
  | cons c cs ih => rw [List.foldl_cons, ih, candidates_dropLinks]

theorem droppedAt_eq_nil (h : t.children u = []) : droppedAt data t i u = [] := by
  have hhit : ∀ x, (RoundCounter.run data t.pattern u []).hitEveryRound x = true := fun x =>
    RoundCounter.hitEveryRound_run_iff.mpr (by simp)
  simp [droppedAt, h, hhit]

section Steps

variable (ht : Tree.build? t.pattern t.root = some t) (hsound : Sound data t i)

include ht hsound

/-- A step upwards drops no candidate with label and degree of its vertex that is linked to
a candidate of every child. -/
theorem not_mem_droppedAt (hok : labelDegreeOk data x t.pattern u = true)
    (hlinked : ∀ c ∈ t.children u, ∃ y ∈ i.candidates c, i.Linked c x y) :
    x ∉ droppedAt data t i u := by
  have hhit : (RoundCounter.run data t.pattern u
      ((t.children u).map i.candidates)).hitEveryRound x = true := by
    refine RoundCounter.hitEveryRound_run_iff.mpr fun s hs => ?_
    obtain ⟨c, hc, rfl⟩ := List.mem_map.mp hs
    obtain ⟨y, hy, ys, hmem, hys⟩ := hlinked c hc
    obtain ⟨-, _, _, -, -, hedge⟩ := hsound.link c x ys hmem y hys
    exact RoundCounter.mem_reached_iff.mpr
      ⟨hok, y, hy, (Graph.mem_neighbors_comm _).mp (Graph.mem_neighbors_of_edgeLabel? _ hedge)⟩
  intro hdropped
  obtain ⟨-, hdrop⟩ := List.mem_filter.mp hdropped
  rw [hhit, Bool.not_true, Bool.false_or, List.any_eq_true] at hdrop
  obtain ⟨c, hc, hno⟩ := hdrop
  obtain ⟨y, hy, hxy⟩ := hlinked c hc
  -- The link outlives the pruning, as it leads to a candidate.
  obtain ⟨ys, hmem, -⟩ := (linked_foldl_pruneLinks_iff (w := c) (x := x) (y := y)
    fun c hc => hsound.size_linkTable ▸ child_lt_size ht hc).mpr ⟨hxy, fun _ => hy⟩
  rw [hasLink_iff.mpr ⟨ys, hmem⟩] at hno
  cases hno

/-- A step upwards takes away the candidates that it drops. -/
theorem mem_candidates_pruneUp_iff :
    y ∈ (pruneUp data t i u).candidates w
      ↔ y ∈ i.candidates w ∧ (u = w → y ∉ droppedAt data t i u) := by
  by_cases hnil : t.children u = []
  · simp [pruneUp_eq_self data t i hnil, droppedAt_eq_nil hnil]
  · obtain ⟨c, hc⟩ := List.exists_mem_of_ne_nil _ hnil
    have hu : u < t.pattern.size := (Tree.parent?_lt_size ht ((Tree.mem_children_iff ht).mp hc)).1
    have hpruned := hsound.foldl_pruneLinks fun c hc => child_lt_size (u := u) ht hc
    rw [pruneUp_eq data t i hnil, candidates_foldl_dropLinks,
      candidates_filterCandidates (hpruned.size_candidateTable ▸ hu)]
    split
    · rename_i huw
      subst huw
      simp
    · rename_i huw
      simp [huw]

/-- A step upwards takes away the links from candidates that it drops, and the links of
the children that do not lead to candidates. -/
theorem linked_pruneUp_iff :
    (pruneUp data t i u).Linked w x y
      ↔ i.Linked w x y
        ∧ (t.parent? w = some u → x ∉ droppedAt data t i u ∧ y ∈ i.candidates w) := by
  rw [← Tree.mem_children_iff ht]
  by_cases hnil : t.children u = []
  · simp [pruneUp_eq_self data t i hnil, hnil]
  · have hlt : ∀ c ∈ t.children u, c < t.pattern.size := fun c hc => child_lt_size ht hc
    have hsize := (hsound.foldl_pruneLinks hlt).size_linkTable
    rw [pruneUp_eq data t i hnil, linked_foldl_dropLinks_iff]
    · change (((t.children u).foldl pruneLinks i).Linked w x y ∧ _) ↔ _
      rw [linked_foldl_pruneLinks_iff fun c hc => hsound.size_linkTable ▸ hlt c hc]
      tauto
    · intro c hc
      rw [size_linkTable_filterCandidates, hsize]
      exact hlt c hc

/-- A step upwards leaves no entry without a target. -/
theorem ne_nil_of_mem_links_pruneUp (h : ∀ x ys, (x, ys) ∈ i.links w → ys ≠ [])
    (hmem : (x, ys) ∈ (pruneUp data t i u).links w) : ys ≠ [] := by
  by_cases hnil : t.children u = []
  · rw [pruneUp_eq_self data t i hnil] at hmem
    exact h x ys hmem
  · have hlt : ∀ c ∈ t.children u, c < t.pattern.size := fun c hc => child_lt_size ht hc
    have hsize := (hsound.foldl_pruneLinks hlt).size_linkTable
    rw [pruneUp_eq data t i hnil] at hmem
    have hpruned := mem_links_of_mem_foldl_dropLinks (fun c hc => ?_) hmem
    · rw [links_filterCandidates] at hpruned
      exact ne_nil_of_mem_foldl_pruneLinks (fun c hc => hsound.size_linkTable ▸ hlt c hc) h hpruned
    · rw [size_linkTable_filterCandidates, hsize]
      exact hlt c hc

omit ht in
theorem mem_candidates_pruneDown_iff (hu : u < t.pattern.size) (hp : t.parent? u = some p) :
    y ∈ (pruneDown t i u).candidates w
      ↔ y ∈ i.candidates w ∧ (u = w → ∃ x ∈ i.candidates p, i.Linked u x y) := by
  simp only [pruneDown, hp]
  rw [candidates_filterCandidates (by simpa [hsound.size_candidateTable] using hu)]
  split
  · rename_i huw
    subst huw
    rw [List.mem_filter, List.contains_iff_mem, List.mem_flatMap]
    refine and_congr_right fun _ => ?_
    simp only [forall_true_left]
    constructor
    · rintro ⟨⟨x, ys⟩, he, hy⟩
      obtain ⟨he, hx⟩ := List.mem_filter.mp he
      exact ⟨x, by simpa using hx, ys, he, hy⟩
    · rintro ⟨x, hx, ys, he, hy⟩
      exact ⟨(x, ys), List.mem_filter.mpr ⟨he, by simpa using hx⟩, hy⟩
  · rename_i huw
    simp [huw]

omit ht in
theorem mem_links_pruneDown_iff (hu : u < t.pattern.size) (hp : t.parent? u = some p) :
    (x, ys) ∈ (pruneDown t i u).links w
      ↔ (x, ys) ∈ i.links w ∧ (u = w → x ∈ i.candidates p) := by
  simp only [pruneDown, hp]
  rw [links_filterCandidates, links_filterLinks (hsound.size_linkTable ▸ hu)]
  split
  · rename_i huw
    subst huw
    simp
  · rename_i huw
    simp [huw]

omit ht in
/-- A step downwards takes away the links that do not come from candidates. -/
theorem linked_pruneDown_iff (hu : u < t.pattern.size) (hp : t.parent? u = some p) :
    (pruneDown t i u).Linked w x y ↔ i.Linked w x y ∧ (u = w → x ∈ i.candidates p) := by
  unfold Linked
  simp only [mem_links_pruneDown_iff hsound hu hp]
  constructor
  · rintro ⟨ys, ⟨hys, hx⟩, hy⟩
    exact ⟨⟨ys, hys, hy⟩, hx⟩
  · rintro ⟨⟨ys, hys, hy⟩, hx⟩
    exact ⟨ys, ⟨hys, hx⟩, hy⟩

end Steps

end GraphDependency.Candidate.Index
