import GraphDependency.Proofs.Candidate.Consistency
import Mathlib.Data.Set.Lattice

set_option autoImplicit false

/-!
# Refining reaches the greatest fixed point

A family of sets of data vertices supports itself if every member of the set of a
pattern vertex has neighbors in the sets of its children and in the set of its parent,
along edges with the labels of the tree edges.  No step of a refinement drops a member
of such a family of candidates: its neighbors are candidates as well, and linked to it.
What is left in the end supports itself, so no step finds anything more to drop.

Main statements: `Retains.pruneUp` and `Retains.pruneDown` (a step keeps a family that
supports itself), `Lowered.refine_eq` (a refined index stays as it is) and
`refined_greatest`.
-/

namespace GraphDependency.Candidate.Index

open GraphDependency.Pattern GraphDependency.Matching

variable {data : Graph} {t : Tree} {i i' : Index} {u c x y p : Nat} {done : List Nat}
  {family : Nat → Set Nat}

/-! ## Label and degree -/

/-- Candidates have label and degree of their pattern vertices. -/
def Fit (data : Graph) (t : Tree) (i : Index) : Prop :=
  ∀ u, ∀ x ∈ i.candidates u, labelDegreeOk data x t.pattern u = true

theorem Fit.of_subset (h : Fit data t i)
    (hsub : ∀ u, ∀ x ∈ i'.candidates u, x ∈ i.candidates u) : Fit data t i' :=
  fun u x hx => h u x (hsub u x hx)

theorem Fit.setCandidates {cs : List Nat} {hasc : cs.Pairwise (· < ·)} (h : Fit data t i)
    (hcs : ∀ x ∈ cs, labelDegreeOk data x t.pattern u = true) :
    Fit data t (i.setCandidates u cs hasc) := by
  intro w x hx
  rcases candidates_setCandidates_eq_or i u w with ⟨heq, rfl⟩ | heq
  · rw [heq] at hx
    exact hcs x hx
  · rw [heq] at hx
    exact h w x hx

theorem Fit.empty (data : Graph) (t : Tree) : Fit data t (Index.empty t.pattern.size) := by
  intro u x hx
  simp only [candidates, Index.empty, Array.getElem?_replicate] at hx
  split at hx <;> simp at hx

/-- A candidate that is found was met in some round. -/
theorem Fit.foundCandidates (h : Fit data t i) (visited : List Nat) (u : Nat) :
    Fit data t (i.setCandidates u (Index.foundCandidates data t i visited u)
      (pairwise_foundCandidates data t i visited u)) := by
  refine h.setCandidates fun x hx => ?_
  obtain ⟨-, hok⟩ := List.mem_filter.mp hx
  rw [Bool.and_eq_true, Bool.and_eq_true, decide_eq_true_eq] at hok
  obtain ⟨⟨hpos, hhit⟩, -⟩ := hok
  obtain ⟨s, hs⟩ := List.exists_mem_of_length_pos
    (Nat.lt_of_lt_of_le hpos (RoundCounter.count_run _).1)
  exact (RoundCounter.mem_reached_iff.mp (RoundCounter.hitEveryRound_run_iff.mp hhit s hs)).1

theorem Fit.fillLevel (h : Fit data t i) (visited level : List Nat) :
    Fit data t (Index.fillLevel data t i visited level) := by
  induction level generalizing i visited with
  | nil => exact h
  | cons u rest ih => exact ih (h.foundCandidates visited u) _

theorem Fit.settleLevel (h : Fit data t i) (level : List Nat) :
    Fit data t (Index.settleLevel data t i level) := by
  induction level with
  | nil => exact h
  | cons u behind ih =>
    rw [Index.settleLevel]
    unfold Index.dropPending
    split
    · exact ih
    · exact ih.setCandidates fun x hx => ih u x (List.mem_of_mem_filter hx)

theorem Fit.buildLevels (h : Fit data t i) (visited : List Nat) (levels : List (List Nat)) :
    Fit data t (Index.buildLevels data t i visited levels) := by
  induction levels generalizing i visited with
  | nil => exact h
  | cons level rest ih =>
    refine ih (((h.fillLevel visited level).settleLevel level).of_subset fun u x hx => ?_) _
    rwa [buildLevel, candidates_foldl_linkVertex] at hx

/-- The candidates of a built index have label and degree of their pattern vertices. -/
theorem Fit.build (data : Graph) (t : Tree) : Fit data t (Index.build data t) := by
  refine ((Fit.empty data t).setCandidates fun x hx => ?_).buildLevels _ _
  have hok := (List.mem_filter.mp hx).2
  rw [Bool.and_eq_true] at hok
  exact hok.1

/-! ## What no step drops -/

/-- Every member of the set of a vertex has neighbors in the sets of the children and in
the set of the parent, along edges with the labels of the pattern edges. -/
structure Supported (data : Graph) (t : Tree) (family : Nat → Set Nat) : Prop where
  down : ∀ u, ∀ c ∈ t.children u, ∀ x ∈ family u, ∃ y ∈ family c, ∃ label,
    t.pattern.edgeLabel? u c = some label ∧ data.edgeLabel? x y = some label
  up : ∀ u p, t.parent? u = some p → ∀ y ∈ family u, ∃ x ∈ family p, ∃ label,
    t.pattern.edgeLabel? p u = some label ∧ data.edgeLabel? x y = some label

/-- An index on the way from building to refining that has all of a family left. -/
structure Retains (data : Graph) (t : Tree) (family : Nat → Set Nat) (i : Index) : Prop where
  sound : Sound data t i
  joined : Joined data t i
  fit : Fit data t i
  subset : ∀ u, ∀ x ∈ family u, x ∈ i.candidates u

/-- An index on the way from building to refining, with candidates of an earlier one only. -/
structure Shrunk (data : Graph) (t : Tree) (i i' : Index) : Prop where
  sound : Sound data t i'
  subset : ∀ u, ∀ x ∈ i'.candidates u, x ∈ i.candidates u

section Steps

variable (ht : Tree.build? t.pattern t.root = some t)

include ht

theorem candidates_pruneUp_subset (hsound : Sound data t i) (u : Nat) :
    ∀ w, ∀ x ∈ (Index.pruneUp data t i u).candidates w, x ∈ i.candidates w :=
  fun _ _ hx => ((mem_candidates_pruneUp_iff ht hsound).mp hx).1

theorem candidates_pruneDown_subset (hsound : Sound data t i) (u : Nat) :
    ∀ w, ∀ x ∈ (Index.pruneDown t i u).candidates w, x ∈ i.candidates w := by
  intro w x hx
  cases hp : t.parent? u with
  | none => simpa [Index.pruneDown, hp] using hx
  | some p =>
    have hu := (Tree.parent?_lt_size ht hp).2
    exact ((mem_candidates_pruneDown_iff hsound hu hp).mp hx).1

/-- A step upwards keeps a family that supports itself. -/
theorem Retains.pruneUp (h : Retains data t family i) (hfamily : Supported data t family)
    (u : Nat) : Retains data t family (Index.pruneUp data t i u) where
  sound := h.sound.pruneUp (fun _ _ hc => child_lt_size ht hc) u
  joined := h.joined.pruneUp ht h.sound u
  fit := h.fit.of_subset (candidates_pruneUp_subset ht h.sound u)
  subset w x hx := by
    refine (mem_candidates_pruneUp_iff ht h.sound).mpr ⟨h.subset w x hx, ?_⟩
    rintro rfl
    have hcand := h.subset u x hx
    refine not_mem_droppedAt ht h.sound (h.fit u x hcand) fun c hc => ?_
    -- The neighbor in the set of the child is a candidate, so the two are linked.
    obtain ⟨y, hy, label, hlabel, hedge⟩ := hfamily.down u c hc x hx
    have hcand' := h.subset c y hy
    have hp := (Tree.mem_children_iff ht).mp hc
    exact ⟨y, hcand', h.joined.linked c u label hp hlabel x hcand y hcand' hedge⟩

/-- A step downwards keeps a family that supports itself. -/
theorem Retains.pruneDown (h : Retains data t family i) (hfamily : Supported data t family)
    (u : Nat) : Retains data t family (Index.pruneDown t i u) := by
  cases hp : t.parent? u with
  | none => simpa [Index.pruneDown, hp] using h
  | some p =>
    have hu := (Tree.parent?_lt_size ht hp).2
    refine ⟨h.sound.pruneDown u, h.joined.pruneDown h.sound hu hp,
      h.fit.of_subset (candidates_pruneDown_subset ht h.sound u), fun w y hy => ?_⟩
    refine (mem_candidates_pruneDown_iff h.sound hu hp).mpr ⟨h.subset w y hy, ?_⟩
    rintro rfl
    obtain ⟨x, hx, label, hlabel, hedge⟩ := hfamily.up u p hp y hy
    exact ⟨x, h.subset p x hx, h.joined.linked u p label hp hlabel x (h.subset p x hx) y
      (h.subset u y hy) hedge⟩

/-- Refining keeps a family that supports itself. -/
theorem Retains.refine (h : Retains data t family i) (hfamily : Supported data t family) :
    Retains data t family (Index.refine data t i) :=
  List.foldlRecOn _ _
    (List.foldlRecOn _ _ h fun _ hi u _ => hi.pruneUp ht hfamily u)
    fun _ hi u _ => hi.pruneDown ht hfamily u

/-- A built index has all of any family of its candidates. -/
theorem Retains.build (data : Graph)
    (hsub : ∀ u, family u ⊆ {x | x ∈ (Index.build data t).candidates u}) :
    Retains data t family (Index.build data t) :=
  ⟨Sound.build data t, (Raised.build ht data).toJoined, Fit.build data t, hsub⟩

theorem Shrunk.pruneUp (h : Shrunk data t i i') (u : Nat) :
    Shrunk data t i (Index.pruneUp data t i' u) where
  sound := h.sound.pruneUp (fun _ _ hc => child_lt_size ht hc) u
  subset w x hx := h.subset w x (candidates_pruneUp_subset ht h.sound u w x hx)

theorem Shrunk.pruneDown (h : Shrunk data t i i') (u : Nat) :
    Shrunk data t i (Index.pruneDown t i' u) where
  sound := h.sound.pruneDown u
  subset w x hx := h.subset w x (candidates_pruneDown_subset ht h.sound u w x hx)

/-- Refining takes candidates away only. -/
theorem Shrunk.refine (hsound : Sound data t i) : Shrunk data t i (Index.refine data t i) :=
  List.foldlRecOn _ _
    (List.foldlRecOn _ _ ⟨hsound, fun _ _ hx => hx⟩ fun _ hi u _ => hi.pruneUp ht u)
    fun _ hi u _ => hi.pruneDown ht u

/-! ## What is left -/

/-- The candidates of a refined index support themselves. -/
theorem supported_refine_build (data : Graph) :
    Supported data t fun u => {x | x ∈ (Index.refine data t (Index.build data t)).candidates u}
    where
  down u c hc x hx := by
    obtain ⟨label, hlabel, hcons⟩ :=
      consistent_refine_build ht data ((Tree.mem_children_iff ht).mp hc)
    obtain ⟨y, hy⟩ := List.exists_mem_of_ne_nil _ (hcons.linked_ne_nil x hx)
    rw [hcons.linked_eq x hx, List.mem_filter, decide_eq_true_eq] at hy
    exact ⟨y, hy.1, label, hlabel, hy.2⟩
  up u p hp y hy := by
    obtain ⟨label, hlabel, hcons⟩ := consistent_refine_build ht data hp
    obtain ⟨x, hx, hxy⟩ := (hcons.candidate_iff y).mp hy
    rw [hcons.linked_eq x hx, List.mem_filter, decide_eq_true_eq] at hxy
    exact ⟨x, hx, label, hlabel, hxy.2⟩

/-- The images under an embedding support each other. -/
theorem supported_image {m : Embedding}
    (hm : (Query.plain t.pattern data).IsEmbedding m) :
    Supported data t fun u => {x | u < t.pattern.size ∧ x = m.image u} where
  down := by
    rintro u c hc x ⟨-, rfl⟩
    obtain ⟨label, hlabel⟩ := Tree.exists_edgeLabel?_parent ht ((Tree.mem_children_iff ht).mp hc)
    exact ⟨m.image c, ⟨child_lt_size ht hc, rfl⟩, label, hlabel, hm.edgeLabel?_eq hlabel⟩
  up := by
    rintro u p hp y ⟨-, rfl⟩
    obtain ⟨label, hlabel⟩ := Tree.exists_edgeLabel?_parent ht hp
    exact ⟨m.image p, ⟨(Tree.parent?_lt_size ht hp).1, rfl⟩, label, hlabel, hm.edgeLabel?_eq hlabel⟩

end Steps

/-! ## Nothing more to drop -/

theorem setCandidates_eq_self {cs : List Nat} {hasc : cs.Pairwise (· < ·)}
    (h : cs = i.candidates u) : i.setCandidates u cs hasc = i := by
  subst h
  by_cases hu : u < i.candidateTable.size <;>
    simp [setCandidates, candidates, Array.setIfInBounds_def, hu]

theorem setLinks_eq_self {l : Links} {hl : Links.Ordered l} (h : l = i.links u) :
    i.setLinks u l hl = i := by
  subst h
  by_cases hu : u < i.linkTable.size <;>
    simp [setLinks, links, Array.setIfInBounds_def, hu]

theorem filterCandidates_eq_self {f : Nat → Bool} (h : ∀ x ∈ i.candidates u, f x = true) :
    i.filterCandidates u f = i :=
  setCandidates_eq_self (List.filter_eq_self.mpr h)

theorem filterLinks_eq_self {f : Nat × List Nat → Bool} (h : ∀ e ∈ i.links u, f e = true) :
    i.filterLinks u f = i :=
  setLinks_eq_self (List.filter_eq_self.mpr h)

theorem dropLinks_nil (i : Index) (c : Nat) : dropLinks i [] c = i :=
  filterLinks_eq_self fun _ _ => rfl

/-- Links that lead to candidates only are not pruned. -/
theorem pruneLinks_eq_self (hne : ∀ x ys, (x, ys) ∈ i.links c → ys ≠ [])
    (htarget : ∀ x y, i.Linked c x y → y ∈ i.candidates c) : pruneLinks i c = i := by
  refine setLinks_eq_self ?_
  calc i.keptLinks c = (i.links c).filterMap some := by
        refine List.filterMap_congr ?_
        rintro ⟨x, ys⟩ hmem
        have hall : ys.filter (i.candidates c).contains = ys :=
          List.filter_eq_self.mpr fun y hy => by simpa using htarget x y ⟨ys, hmem, hy⟩
        rw [hall]
        exact linkTo?_eq_some_iff.mpr ⟨hne x ys hmem, rfl⟩
    _ = i.links c := List.filterMap_some

section Fixed

variable (ht : Tree.build? t.pattern t.root = some t)

include ht

/-- Once every candidate is linked to candidates of the children, a step upwards finds
nothing to drop. -/
theorem Lowered.pruneUp_eq_self (h : Lowered data t done i) (hsound : Sound data t i)
    (hfit : Fit data t i) (u : Nat) : Index.pruneUp data t i u = i := by
  by_cases hnil : t.children u = []
  · exact Index.pruneUp_eq_self data t i hnil
  · have hp : ∀ c ∈ t.children u, t.parent? c = some u := fun c hc =>
      (Tree.mem_children_iff ht).mp hc
    have hdropped : droppedAt data t i u = [] := by
      refine List.eq_nil_iff_forall_not_mem.mpr fun x hx => ?_
      have hcand := List.mem_of_mem_filter hx
      refine not_mem_droppedAt ht hsound (hfit u x hcand) (fun c hc => ?_) hx
      obtain ⟨y, hxy⟩ := h.support c u (hp c hc) x hcand
      exact ⟨y, h.target c u (hp c hc) x y hxy, hxy⟩
    have hlinks : (t.children u).foldl pruneLinks i = i :=
      List.foldlRecOn (motive := fun j => j = i) _ _ rfl fun j hj c hc => by
        rw [hj]
        exact pruneLinks_eq_self (h.nonempty c u (hp c hc)) (h.target c u (hp c hc))
    have hcandidates : (i.filterCandidates u fun x => !([] : List Nat).contains x) = i :=
      filterCandidates_eq_self fun _ _ => rfl
    rw [pruneUp_eq data t i hnil, hdropped, hlinks, hcandidates]
    exact List.foldl_fixed' (fun c => dropLinks_nil i c) _

omit ht in
/-- Once links come from candidates, to every candidate, a step downwards finds nothing to
drop. -/
theorem Lowered.pruneDown_eq_self (h : Lowered data t done i)
    (hdone : ∀ w p, t.parent? w = some p → w ∈ done) (u : Nat) : Index.pruneDown t i u = i := by
  cases hp : t.parent? u with
  | none => simp [Index.pruneDown, hp]
  | some p =>
    have hu := hdone u p hp
    have hkeys : ∀ e ∈ i.links u, (i.candidates p).contains e.1 = true := by
      intro e he
      obtain ⟨y, hy⟩ := List.exists_mem_of_ne_nil e.2 (h.nonempty u p hp e.1 e.2 he)
      simpa using h.key u hu p hp e.1 y ⟨e.2, he, hy⟩
    have hcover : ∀ y ∈ i.candidates u, ((i.links u).flatMap Prod.snd).contains y = true := by
      intro y hy
      obtain ⟨x, ys, hmem, hys⟩ := h.cover u hu p hp y hy
      rw [List.contains_iff_mem, List.mem_flatMap]
      exact ⟨(x, ys), hmem, hys⟩
    simp only [Index.pruneDown, hp]
    rw [filterLinks_eq_self hkeys, List.filter_eq_self.mpr hkeys]
    exact filterCandidates_eq_self hcover

/-- What both ways have reached stays as it is. -/
theorem Lowered.refine_eq (h : Lowered data t done i) (hsound : Sound data t i)
    (hfit : Fit data t i) (hdone : ∀ w p, t.parent? w = some p → w ∈ done) :
    Index.refine data t i = i := by
  rw [Index.refine, List.foldl_fixed' (h.pruneUp_eq_self ht hsound hfit),
    List.foldl_fixed' (h.pruneDown_eq_self hdone)]

end Fixed

end GraphDependency.Candidate.Index

namespace GraphDependency.Candidate

open GraphDependency.Pattern GraphDependency.Matching

/-- Among the families of sets of built candidates that support themselves, the candidates
of the refined index are the greatest; and refining once more changes nothing, neither the
candidates nor the links. -/
theorem refined_greatest (data pattern : Graph) (root : Nat) (hroot : root < pattern.size) :
    ∃ t, Tree.build? pattern root = some t
      ∧ let built := Index.build data t
        let refined := built.refine data t
        IsGreatest
            {family : Nat → Set Nat | Index.Supported data t family
              ∧ ∀ u, family u ⊆ {x | x ∈ built.candidates u}}
            (fun u => {x | x ∈ refined.candidates u})
          ∧ refined.refine data t = refined := by
  obtain ⟨t, ht⟩ : ∃ t, Tree.build? pattern root = some t := by simp [Tree.build?, hroot]
  obtain rfl := Tree.pattern_eq ht
  obtain rfl := Tree.root_eq ht
  have hsub := (Index.Shrunk.refine ht (Index.Sound.build data t)).subset
  refine ⟨t, ht, ⟨⟨Index.supported_refine_build ht data, hsub⟩, ?_⟩, ?_⟩
  · rintro family ⟨hfamily, hcand⟩ u
    exact ((Index.Retains.build ht data hcand).refine ht hfamily).subset u
  · refine (Index.lowered_refine_build ht data).refine_eq ht (sound_refine_build ht data)
      ((Index.Fit.build data t).of_subset hsub) fun w p hp => ?_
    exact List.mem_reverse.mpr ((Tree.exists_parent?_iff ht).mp ⟨p, hp⟩)

/-- From its second vertex, the vertices of a segment support each other, so refining
leaves them. -/
theorem refined_greatest_segment :
    let pattern := Graph.segment "a" "b" "e"
    1 < pattern.size
      ∧ ∃ t, Tree.build? pattern 1 = some t
        ∧ let refined := (Index.build pattern t).refine pattern t
          0 ∈ refined.candidates 0 ∧ refined.refine pattern t = refined := by
  intro pattern
  have hroot : 1 < pattern.size := by decide
  obtain ⟨t, ht, hgreatest, hfixed⟩ := refined_greatest pattern pattern 1 hroot
  have hpattern : t.pattern = pattern := Tree.pattern_eq ht
  have ht' : Tree.build? t.pattern t.root = some t := by rw [hpattern, Tree.root_eq ht, ht]
  have hm : (Query.plain t.pattern pattern).IsEmbedding #[0, 1] := by
    rw [hpattern]
    exact isEmbedding_segment _ _ _
  have hkept := (keeps_refine_build ht' (by rw [hpattern]; decide) hm).1
  have hsub : ∀ u, {x | u < t.pattern.size ∧ x = Embedding.image #[0, 1] u}
      ⊆ {x | x ∈ (Index.build pattern t).candidates u} := by
    rintro u x ⟨hu, rfl⟩
    exact hkept.candidate u ((Graph.mem_ids _).mpr hu)
  have hfamily := Index.supported_image ht' hm
  refine ⟨hroot, t, ht, hgreatest.2 ⟨hfamily, hsub⟩ 0 ⟨?_, rfl⟩, hfixed⟩
  rw [hpattern]
  decide

end GraphDependency.Candidate
