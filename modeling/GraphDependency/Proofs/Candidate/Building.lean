import GraphDependency.Proofs.Candidate.Soundness
import GraphDependency.Proofs.Pattern.Tree

set_option autoImplicit false

/-!
# The links of a built index

An index is built level by level.  A level writes the candidates of its own vertices
only, and linking a vertex reads its candidates and those of its parent, which no later
level changes: so the links are in the end those that linking would make then.

Main statements: `layered_levels`, the levels hang on each other, `links_build` and
`linked_build_iff`.
-/

namespace GraphDependency.Candidate.Index

open GraphDependency.Pattern

variable {data : Graph} {t : Tree} {i : Index} {u w x y p : Nat} {label : String} {done : List Nat}

/-! ## Levels -/

/-- Every vertex of a level has its parent among the vertices visited before. -/
def Layered (t : Tree) : List Nat → List (List Nat) → Prop
  | _, [] => True
  | visited, level :: rest =>
    (∀ u ∈ level, u < t.pattern.size ∧ ∃ p ∈ visited, t.parent? u = some p)
      ∧ Layered t (level ++ visited) rest

theorem Layered.parent_mem {visited level : List Nat} {rest : List (List Nat)}
    (h : Layered t visited (level :: rest)) (hu : u ∈ level) (hp : t.parent? u = some p) :
    p ∈ visited := by
  obtain ⟨-, q, hq, huq⟩ := h.1 u hu
  rw [hp] at huq
  cases huq
  exact hq

/-- The vertices have their parents among them. -/
def Closed (t : Tree) (vs : List Nat) : Prop := ∀ w ∈ vs, ∀ p, t.parent? w = some p → p ∈ vs

theorem Closed.cons {vs : List Nat} (h : Closed t vs)
    (hu : ∀ p, t.parent? u = some p → p ∈ vs) : Closed t (u :: vs) :=
  List.forall_mem_cons.mpr ⟨fun p hp => List.mem_cons_of_mem u (hu p hp),
    fun w hw p hp => List.mem_cons_of_mem u (h w hw p hp)⟩

/-- With a level below, the vertices visited still have their parents among them. -/
theorem Closed.append {visited level : List Nat} {rest : List (List Nat)}
    (h : Closed t visited) (hlayered : Layered t visited (level :: rest)) :
    Closed t (level ++ visited) := by
  intro w hw p hp
  refine List.mem_append_right _ ?_
  rcases List.mem_append.mp hw with hw | hw
  · exact hlayered.parent_mem hw hp
  · exact h w hw p hp

section Tree

variable {t : Tree} (ht : Tree.build? t.pattern t.root = some t)

include ht

theorem layered_of_levels_eq {done rest : List (List Nat)} {visited : List Nat}
    (hlevels : t.levels = done ++ rest) (hne : done ≠ [])
    (hvisited : ∀ u, u ∈ visited ↔ u ∈ done.flatten) : Layered t visited rest := by
  induction rest generalizing done visited with
  | nil => trivial
  | cons level rest ih =>
    refine ⟨fun u hu => ?_, ih (by rw [hlevels, List.append_cons]) (by simp) ?_⟩
    · have hat := (Tree.mem_levels_iff ht (i := done.length)).mp
        ⟨level, by rw [hlevels]; simp, hu⟩
      obtain ⟨d, hd⟩ := Nat.exists_eq_succ_of_ne_zero
        (Nat.ne_of_gt (List.length_pos_iff.mpr hne))
      rw [hd] at hat
      -- The parent is one level up, so among the levels that are done.
      obtain ⟨p, hp⟩ := Tree.exists_parent? ht hat
      obtain ⟨-, e, hpe, hue⟩ := Tree.parent?_eq_some ht hp
      have he : e = d := Nat.succ.inj (hue.unique hat)
      obtain ⟨upper, hupper, hmem⟩ := (Tree.mem_levels_iff ht).mpr hpe
      rw [hlevels, List.getElem?_append_left (by omega)] at hupper
      refine ⟨hat.1.1, p, (hvisited p).mpr ?_, hp⟩
      exact List.mem_flatten.mpr ⟨upper, List.mem_of_getElem? hupper, hmem⟩
    · intro u
      rw [List.mem_append, hvisited, List.flatten_append, List.mem_append, or_comm]
      simp

theorem closed_root : Closed t [t.root] := by
  intro w hw p hp
  rw [List.mem_singleton.mp hw, Tree.parent?_root ht] at hp
  cases hp

/-- The levels below the root hang on each other. -/
theorem layered_levels : Layered t [t.root] t.levels.tail :=
  layered_of_levels_eq ht (Tree.levels_eq_cons ht) (List.cons_ne_nil _ []) (by simp)

end Tree

/-! ## What a level leaves as it is -/

theorem candidates_fillLevel_of_not_mem {level visited : List Nat} (h : w ∉ level) :
    (fillLevel data t i visited level).candidates w = i.candidates w := by
  induction level generalizing i visited with
  | nil => rfl
  | cons u rest ih =>
    simp only [List.mem_cons, not_or] at h
    obtain ⟨hne, hrest⟩ := h
    rw [fillLevel, ih hrest, candidates_setCandidates_of_ne (Ne.symm hne)]

theorem candidates_dropPending_of_ne {behind : List Nat} (h : w ≠ u) :
    (dropPending data t i u behind).candidates w = i.candidates w := by
  unfold dropPending
  split
  · rfl
  · exact candidates_setCandidates_of_ne (Ne.symm h)

theorem candidates_settleLevel_of_not_mem {level : List Nat} (h : w ∉ level) :
    (settleLevel data t i level).candidates w = i.candidates w := by
  induction level with
  | nil => rfl
  | cons u behind ih =>
    simp only [List.mem_cons, not_or] at h
    obtain ⟨hne, hbehind⟩ := h
    rw [settleLevel, candidates_dropPending_of_ne hne, ih hbehind]

@[simp] theorem candidates_foldl_linkVertex (level : List Nat) (w : Nat) :
    (level.foldl (linkVertex data t) i).candidates w = i.candidates w := by
  induction level generalizing i with
  | nil => rfl
  | cons u rest ih => rw [List.foldl_cons, ih, candidates_linkVertex]

theorem links_linkVertex_of_ne (h : u ≠ w) :
    (linkVertex data t i u).links w = i.links w := by
  unfold linkVertex
  split
  · rfl
  · split
    · rfl
    · exact links_setLinks_of_ne h

theorem links_linkVertex (hlt : u < i.linkTable.size) (hp : t.parent? u = some p)
    (hlabel : t.pattern.edgeLabel? p u = some label) :
    (linkVertex data t i u).links u = linksFrom data i p u label := by
  simp only [linkVertex, hp, hlabel]
  rw [links_setLinks i hlt, if_pos rfl]

/-- New links depend on the candidates of the vertex and of its parent only. -/
theorem linksFrom_congr {i' : Index} (hp : i'.candidates p = i.candidates p)
    (hu : i'.candidates u = i.candidates u) :
    linksFrom data i' p u label = linksFrom data i p u label := by
  simp only [linksFrom, nextTo, hp, hu]

/-! ## Links that linking again would make -/

/-- The links of the vertices that are done are those that linking them now would make. -/
def Fresh (data : Graph) (t : Tree) (done : List Nat) (i : Index) : Prop :=
  ∀ w ∈ done, ∀ p label, t.parent? w = some p → t.pattern.edgeLabel? p w = some label →
    i.links w = linksFrom data i p w label

/-- Linking makes the links of a vertex fresh, and those of the others stay so. -/
theorem Fresh.linkVertex (h : Fresh data t done i) (hlt : u < i.linkTable.size) :
    Fresh data t (u :: done) (linkVertex data t i u) := by
  intro w hw p label hp hlabel
  rw [linksFrom_congr (candidates_linkVertex data t i u p) (candidates_linkVertex data t i u w)]
  by_cases huw : u = w
  · subst huw
    exact links_linkVertex hlt hp hlabel
  · rw [links_linkVertex_of_ne huw]
    exact h w ((List.mem_cons.mp hw).resolve_left (Ne.symm huw)) p label hp hlabel

theorem Fresh.foldl_linkVertex {level : List Nat} (h : Fresh data t done i)
    (hsound : Sound data t i) (hlt : ∀ u ∈ level, u < t.pattern.size) :
    Fresh data t (level ++ done) (level.foldl (Index.linkVertex data t) i) := by
  induction level generalizing i done with
  | nil => exact h
  | cons u rest ih =>
    obtain ⟨hu, hrest⟩ := List.forall_mem_cons.mp hlt
    have hnext := ih (h.linkVertex (hsound.size_linkTable ▸ hu)) (hsound.linkVertex u) hrest
    exact fun w hw => hnext w (List.perm_middle.mem_iff.mpr hw)

/-- Finding candidates for a new level leaves the links above it fresh. -/
theorem Fresh.buildLevel {level : List Nat} (h : Fresh data t done i) (hsound : Sound data t i)
    (hlevel : ∀ u ∈ level, u < t.pattern.size) (hclosed : Closed t done)
    (hdisjoint : ∀ w ∈ done, w ∉ level) :
    Fresh data t (level ++ done) (buildLevel data t i done level) := by
  have hframe : ∀ w ∈ done, (settleLevel data t (fillLevel data t i done level) level).candidates w
      = i.candidates w := fun w hw => by
    rw [candidates_settleLevel_of_not_mem (hdisjoint w hw),
      candidates_fillLevel_of_not_mem (hdisjoint w hw)]
  refine Fresh.foldl_linkVertex (fun w hw p label hp hlabel => ?_)
    ((hsound.fillLevel done level).settleLevel level) hlevel
  rw [links_settleLevel, links_fillLevel, h w hw p label hp hlabel,
    linksFrom_congr (hframe p (hclosed w hw p hp)) (hframe w hw)]

theorem Fresh.buildLevels {levels : List (List Nat)} (h : Fresh data t done i)
    (hsound : Sound data t i) (hlayered : Layered t done levels) (hclosed : Closed t done)
    (hnodup : (done ++ levels.flatten).Nodup) :
    Fresh data t (levels.flatten ++ done) (buildLevels data t i done levels) := by
  induction levels generalizing i done with
  | nil => exact h
  | cons level rest ih =>
    -- The levels repeat nothing: this one writes no candidates of the vertices done.
    have hdisjoint : ∀ w ∈ done, w ∉ level := fun w hw hwl =>
      (List.nodup_append.mp hnodup).2.2 w hw w (by simp [hwl]) rfl
    have hfresh := h.buildLevel hsound (fun u hu => (hlayered.1 u hu).1) hclosed hdisjoint
    have hperm : (done ++ (level ++ rest.flatten)).Perm (level ++ done ++ rest.flatten) := by
      rw [← List.append_assoc]
      exact List.perm_append_comm.append_right _
    have hnext := ih hfresh (hsound.buildLevel done level) hlayered.2 (hclosed.append hlayered)
      (hperm.nodup_iff.mp hnodup)
    intro w hw
    refine hnext w ?_
    simp only [List.flatten_cons, List.mem_append] at hw ⊢
    tauto

/-- The links of a built index are those between its candidates. -/
theorem links_build (ht : Tree.build? t.pattern t.root = some t) (data : Graph)
    (hp : t.parent? u = some p) (hlabel : t.pattern.edgeLabel? p u = some label) :
    (build data t).links u = linksFrom data (build data t) p u label := by
  have hnodup := Tree.nodup_flatten_levels ht
  rw [Tree.levels_eq_cons ht, List.flatten_cons] at hnodup
  have hbegin : Fresh data t [t.root]
      ((empty t.pattern.size).setCandidates t.root (rootCandidates data t)
        (pairwise_rootCandidates data t)) := by
    intro w hw p _ hp
    rw [List.mem_singleton.mp hw, Tree.parent?_root ht] at hp
    cases hp
  have hfresh := hbegin.buildLevels (Sound.empty data t).rootCandidates (layered_levels ht)
    (closed_root ht) hnodup
  refine hfresh u ?_ p label hp hlabel
  exact List.mem_append_left _ ((Tree.exists_parent?_iff ht).mp ⟨p, hp⟩)

/-- Candidates of a vertex and of its parent are linked in a built index if an edge with the
label of the pattern edge joins them. -/
theorem linked_build_iff (ht : Tree.build? t.pattern t.root = some t) (data : Graph)
    (hp : t.parent? u = some p) (hlabel : t.pattern.edgeLabel? p u = some label) :
    (build data t).Linked u x y
      ↔ x ∈ (build data t).candidates p ∧ y ∈ (build data t).candidates u
        ∧ data.edgeLabel? x y = some label := by
  rw [Linked, links_build ht data hp hlabel]
  constructor
  · rintro ⟨ys, hmem, hy⟩
    obtain ⟨hx, -, rfl⟩ := mem_linksFrom_iff.mp hmem
    obtain ⟨hy, hedge⟩ := List.mem_filter.mp hy
    exact ⟨hx, hy, of_decide_eq_true hedge⟩
  · rintro ⟨hx, hy, hedge⟩
    have hmem : y ∈ ((build data t).candidates u).filter fun y =>
        data.edgeLabel? x y = some label := List.mem_filter.mpr ⟨hy, decide_eq_true hedge⟩
    exact ⟨_, mem_linksFrom_iff.mpr ⟨hx, List.ne_nil_of_mem hmem, rfl⟩, hmem⟩

end GraphDependency.Candidate.Index
