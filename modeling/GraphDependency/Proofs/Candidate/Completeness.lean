import GraphDependency.Proofs.Candidate.Building
import GraphDependency.Proofs.Candidate.Refining

set_option autoImplicit false

/-!
# No embedding is lost

Every condition by which candidates or links are dropped is necessary at the moment
at which it is applied: the image of a vertex under an embedding is next to the
images of its neighbors, which are candidates as far as their vertices were visited.

Main statements: `Keeps.build` and `Keeps.refine`, the index keeps the image of
every vertex and links it to the image of its parent; from them `embedding_retained`,
which says it of what can be looked up in an index, built from any root.
-/

namespace GraphDependency.Candidate.Index

open GraphDependency.Pattern GraphDependency.Matching

/-- The images of the visited vertices are candidates, and linked to the images of
their parents. -/
structure Keeps (t : Tree) (m : Embedding) (visited : List Nat) (i : Index) : Prop where
  candidate : ∀ u ∈ visited, m.image u ∈ i.candidates u
  link : ∀ u ∈ visited, ∀ p, t.parent? u = some p → i.Linked u (m.image p) (m.image u)

section Images

variable {data : Graph} {t : Tree} {m : Embedding} {i : Index} {visited : List Nat}

/-- After a write at `u` that contains its image, all images are still candidates. -/
theorem image_mem_setCandidates {u w : Nat} {c : List Nat} {hasc : c.Pairwise (· < ·)}
    (hc : u = w → m.image w ∈ c) (hw : m.image w ∈ i.candidates w) :
    m.image w ∈ (i.setCandidates u c hasc).candidates w := by
  rcases candidates_setCandidates_eq_or i u w with ⟨heq, huw⟩ | heq
  · rw [heq]
    exact hc huw
  · rwa [heq]

variable (hm : (Query.plain t.pattern data).IsEmbedding m)

include hm

/-- The image of a vertex is met in every round over candidates of its neighbors. -/
theorem image_hitEveryRound {u : Nat} (hu : u < t.pattern.size) {ws : List Nat}
    (hws : ∀ w ∈ ws, w ∈ t.pattern.neighbors u ∧ m.image w ∈ i.candidates w) :
    (RoundCounter.run data t.pattern u (ws.map i.candidates)).hitEveryRound (m.image u)
      = true := by
  refine RoundCounter.hitEveryRound_run_iff.mpr ?_
  intro s hs
  obtain ⟨w, hw, rfl⟩ := List.mem_map.mp hs
  obtain ⟨hneighbor, hcand⟩ := hws w hw
  refine RoundCounter.mem_reached_iff.mpr ⟨labelDegreeOk_image hm hu, m.image w, hcand, ?_⟩
  exact hm.mem_neighbors ((Graph.mem_neighbors_comm _).mp hneighbor)

/-! ## Building -/

theorem image_mem_rootCandidates (hroot : t.root < t.pattern.size) :
    m.image t.root ∈ rootCandidates data t := by
  refine List.mem_filter.mpr ⟨?_, ?_⟩
  · exact (Graph.mem_withLabel_iff _).mpr ⟨hm.image_lt _ hroot, hm.label_eq _ hroot⟩
  · rw [Bool.and_eq_true]
    exact ⟨labelDegreeOk_image hm hroot, verify_image hm hroot⟩

theorem image_mem_foundCandidates {u p : Nat} (hu : u < t.pattern.size)
    (hvisited : ∀ w ∈ visited, m.image w ∈ i.candidates w) (hp : p ∈ visited)
    (hpu : p ∈ t.pattern.neighbors u) :
    m.image u ∈ foundCandidates data t i visited u := by
  have haround : ∀ w ∈ (t.pattern.neighbors u).filter visited.contains,
      w ∈ t.pattern.neighbors u ∧ m.image w ∈ i.candidates w := by
    intro w hw
    obtain ⟨hneighbor, hw⟩ := List.mem_filter.mp hw
    exact ⟨hneighbor, hvisited w (by simpa using hw)⟩
  have hhit := image_hitEveryRound hm hu haround
  have hne : ((t.pattern.neighbors u).filter visited.contains).map i.candidates ≠ [] :=
    List.ne_nil_of_mem
      (List.mem_map_of_mem (List.mem_filter.mpr ⟨hpu, by simpa using hp⟩))
  refine List.mem_filter.mpr ⟨(Graph.mem_ids _).mpr (hm.image_lt u hu), ?_⟩
  rw [Bool.and_eq_true, Bool.and_eq_true, decide_eq_true_eq]
  exact ⟨⟨RoundCounter.count_run_pos hne hhit, hhit⟩, verify_image hm hu⟩

theorem image_mem_fillLevel {level : List Nat} (hsound : Sound data t i)
    (hvisited : ∀ w ∈ visited, m.image w ∈ i.candidates w)
    (hlevel : ∀ u ∈ level, u < t.pattern.size ∧ ∃ p ∈ visited, p ∈ t.pattern.neighbors u) :
    ∀ w ∈ level ++ visited, m.image w ∈ (fillLevel data t i visited level).candidates w := by
  induction level generalizing i visited with
  | nil => exact hvisited
  | cons u rest ih =>
    obtain ⟨⟨hu, p, hp, hpu⟩, hrest⟩ := List.forall_mem_cons.mp hlevel
    have hfound := image_mem_foundCandidates hm hu hvisited hp hpu
    have hwritten : ∀ w ∈ u :: visited, m.image w
        ∈ (i.setCandidates u (foundCandidates data t i visited u)
          (pairwise_foundCandidates data t i visited u)).candidates w := by
      rw [List.forall_mem_cons]
      refine ⟨?_, fun w hw => image_mem_setCandidates ?_ (hvisited w hw)⟩
      · rwa [candidates_setCandidates i (hsound.size_candidateTable ▸ hu), if_pos rfl]
      · rintro rfl
        exact hfound
    intro w hw
    refine ih (hsound.foundCandidates visited u) hwritten (fun v hv => ?_) w (by grind)
    obtain ⟨hlt, p, hp, hpv⟩ := hrest v hv
    exact ⟨hlt, p, List.mem_cons_of_mem _ hp, hpv⟩

theorem image_mem_dropPending {u : Nat} {behind : List Nat} (hu : u < t.pattern.size)
    (hvisited : ∀ w ∈ visited, m.image w ∈ i.candidates w) (hsub : ∀ w ∈ behind, w ∈ visited) :
    ∀ w ∈ visited, m.image w ∈ (dropPending data t i u behind).candidates w := by
  intro w hw
  unfold dropPending
  split
  · exact hvisited w hw
  · refine image_mem_setCandidates ?_ (hvisited w hw)
    rintro rfl
    refine List.mem_filter.mpr ⟨hvisited _ hw, image_hitEveryRound hm hu ?_⟩
    intro w hw
    obtain ⟨hneighbor, hok⟩ := List.mem_filter.mp hw
    rw [Bool.and_eq_true, List.contains_iff_mem] at hok
    exact ⟨hneighbor, hvisited w (hsub w hok.1)⟩

theorem image_mem_settleLevel {level : List Nat}
    (hvisited : ∀ w ∈ visited, m.image w ∈ i.candidates w)
    (hlevel : ∀ u ∈ level, u < t.pattern.size ∧ u ∈ visited) :
    ∀ w ∈ visited, m.image w ∈ (settleLevel data t i level).candidates w := by
  induction level with
  | nil => exact hvisited
  | cons u behind ih =>
    obtain ⟨hu, hbehind⟩ := List.forall_mem_cons.mp hlevel
    exact image_mem_dropPending hm hu.1 (ih hbehind) fun w hw => (hbehind w hw).2

omit hm in
theorem Keeps.of_subset {visited' : List Nat} (h : Keeps t m visited i)
    (hsub : ∀ u ∈ visited', u ∈ visited) : Keeps t m visited' i :=
  ⟨fun u hu => h.candidate u (hsub u hu), fun u hu => h.link u (hsub u hu)⟩

variable (ht : Tree.build? t.pattern t.root = some t)

include ht

theorem image_mem_buildLevels (hsound : Sound data t i) {levels : List (List Nat)}
    (hlayered : Layered t visited levels) (h : ∀ w ∈ visited, m.image w ∈ i.candidates w) :
    ∀ w ∈ levels.flatten ++ visited,
      m.image w ∈ (buildLevels data t i visited levels).candidates w := by
  induction levels generalizing i visited with
  | nil => exact h
  | cons level rest ih =>
    obtain ⟨hlevel, hrest⟩ := hlayered
    have hfill := image_mem_fillLevel hm hsound h fun u hu => by
      obtain ⟨hlt, p, hp, hup⟩ := hlevel u hu
      exact ⟨hlt, p, hp, (Tree.parent?_eq_some ht hup).1⟩
    have hsettle := image_mem_settleLevel hm hfill fun u hu =>
      ⟨(hlevel u hu).1, List.mem_append_left visited hu⟩
    have hbuilt : ∀ w ∈ level ++ visited,
        m.image w ∈ (buildLevel data t i visited level).candidates w := fun w hw => by
      rw [buildLevel, candidates_foldl_linkVertex]
      exact hsettle w hw
    intro w hw
    refine ih (hsound.buildLevel visited level) hrest hbuilt w ?_
    rw [List.flatten_cons, List.append_assoc] at hw
    simp only [List.mem_append] at hw ⊢
    tauto

/-- The image of every vertex that the root reaches is found. -/
theorem image_mem_build :
    ∀ u ∈ t.levels.flatten, m.image u ∈ (Index.build data t).candidates u := by
  have hsound : Sound data t
      ((Index.empty t.pattern.size).setCandidates t.root (rootCandidates data t)
        (pairwise_rootCandidates data t)) :=
    (Sound.empty data t).rootCandidates
  have hsize : t.root < (Index.empty t.pattern.size).candidateTable.size := by
    rw [(Sound.empty data t).size_candidateTable]
    exact Tree.root_lt ht
  have hbegin : ∀ u ∈ [t.root], m.image u ∈ ((Index.empty t.pattern.size).setCandidates t.root
      (rootCandidates data t) (pairwise_rootCandidates data t)).candidates u := by
    intro u hu
    rw [List.mem_singleton.mp hu, candidates_setCandidates _ hsize, if_pos rfl]
    exact image_mem_rootCandidates hm (Tree.root_lt ht)
  intro u hu
  refine image_mem_buildLevels hm ht hsound (layered_levels ht) hbegin u ?_
  rw [Tree.levels_eq_cons ht, List.flatten_cons] at hu
  exact List.mem_append.mpr (List.mem_append.mp hu).symm

/-- Building keeps the images of all vertices of the tree. -/
theorem Keeps.build : Keeps t m t.levels.flatten (Index.build data t) where
  candidate := image_mem_build hm ht
  link u hu p hp := by
    obtain ⟨label, hlabel⟩ := Tree.exists_edgeLabel?_parent ht hp
    have hparent := image_mem_build hm ht p (Tree.mem_flatten_levels_of_parent? ht hp).1
    exact (linked_build_iff ht data hp hlabel).mpr
      ⟨hparent, image_mem_build hm ht u hu, hm.edgeLabel?_eq hlabel⟩

/-! ## Refining -/

/-- A step upwards at a vertex does not drop its image. -/
theorem image_not_mem_droppedAt (h : Keeps t m t.pattern.ids i) (hsound : Sound data t i)
    {u : Nat} (hu : u < t.pattern.size) : m.image u ∉ droppedAt data t i u := by
  refine not_mem_droppedAt ht hsound (labelDegreeOk_image hm hu) fun c hc => ?_
  have hids : c ∈ t.pattern.ids := (Graph.mem_ids _).mpr (child_lt_size ht hc)
  exact ⟨m.image c, h.candidate c hids, h.link c hids u ((Tree.mem_children_iff ht).mp hc)⟩

theorem Keeps.pruneUp (h : Keeps t m t.pattern.ids i) (hsound : Sound data t i) (u : Nat) :
    Keeps t m t.pattern.ids (Index.pruneUp data t i u) where
  candidate w hw := by
    refine (mem_candidates_pruneUp_iff ht hsound).mpr ⟨h.candidate w hw, ?_⟩
    rintro rfl
    exact image_not_mem_droppedAt hm ht h hsound ((Graph.mem_ids _).mp hw)
  link w hw p hp := by
    refine (linked_pruneUp_iff ht hsound).mpr ⟨h.link w hw p hp, fun hwu => ?_⟩
    obtain rfl : p = u := Option.some.inj (hp.symm.trans hwu)
    exact ⟨image_not_mem_droppedAt hm ht h hsound (Tree.parent?_lt_size ht hp).1,
      h.candidate w hw⟩

omit hm in
theorem Keeps.pruneDown (h : Keeps t m t.pattern.ids i) (hsound : Sound data t i) (u : Nat) :
    Keeps t m t.pattern.ids (Index.pruneDown t i u) := by
  cases hp : t.parent? u with
  | none => simpa [Index.pruneDown, hp] using h
  | some p =>
    obtain ⟨hpn, hun⟩ := Tree.parent?_lt_size ht hp
    have hcand : m.image p ∈ i.candidates p := h.candidate p ((Graph.mem_ids _).mpr hpn)
    constructor
    · intro w hw
      refine (mem_candidates_pruneDown_iff hsound hun hp).mpr ⟨h.candidate w hw, ?_⟩
      rintro rfl
      exact ⟨m.image p, hcand, h.link u hw p hp⟩
    · intro w hw q hq
      refine (linked_pruneDown_iff hsound hun hp).mpr ⟨h.link w hw q hq, ?_⟩
      rintro rfl
      obtain rfl : q = p := Option.some.inj (hq.symm.trans hp)
      exact hcand

/-- Refining keeps the images of all vertices. -/
theorem Keeps.refine (h : Keeps t m t.pattern.ids i) (hsound : Sound data t i) :
    Keeps t m t.pattern.ids (Index.refine data t i) := by
  have hup := List.foldlRecOn
    (motive := fun i => Keeps t m t.pattern.ids i ∧ Sound data t i)
    t.levels.reverse.flatten (Index.pruneUp data t) ⟨h, hsound⟩
    fun _ hi u _ => ⟨hi.1.pruneUp hm ht hi.2 u,
      hi.2.pruneUp (fun _ _ hc => child_lt_size ht hc) u⟩
  exact (List.foldlRecOn
    (motive := fun i => Keeps t m t.pattern.ids i ∧ Sound data t i)
    t.levels.tail.flatten (Index.pruneDown t) hup
    fun _ hi u _ => ⟨hi.1.pruneDown ht hi.2 u, hi.2.pruneDown u⟩).1

end Images

end GraphDependency.Candidate.Index

namespace GraphDependency.Candidate

open GraphDependency.Pattern GraphDependency.Matching

/-! ## From building to refining -/

section Prepared

variable {data : Graph} {t : Tree} (ht : Tree.build? t.pattern t.root = some t)

include ht

/-- The index from which a pattern is matched. -/
theorem sound_refine_build (data : Graph) : ((Index.build data t).refine data t).Sound data t :=
  (Index.Sound.build data t).refine fun _ _ hc => Index.child_lt_size ht hc

/-- The index of a connected pattern keeps the images of all vertices. -/
theorem keeps_refine_build (hconn : t.pattern.isConnected = true) {m : Embedding}
    (hm : (Query.plain t.pattern data).IsEmbedding m) :
    (Index.build data t).Keeps t m t.pattern.ids
      ∧ ((Index.build data t).refine data t).Keeps t m t.pattern.ids := by
  have hbuild : (Index.build data t).Keeps t m t.pattern.ids :=
    (Index.Keeps.build hm ht).of_subset fun u hu =>
      (Tree.mem_flatten_levels ht hconn).mpr ((Graph.mem_ids _).mp hu)
  exact ⟨hbuild, hbuild.refine hm ht (Index.Sound.build data t)⟩

/-- What an index keeps can be looked up in it. -/
theorem Index.Keeps.mem_linked {m : Embedding} {i : Index} (h : i.Keeps t m t.pattern.ids)
    {u p : Nat} (hp : t.parent? u = some p) :
    m.image u ∈ i.linked u (m.image p) := by
  refine Index.mem_linked_iff.mpr (h.link u ?_ p hp)
  exact (Graph.mem_ids _).mpr (Tree.parent?_lt_size ht hp).2

end Prepared

/-- No embedding is filtered out.  From every root, the images of all vertices pass the
local filters, are candidates and are linked to the images of the parents, as soon as the
index is built and still when it is refined. -/
theorem embedding_retained (data pattern : Graph) (hconn : pattern.isConnected = true)
    (root : Nat) (hroot : root < pattern.size) (m : Embedding)
    (hm : (Query.plain pattern data).IsEmbedding m) :
    (∀ u < pattern.size, labelDegreeOk data (m.image u) pattern u = true
        ∧ verify data (m.image u) pattern u = true)
      ∧ ∃ t, Tree.build? pattern root = some t
        ∧ ∀ i ∈ [Index.build data t, (Index.build data t).refine data t],
          (∀ u < pattern.size, m.image u ∈ i.candidates u)
            ∧ ∀ u p, t.parent? u = some p → m.image u ∈ i.linked u (m.image p) := by
  refine ⟨fun u hu => ⟨labelDegreeOk_image hm hu, verify_image hm hu⟩, ?_⟩
  obtain ⟨t, ht⟩ : ∃ t, Tree.build? pattern root = some t := by simp [Tree.build?, hroot]
  obtain rfl := Tree.pattern_eq ht
  obtain rfl := Tree.root_eq ht
  obtain ⟨hbuild, hrefine⟩ := keeps_refine_build ht hconn hm
  refine ⟨t, ht, List.forall_mem_cons.mpr ⟨⟨fun u hu => ?_, fun u p hp => ?_⟩,
    List.forall_mem_singleton.mpr ⟨fun u hu => ?_, fun u p hp => ?_⟩⟩⟩
  · exact hbuild.candidate u ((Graph.mem_ids _).mpr hu)
  · exact hbuild.mem_linked ht hp
  · exact hrefine.candidate u ((Graph.mem_ids _).mpr hu)
  · exact hrefine.mem_linked ht hp

/-- From its second vertex, a segment is kept on its way into itself. -/
theorem embedding_retained_segment :
    let pattern := Graph.segment "a" "b" "e"
    pattern.isConnected = true ∧ 1 < pattern.size
      ∧ (Query.plain pattern pattern).IsEmbedding #[0, 1]
      ∧ ∃ t, Tree.build? pattern 1 = some t ∧ t.parent? 0 = some 1
        ∧ 0 ∈ ((Index.build pattern t).refine pattern t).linked 0 1 := by
  intro pattern
  have hconn : pattern.isConnected = true := by decide
  have hroot : 1 < pattern.size := by decide
  have hm : (Query.plain pattern pattern).IsEmbedding #[0, 1] := isEmbedding_segment _ _ _
  obtain ⟨-, t, ht, hkept⟩ := embedding_retained pattern pattern hconn 1 hroot #[0, 1] hm
  have hp : t.parent? 0 = some 1 := by
    rw [(Tree.build?_eq_some_iff.mp ht).2]
    decide
  exact ⟨hconn, hroot, hm, t, ht, hp, (hkept _ (by simp)).2 0 1 hp⟩

end GraphDependency.Candidate
