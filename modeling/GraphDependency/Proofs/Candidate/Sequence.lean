import GraphDependency.Proofs.Candidate.CoreOrder
import GraphDependency.Proofs.Pattern.Forest

set_option autoImplicit false

/-!
# The sequence of a matching order

A list with parents first begins with the one vertex that has none.  Its first part is what
the paths of the core place, that is the core if the root is in it; and the tree takes every
edge that is not in the core.

Main statement: `matchingOrder_exact`.
-/

namespace GraphDependency.Candidate

open GraphDependency.Graph GraphDependency.Pattern

variable {t : Tree} {sequence : List Nat}

section Tree

variable (ht : Tree.build? t.pattern t.root = some t) (hconn : t.pattern.isConnected = true)

include ht hconn

theorem head?_of_parentsFirst (h : ParentsFirst t [] sequence) (hne : sequence ≠ [])
    (hlt : ∀ u ∈ sequence, u < t.pattern.size) : sequence.head? = some t.root := by
  match sequence with
  | [] => exact absurd rfl hne
  | u :: back =>
    have hnone : t.parent? u = none := by
      cases hp : t.parent? u with
      | none => rfl
      | some p => exact absurd (h.1 p hp) List.not_mem_nil
    rw [List.head?_cons, (Tree.parent?_eq_none_iff ht hconn (hlt u List.mem_cons_self)).mp hnone]

omit hconn in
/-- Every path has a vertex, and an index over the pattern has an entry for each of them. -/
theorem lt_size_of_mem_treePaths {members path : List Nat} {top : Nat}
    (hmembers : members ∈ (decompose t.pattern).core :: (decompose t.pattern).forest)
    (hpath : path ∈ treePaths t members top) : path ≠ [] ∧ ∀ u ∈ path, u < t.pattern.size := by
  have hlt : ∀ u ∈ members, u < t.pattern.size := by
    intro u hu
    cases List.mem_cons.mp hmembers with
    | inl heq => exact mem_core_lt (heq ▸ hu)
    | inr hentry => exact mem_forest_lt hentry hu
  obtain ⟨leaf, hleaf, rfl⟩ := List.mem_map.mp hpath
  have hself := mem_climb_self t top t.levels.length leaf
  refine ⟨List.ne_nil_of_mem (List.mem_reverse.mpr hself), fun u hu => ?_⟩
  exact lt_size_of_mem_climb ht (hlt leaf (List.mem_of_mem_filter hleaf)) (List.mem_reverse.mp hu)

/-- The first part is what the paths of the core place. -/
theorem take_coreLength (i : Index) :
    (matchingOrder t (decompose t.pattern) i).sequence.take
        (matchingOrder t (decompose t.pattern) i).coreLength
      = placeCore i t (treePaths t (decompose t.pattern).core t.root) := by
  obtain ⟨hgrown, hcore⟩ := grown_placeCore ht hconn i fun u hu => mem_core_lt (g := t.pattern) hu
  obtain ⟨-, hfront, -⟩ := grown_foldl_placeEntry ht hconn i (marked_decompose t.pattern)
    hgrown hcore fun entry he u hu => mem_forest_lt (g := t.pattern) he hu
  exact (List.prefix_iff_eq_take.mp hfront).symm

/-- From a root in the core, the first part is the core. -/
theorem perm_take_coreLength (hroot : t.root ∈ (decompose t.pattern).core) (i : Index) :
    ((matchingOrder t (decompose t.pattern) i).sequence.take
        (matchingOrder t (decompose t.pattern) i).coreLength).Perm (decompose t.pattern).core := by
  obtain ⟨hgrown, hcore⟩ := grown_placeCore ht hconn i fun u hu => mem_core_lt (g := t.pattern) hu
  have hnodup : (decompose t.pattern).core.Nodup := (pairwise_core t.pattern).imp Nat.ne_of_lt
  rw [take_coreLength ht hconn, List.perm_ext_iff_of_nodup hgrown.nodup hnodup]
  exact fun u => ⟨mem_core_of_mem_placeCore ht hconn hroot, hcore u⟩

/-- From a root in the core, an edge that is left out of the tree has both ends in the core. -/
theorem mem_core_of_mem_nonTreeEdges (hroot : t.root ∈ (decompose t.pattern).core)
    {e : Nat × Nat} (he : e ∈ t.nonTreeEdges) :
    e.1 ∈ (decompose t.pattern).core ∧ e.2 ∈ (decompose t.pattern).core := by
  obtain ⟨hmem, hout⟩ := List.mem_filter.mp he
  obtain ⟨edge, hedge, rfl⟩ := List.mem_map.mp hmem
  have hadj : edge.second ∈ t.pattern.neighbors edge.first :=
    (mem_neighbors_iff _).mpr ⟨edge, Array.mem_toList_iff.mp hedge, Or.inl ⟨rfl, rfl⟩⟩
  by_contra hcore
  rw [(onTop_core ht hconn hroot).isTreeEdge _ _ hadj hcore] at hout
  cases hout

end Tree

/-- What the matching order of a connected pattern is, whatever the index promises.  The index
is asked for vertices on the paths only, and these are vertices of the pattern. -/
theorem matchingOrder_exact (g : Graph) (hconn : g.isConnected = true) (root : Nat)
    (hroot : root < g.size) (i : Index) :
    ∃ t, Tree.build? g root = some t ∧
      let order := matchingOrder t (decompose g) i
      order.sequence.Perm g.ids
        ∧ order.sequence.head? = some root
        ∧ (∀ front u back, order.sequence = front ++ u :: back →
            ∀ p, t.parent? u = some p → p ∈ front)
        ∧ (root ∈ (decompose g).core →
            (order.sequence.take order.coreLength).Perm (decompose g).core
              ∧ ∀ e ∈ t.nonTreeEdges, e.1 ∈ order.sequence.take order.coreLength
                  ∧ e.2 ∈ order.sequence.take order.coreLength)
        ∧ ∀ members ∈ (decompose g).core :: (decompose g).forest, ∀ top,
            ∀ path ∈ treePaths t members top, path ≠ [] ∧ ∀ u ∈ path, u < g.size := by
  obtain ⟨t, ht⟩ : ∃ t, Tree.build? g root = some t := ⟨_, if_pos hroot⟩
  obtain rfl := Tree.pattern_eq ht
  obtain rfl := Tree.root_eq ht
  obtain ⟨hgrown, hmem, -, -⟩ := matchingOrder_complete ht hconn i
  refine ⟨t, ht, ?_, ?_, fun front u back heq p hp => ?_, fun hcore => ?_,
    fun members hmembers top path hpath => lt_size_of_mem_treePaths ht hmembers hpath⟩
  · rw [List.perm_ext_iff_of_nodup hgrown.nodup (nodup_ids _)]
    exact fun u => ⟨fun h => (mem_ids _).mpr (hgrown.lt_size u h),
      fun h => hmem u ((mem_ids _).mp h)⟩
  · exact head?_of_parentsFirst ht hconn hgrown.parents_first
      (List.ne_nil_of_mem (hmem _ hroot)) hgrown.lt_size
  · exact (heq ▸ hgrown.parents_first : ParentsFirst t [] _).parent_mem hp
  · have hperm := perm_take_coreLength ht hconn hcore i
    refine ⟨hperm, fun e he => ?_⟩
    obtain ⟨hfirst, hsecond⟩ := mem_core_of_mem_nonTreeEdges ht hconn hcore he
    exact ⟨hperm.mem_iff.mpr hfirst, hperm.mem_iff.mpr hsecond⟩

/-- From a corner of its triangle, the tadpole is matched triangle first. -/
theorem matchingOrder_exact_tadpole : tadpole.isConnected = true ∧ 0 < tadpole.size
    ∧ 0 ∈ (decompose tadpole).core
    ∧ ∃ t, Tree.build? tadpole 0 = some t ∧
      let order := matchingOrder t (decompose tadpole) (Index.empty 5)
      order.sequence.Perm [0, 1, 2, 3, 4]
        ∧ order.sequence.head? = some 0
        ∧ (order.sequence.take order.coreLength).Perm [0, 1, 2] := by
  have hconn : tadpole.isConnected = true := by decide
  have hroot : 0 < tadpole.size := Nat.succ_pos 4
  have hcore : 0 ∈ (decompose tadpole).core := decompose_tadpole ▸ List.mem_cons_self
  obtain ⟨t, ht, hperm, hhead, -, hfirst, -⟩ :=
    matchingOrder_exact tadpole hconn 0 hroot (Index.empty 5)
  refine ⟨hconn, hroot, hcore, t, ht, hperm, hhead, ?_⟩
  have hpart := (hfirst hcore).1
  rwa [decompose_tadpole] at hpart ⊢

end GraphDependency.Candidate
