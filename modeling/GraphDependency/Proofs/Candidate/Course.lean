import GraphDependency.Candidate.Course
import GraphDependency.Proofs.Candidate.Completeness
import GraphDependency.Proofs.Candidate.Order
import GraphDependency.Proofs.Matching.Embedding

set_option autoImplicit false

/-!
# Enumerating along an index

Behind vertices that are placed, the links of the next one lead from the image of
its parent, and its checks are its other neighbors among the placed ones.  So an
index that contains only what belongs there, and everything that an embedding
needs, offers what it should.

Main statements: `along_stops` (what the stops of a matching order ask for) and
`exact_choices` (the choices of an index are right for the pattern).
-/

namespace GraphDependency.Candidate

open GraphDependency.Matching GraphDependency.Matching.Placement GraphDependency.Pattern

/-- The vertices of the stops are new, their parents are placed before them, and each
stop checks the other neighbors placed before it. -/
def Along (t : Tree) : List Stop → List Nat → Prop
  | [], _ => True
  | s :: rest, placed =>
    s.vertex < t.pattern.size ∧ s.vertex ∉ placed ∧ s.parent? = t.parent? s.vertex
      ∧ (∀ p, s.parent? = some p → p ∈ placed)
      ∧ (∀ w label, (w, label) ∈ s.checks
          ↔ w ∈ placed ∧ s.parent? ≠ some w ∧ t.pattern.edgeLabel? w s.vertex = some label)
      ∧ Along t rest (s.vertex :: placed)

variable {t : Tree}

@[simp] theorem map_vertex_stopsAfter (t : Tree) (before rest : List Nat) :
    (stopsAfter t before rest).map Stop.vertex = rest := by
  induction rest generalizing before with
  | nil => rfl
  | cons u rest ih => rw [stopsAfter, List.map_cons, ih]

theorem along_stopsAfter {before rest placed : List Nat} (hmem : ∀ w, w ∈ placed ↔ w ∈ before)
    (hnodup : rest.Nodup) (hnew : ∀ u ∈ rest, u ∉ before) (hlt : ∀ u ∈ rest, u < t.pattern.size)
    (hfirst : ParentsFirst t before rest) : Along t (stopsAfter t before rest) placed := by
  induction rest generalizing before placed with
  | nil => trivial
  | cons u rest ih =>
    obtain ⟨hu, hnodup⟩ := List.nodup_cons.mp hnodup
    obtain ⟨hnewu, hnew⟩ := List.forall_mem_cons.mp hnew
    obtain ⟨hltu, hlt⟩ := List.forall_mem_cons.mp hlt
    refine ⟨hltu, fun h => hnewu ((hmem u).mp h), rfl, fun p hp => (hmem p).mpr (hfirst.1 p hp),
      fun w label => ?_, ih (fun w => ?_) hnodup (fun w hw => ?_) hlt (hfirst.2.of_subset ?_)⟩
    · simp only [List.mem_filterMap, List.mem_filter, bne_iff_ne, Option.map_eq_some_iff,
        Prod.mk.injEq, hmem]
      constructor
      · rintro ⟨w', ⟨hw, hne⟩, label', hl, rfl, rfl⟩
        exact ⟨hw, hne, hl⟩
      · rintro ⟨hw, hne, hl⟩
        exact ⟨w, ⟨hw, hne⟩, label, hl, rfl, rfl⟩
    · rw [List.mem_cons, List.mem_append, List.mem_singleton, hmem, or_comm]
    · rw [List.mem_append, List.mem_singleton]
      rintro (h | rfl)
      · exact hnew w hw h
      · exact hu hw
    · intro w hw
      exact List.mem_append.mpr ((List.mem_cons.mp hw).symm.imp id List.mem_singleton.mpr)

/-- The stops of a matching order know the neighbors before them. -/
theorem along_stops {order : Order} (h : Grown t order.sequence) :
    Along t (stops t order) [] :=
  along_stopsAfter (fun _ => Iff.rfl) h.nodup (fun _ _ => List.not_mem_nil) h.lt_size
    h.parents_first

/-- The stops of a complete order list every vertex once. -/
theorem perm_stops {d : Decomposition} {order : Order} (h : order.Complete t d) :
    ((stops t order).map Stop.vertex).Perm t.pattern.ids := by
  rw [stops, map_vertex_stopsAfter]
  refine (List.perm_ext_iff_of_nodup h.grown.nodup t.pattern.nodup_ids).mpr ?_
  intro u
  rw [Graph.mem_ids]
  exact ⟨h.grown.lt_size u, h.mem u⟩

/-! ## Choices -/

variable {data : Graph} {i : Index} {p : Placement} {s : Stop} {rest : List Stop} {v : Nat}

theorem source_ascending (i : Index) (s : Stop) (image : Nat → Nat) :
    (s.source i image).Pairwise (· < ·) := by
  unfold Stop.source
  split
  · exact i.candidates_ascending _
  · exact i.linked_ascending _ _

theorem choices_ascending (data : Graph) (i : Index) (p : Placement) (s : Stop) :
    (choices data i p s).Pairwise (· < ·) :=
  (source_ascending i s p.image).filter _

theorem accepts_iff {image : Nat → Nat} :
    s.accepts data image v = true
      ↔ ∀ w label, (w, label) ∈ s.checks → data.edgeLabel? (image w) v = some label := by
  simp [Stop.accepts]

/-- What a sound index offers carries the label of the pattern vertex and is joined to
the image of its parent. -/
theorem of_mem_source {image : Nat → Nat} (hsound : i.Sound data t)
    (hparent : s.parent? = t.parent? s.vertex) (hv : v ∈ s.source i image) :
    v < data.size ∧ data.label v = t.pattern.label s.vertex
      ∧ ∀ w, s.parent? = some w → ∀ label, t.pattern.edgeLabel? w s.vertex = some label →
        data.edgeLabel? (image w) v = some label := by
  unfold Stop.source at hv
  split at hv
  · rename_i hnone
    obtain ⟨hlt, hlabel⟩ := hsound.candidate _ _ hv
    refine ⟨hlt, hlabel, ?_⟩
    intro w hw
    rw [hnone] at hw
    cases hw
  · rename_i w hw
    obtain ⟨ys, hys, hy⟩ := Index.mem_linked_iff.mp hv
    obtain ⟨hlabel, w', label, hw', hl, hdata⟩ := hsound.link _ _ _ hys v hy
    obtain rfl : w = w' := Option.some.inj ((hw.symm.trans hparent).trans hw')
    refine ⟨data.lt_size_of_mem_neighbors (data.mem_neighbors_of_edgeLabel? hdata), hlabel, ?_⟩
    intro x hx label' hl'
    obtain rfl : w = x := Option.some.inj (hw.symm.trans hx)
    obtain rfl : label = label' := Option.some.inj (hl.symm.trans hl')
    exact hdata

/-- The image of a vertex is offered behind the image of its parent. -/
theorem image_mem_source {image : Nat → Nat} {m : Embedding}
    (hkeep : i.Keeps t m t.pattern.ids) (hlt : s.vertex < t.pattern.size)
    (hparent : s.parent? = t.parent? s.vertex)
    (himage : ∀ w, s.parent? = some w → image w = m.image w) :
    m.image s.vertex ∈ s.source i image := by
  have hid : s.vertex ∈ t.pattern.ids := (Graph.mem_ids _).mpr hlt
  unfold Stop.source
  split
  · exact hkeep.candidate _ hid
  · rename_i w hw
    rw [himage w hw]
    exact Index.mem_linked_iff.mpr (hkeep.link _ hid w (hparent ▸ hw))

/-- The choices of an index are right for the pattern, if the index contains only what
belongs there and everything that an embedding needs. -/
theorem exact_choices (hsound : i.Sound data t)
    (hkeeps : ∀ m, (Query.plain t.pattern data).IsEmbedding m → i.Keeps t m t.pattern.ids) :
    (Query.plain t.pattern data).Exact Stop.vertex (choices data i) (Along t) where
  nodup p s := (choices_ascending data i p s).imp Nat.ne_of_lt
  ready _ _ _ halong := ⟨halong.1, halong.2.1, halong.2.2.2.2.2⟩
  sound := by
    rintro s rest p v ⟨hlt, hkey, hparent, -, hchecks, -⟩ hp hv
    obtain ⟨hsource, huses, haccepts⟩ := mem_choices_iff.mp hv
    have hchecked := accepts_iff.mp haccepts
    obtain ⟨hv, hlabel, hlink⟩ := of_mem_source hsound hparent hsource
    refine hp.cons hlt hv hkey (uses_eq_false_iff.mp huses) hlabel rfl ?_
    rintro ⟨w, x⟩ hf label hl
    have hw : w ∈ p.keys := List.mem_map.mpr ⟨_, hf, rfl⟩
    rw [Graph.edgeLabel?_comm] at hl
    refine ⟨label, ?_, by simp [Query.plain, Query.equalLabels]⟩
    rw [Graph.edgeLabel?_comm, ← image_of_mem hp.nodup_keys hf]
    by_cases hwp : s.parent? = some w
    · exact hlink w hwp label hl
    · exact hchecked w label ((hchecks w label).mpr ⟨hw, hwp, hl⟩)
  complete := by
    rintro s rest p m ⟨hlt, hkey, hparent, hplaced, hchecks, -⟩ hm hagree
    refine mem_choices_iff.mpr ⟨?_, ?_, accepts_iff.mpr fun w label hw => ?_⟩
    · exact image_mem_source (hkeeps m hm) hlt hparent fun w hw =>
        hagree.image (hplaced w hw)
    · exact uses_eq_false_iff.mpr (hagree.not_mem_images hm hlt hkey)
    · obtain ⟨hw, -, hl⟩ := (hchecks w label).mp hw
      rw [hagree.image hw]
      exact hm.edgeLabel?_eq hl

/-! ## A prepared pattern -/

section Prepared

variable (ht : Tree.build? t.pattern t.root = some t) (hconn : t.pattern.isConnected = true)
  (data : Graph)

include ht

include hconn

/-- The choices of an index built and refined for a connected pattern are right for it. -/
theorem exact_refine_build :
    (Query.plain t.pattern data).Exact Stop.vertex
      (choices data ((Index.build data t).refine data t)) (Along t) :=
  exact_choices (sound_refine_build ht data) fun _ hm => (keeps_refine_build ht hconn hm).2

end Prepared

end GraphDependency.Candidate
