import GraphDependency.Proofs.Candidate.Cursor
import GraphDependency.Validation.Indexed

set_option autoImplicit false

/-!
# Running along a whole course

A cursor that runs through all positions of a course meets the same placements as a
search that explores its stops, in the same order.

Main statements: `closed_ofOrder` (a matching order makes a course that refers
backwards only), `drain_start` (what a new cursor runs through) and `drain_exact`.
-/

namespace GraphDependency.Candidate

open GraphDependency.Matching GraphDependency.Matching.Placement GraphDependency.Pattern
  GraphDependency.Validation

/-! ## The course of an order -/

theorem Along.drop {t : Tree} {front rest : List Stop} {placed : List Nat}
    (h : Along t (front ++ rest) placed) :
    Along t rest ((front.map Stop.vertex).reverse ++ placed) := by
  induction front generalizing placed with
  | nil => exact h
  | cons s front ih =>
    rw [List.map_cons, List.reverse_cons, List.append_assoc]
    exact ih h.2.2.2.2.2

section Course

variable {data : Graph} {i : Index} {t : Tree} {order : Order}

@[simp] theorem length_ofOrder :
    (Course.ofOrder data i t order).length = order.sequence.length := by
  rw [Course.length, Course.ofOrder, List.size_toArray,
    ← List.length_map Stop.vertex, stops, map_vertex_stopsAfter]

theorem stops_ofOrder (data : Graph) (i : Index) (t : Tree) (order : Order) :
    (Course.ofOrder data i t order).stopsFrom 0 order.sequence.length = stops t order := by
  have hlength : (stops t order).length = order.sequence.length := by
    rw [← List.length_map Stop.vertex, stops, map_vertex_stopsAfter]
  refine List.ext_getElem (by simp [Course.stopsFrom, hlength]) ?_
  intro pos _ hpos
  simp [Course.stopsFrom, Course.stop, Course.ofOrder, hpos]

theorem stopsFrom_append (k : Course) {m n : Nat} (hle : m ≤ n) :
    k.stopsFrom 0 m ++ k.stopsFrom m (n - m) = k.stopsFrom 0 n := by
  rw [Course.stopsFrom, Course.stopsFrom, Course.stopsFrom, ← List.map_append]
  congr 1
  have := List.range'_append_1 (s := 0) (m := m) (n := n - m)
  rwa [Nat.zero_add, Nat.add_sub_cancel' hle] at this

/-- The stop at a position, with the vertices before it. -/
theorem along_ofOrder (data : Graph) (i : Index) (h : Grown t order.sequence) {pos : Nat}
    (hpos : pos < order.sequence.length) :
    ((Course.ofOrder data i t order).stop pos).vertex = order.sequence[pos]
      ∧ ∃ rest, Along t ((Course.ofOrder data i t order).stop pos :: rest)
        (order.sequence.take pos).reverse := by
  have hvertices : (stops t order).map Stop.vertex = order.sequence :=
    map_vertex_stopsAfter t [] order.sequence
  have hlt : pos < (stops t order).length := by
    rwa [← List.length_map Stop.vertex, hvertices]
  have hstop : (Course.ofOrder data i t order).stop pos = (stops t order)[pos] := by
    simp [Course.stop, Course.ofOrder, hlt]
  refine ⟨?_, (stops t order).drop (pos + 1), ?_⟩
  · rw [hstop, ← List.getElem_map Stop.vertex]
    · simp [hvertices]
    · rwa [List.length_map]
  · have halong := along_stops h
    rw [← List.take_append_drop pos (stops t order), List.drop_eq_getElem_cons hlt] at halong
    have hrest := halong.drop
    rwa [List.map_take, hvertices, List.append_nil, ← hstop] at hrest

/-- The course of an order that lists parents first refers backwards only. -/
theorem closed_ofOrder (data : Graph) (i : Index) (h : Grown t order.sequence) :
    (Course.ofOrder data i t order).Closed := by
  -- What is listed before a position is the vertex of some position before it.
  have hbefore : ∀ pos < order.sequence.length, ∀ w ∈ (order.sequence.take pos).reverse,
      ∃ j < pos, ((Course.ofOrder data i t order).stop j).vertex = w := by
    intro pos hpos w hw
    obtain ⟨j, hj, rfl⟩ := List.mem_take_iff_getElem.mp (List.mem_reverse.mp hw)
    exact ⟨j, by omega, (along_ofOrder data i h (by omega)).1⟩
  constructor
  · intro pos hpos
    rw [length_ofOrder] at hpos
    obtain ⟨-, rest, halong⟩ := along_ofOrder data i h hpos
    exact halong.1
  · intro m hm n hn heq
    rw [length_ofOrder] at hm hn
    rw [(along_ofOrder data i h hm).1, (along_ofOrder data i h hn).1] at heq
    exact (h.nodup.getElem_inj_iff).mp heq
  · intro pos hpos p hp
    rw [length_ofOrder] at hpos
    obtain ⟨-, rest, halong⟩ := along_ofOrder data i h hpos
    exact hbefore pos hpos p (halong.2.2.2.1 p hp)
  · rintro pos hpos ⟨w, label⟩ he
    rw [length_ofOrder] at hpos
    obtain ⟨-, rest, halong⟩ := along_ofOrder data i h hpos
    exact hbefore pos hpos w ((halong.2.2.2.2.1 w label).mp he).1

/-- The course of a complete order comes to every vertex. -/
theorem exists_stop_ofOrder (data : Graph) (i : Index) {d : Decomposition}
    (h : order.Complete t d) (u : Nat) (hu : u < t.pattern.size) :
    ∃ pos < (Course.ofOrder data i t order).length,
      ((Course.ofOrder data i t order).stop pos).vertex = u := by
  obtain ⟨pos, hpos, rfl⟩ := List.mem_iff_getElem.mp (h.mem u hu)
  exact ⟨pos, by rwa [length_ofOrder], (along_ofOrder data i h.grown hpos).1⟩

/-- The course of a complete order comes to the core first. -/
theorem exists_core_stop_ofOrder (data : Graph) (i : Index) {d : Decomposition}
    (h : order.Complete t d) (u : Nat) (hu : u ∈ d.core) :
    ∃ pos < order.coreLength, ((Course.ofOrder data i t order).stop pos).vertex = u := by
  obtain ⟨pos, hpos, rfl⟩ := List.mem_take_iff_getElem.mp (h.core u hu)
  exact ⟨pos, by omega, (along_ofOrder data i h.grown (by omega)).1⟩

end Course

/-! ## Draining -/

namespace Cursor

variable {k : Course} {c : Cursor}

/-- On a course through all pattern vertices, a cursor that holds data vertices at all
positions has the embedding of its placement as images. -/
theorem mapping_eq {busy : List Nat} {pos hi : Nat}
    (hcover : ∀ u < k.patternSize, ∃ pos < k.length, (k.stop pos).vertex = u)
    (h : At k busy pos hi c) :
    c.mapping = (c.placement k k.length).toEmbedding k.patternSize := by
  refine (toEmbedding_eq h.valid.size_mapping fun u hu => ?_).symm
  obtain ⟨pos, hpos, rfl⟩ := hcover u hu
  rw [image_placement hpos, image, Embedding.image, Array.getD_eq_getD_getElem?]

variable (hk : k.Closed) (hpos : 0 < k.length)
  (hcover : ∀ u < k.patternSize, ∃ pos < k.length, (k.stop pos).vertex = u)

include hk hpos hcover

theorem drainFrom_eq (h : At k [] k.length k.length c) :
    drainFrom k 0 k.length c
      = (c.waiting k [] k.length 0 k.length).map (toEmbedding k.patternSize) := by
  induction hw : c.waiting k [] k.length 0 k.length generalizing c with
  | nil =>
    have hanswer := next_resume_spec hk h hpos (Nat.le_refl _)
    rw [drainFrom]
    split
    · rfl
    · rename_i c' hnext
      rw [hnext, Nat.sub_zero, hw] at hanswer
      cases (hanswer.found rfl).2
  | cons p rest ih =>
    have hanswer := next_resume_spec hk h hpos (Nat.le_refl _)
    rw [drainFrom]
    split
    · rename_i c' hnext
      rw [hnext, Nat.sub_zero, hw] at hanswer
      cases (hanswer.exhausted rfl).2
    · rename_i c' hnext
      rw [hnext, Nat.sub_zero, hw] at hanswer
      obtain ⟨hat, heq⟩ := hanswer.found rfl
      obtain ⟨rfl, hrest⟩ := List.cons.inj heq
      rw [dif_pos hpos, List.map_cons, ih hat hrest.symm, mapping_eq hcover hat]

/-- A new cursor runs through the ways to explore its course. -/
theorem drain_start :
    drain (start k) k 0 k.length
      = (extensions Stop.vertex (choices k.data k.index) (k.stopsFrom 0 k.length) []).map
          (toEmbedding k.patternSize) := by
  have hanswer := next_start_spec hk (at_start k k.length) hpos (Nat.le_refl _)
  rw [Course.offers_nil, Nat.sub_zero] at hanswer
  rw [drain]
  split
  · rename_i c' hnext
    rw [hnext] at hanswer
    have hnone := (hanswer.exhausted rfl).2
    rw [placement] at hnone
    rw [hnone]
    rfl
  · rename_i c' hnext
    rw [hnext] at hanswer
    obtain ⟨hat', hsome⟩ := hanswer.found rfl
    rw [placement] at hsome
    rw [hsome, List.map_cons, drainFrom_eq hk hpos hcover hat', mapping_eq hcover hat',
      Nat.sub_zero]

end Cursor

/-! ## All embeddings -/

/-- The placements to which the stops of an order lead, read along the order. -/
theorem trail_eq_map_image {t : Tree} {order : Order} {data : Graph} {i : Index} {p : Placement}
    (h : Grown t order.sequence)
    (hp : p ∈ extensions Stop.vertex (choices data i) (stops t order) []) :
    p.trail = order.sequence.map (p.toEmbedding t.pattern.size).image := by
  have hkeys : p.keys = order.sequence.reverse := by
    rw [keys_of_mem_extensions hp, stops, map_vertex_stopsAfter]
    exact List.append_nil _
  have hnodup : p.keys.Nodup := by
    rw [hkeys]
    exact List.nodup_reverse.mpr h.nodup
  have himages : p.images = p.keys.map p.image := by
    rw [images, keys, List.map_map]
    exact List.map_congr_left fun e he => (image_of_mem hnodup he).symm
  rw [trail, himages, hkeys, List.map_reverse, List.reverse_reverse]
  exact List.map_congr_left fun u hu => (image_toEmbedding p (h.lt_size u hu)).symm

/-- Running through the course of a connected pattern, prepared from any root, gives
every embedding once, in lexicographic order along the matching order. -/
theorem drain_exact (data pattern : Graph) (hconn : pattern.isConnected = true) (root : Nat)
    (hroot : root < pattern.size) :
    ∃ prep, prepareFrom? data pattern root = some prep
      ∧ prep.order.sequence.length = pattern.size
      ∧ let k := Course.ofOrder data prep.index prep.tree prep.order
        let embeddings := Cursor.drain (.start k) k 0 pattern.size
        (∀ m, m ∈ embeddings ↔ (Query.plain pattern data).IsEmbedding m)
          ∧ embeddings.Nodup
          ∧ embeddings.Pairwise fun m m' =>
              List.Lex (· < ·) (prep.order.sequence.map m.image)
                (prep.order.sequence.map m'.image) := by
  obtain ⟨t, ht⟩ : ∃ t, Tree.build? pattern root = some t := by simp [Tree.build?, hroot]
  obtain rfl := Tree.pattern_eq ht
  obtain rfl := Tree.root_eq ht
  refine ⟨_, by rw [prepareFrom?, ht]; rfl, ?_⟩
  simp only
  generalize hi : (Index.build data t).refine data t = i
  have hsound : i.Sound data t := hi ▸ sound_refine_build ht data
  have hexact : (Query.plain t.pattern data).Exact Stop.vertex (choices data i) (Along t) :=
    hi ▸ exact_refine_build ht hconn data
  have hcomplete := matchingOrder_complete ht hconn i
  generalize matchingOrder t (decompose t.pattern) i = order at hcomplete ⊢
  have hgrown := hcomplete.grown
  have hperm := perm_stops hcomplete
  have hlength : order.sequence.length = t.pattern.size := by
    have := hperm.length_eq
    rw [stops, map_vertex_stopsAfter, Graph.ids, List.length_range] at this
    exact this
  have hcover := exists_stop_ofOrder data i hcomplete
  have hdrain := Cursor.drain_start (closed_ofOrder data i hgrown)
    (by rw [length_ofOrder, hlength]; omega) hcover
  rw [length_ofOrder, stops_ofOrder, hlength] at hdrain
  rw [hdrain]
  refine ⟨hlength, fun m => ?_, ?_, List.pairwise_map.mpr ?_⟩
  · exact hexact.mem_map_extensions_iff (along_stops hgrown) hperm (Nat.zero_lt_of_lt hroot)
  · exact hexact.nodup_map_extensions (along_stops hgrown) hperm
  · refine (pairwise_extensions (choices_ascending data i) (stops t order) []).imp_of_mem ?_
    intro p p' hp hp' hlex
    rwa [trail_eq_map_image hgrown hp, trail_eq_map_image hgrown hp'] at hlex

/-- From its second vertex, a segment is found in itself. -/
theorem drain_exact_segment :
    let pattern := Graph.segment "a" "b" "e"
    pattern.isConnected = true ∧ 1 < pattern.size
      ∧ ∃ prep, prepareFrom? pattern pattern 1 = some prep
        ∧ let k := Course.ofOrder pattern prep.index prep.tree prep.order
          #[0, 1] ∈ Cursor.drain (.start k) k 0 2 := by
  intro pattern
  have hconn : pattern.isConnected = true := by decide
  have hroot : 1 < pattern.size := by decide
  obtain ⟨prep, hprep, -, hmem, -⟩ := drain_exact pattern pattern hconn 1 hroot
  exact ⟨hconn, hroot, prep, hprep, (hmem _).mpr (isEmbedding_segment _ _ _)⟩

end GraphDependency.Candidate
