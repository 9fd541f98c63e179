import GraphDependency.Proofs.Graph.Adjacency
import GraphDependency.Proofs.Matching.Extension
import Mathlib.Data.List.Perm.Subperm

set_option autoImplicit false

/-!
# Embeddings

What a query asks for, said without any search: an injective map of the pattern
vertices that keeps labels, sends every pattern edge to a data edge, and is
accepted by the predicates of the query.  A search builds such a map up vertex by
vertex; a partial embedding is a placement that has all these properties as far
as it goes.

Main statements: `degree_le` and `size_le` (why pruning by degree and size loses
nothing), `IsPartial.cons` (what a vertex that is placed next has to satisfy),
`IsPartial.isEmbedding` (a placement of all vertices is an embedding), and
`Exact.mem_map_extensions_iff` (offers that are right for a query lead to its
embeddings).
-/

namespace GraphDependency

/-- The image of a pattern vertex, zero for one that is not listed. -/
def Embedding.image (m : Embedding) (u : Nat) : Nat := m.getD u 0

namespace Matching

/-- The map is an embedding that the query accepts.  By convention the empty
pattern has none. -/
structure Query.IsEmbedding (q : Query) (m : Embedding) : Prop where
  nonempty : 0 < q.pattern.size
  size_eq : m.size = q.pattern.size
  image_lt : ∀ u < q.pattern.size, m.image u < q.data.size
  injective : ∀ u < q.pattern.size, ∀ w < q.pattern.size, m.image u = m.image w → u = w
  label_eq : ∀ u < q.pattern.size, q.data.label (m.image u) = q.pattern.label u
  vertex_ok : ∀ u < q.pattern.size, q.vertexOk u (m.image u) = true
  edge_ok : ∀ e ∈ q.pattern.edges, ∃ label,
    q.data.edgeLabel? (m.image e.first) (m.image e.second) = some label
      ∧ q.edgeOk e.label label = true

namespace Query.IsEmbedding

variable {q : Query} {m : Embedding} (h : q.IsEmbedding m) {u w : Nat} {label : String}

include h

/-- Edges are kept from both of their ends. -/
theorem edgeLabel? (he : q.pattern.edgeLabel? u w = some label) :
    ∃ label', q.data.edgeLabel? (m.image u) (m.image w) = some label'
      ∧ q.edgeOk label label' = true := by
  obtain ⟨e, hmem, hj, rfl⟩ := q.pattern.edgeLabel?_eq_some_iff.mp he
  obtain ⟨label', hl, hok⟩ := h.edge_ok e hmem
  rcases hj with ⟨rfl, rfl⟩ | ⟨rfl, rfl⟩
  · exact ⟨label', hl, hok⟩
  · exact ⟨label', by rwa [Graph.edgeLabel?_comm], hok⟩

theorem mem_neighbors (hw : w ∈ q.pattern.neighbors u) :
    m.image w ∈ q.data.neighbors (m.image u) := by
  obtain ⟨label, he⟩ := q.pattern.exists_edgeLabel? hw
  obtain ⟨label', hl, -⟩ := h.edgeLabel? he
  exact q.data.mem_neighbors_of_edgeLabel? hl

theorem nodup_map_image {us : List Nat} (hnodup : us.Nodup) (hlt : ∀ u ∈ us, u < q.pattern.size) :
    (us.map m.image).Nodup :=
  hnodup.map_on fun u hu w hw => h.injective u (hlt u hu) w (hlt w hw)

/-- The images of the neighbors are different neighbors of the image. -/
theorem map_neighbors_subperm (u : Nat) :
    ((q.pattern.neighbors u).map m.image).Subperm (q.data.neighbors (m.image u)) := by
  have hnodup := h.nodup_map_image (q.pattern.nodup_neighbors u)
    fun w hw => q.pattern.lt_size_of_mem_neighbors hw
  refine hnodup.subperm ?_
  intro v hv
  obtain ⟨w, hw, rfl⟩ := List.mem_map.mp hv
  exact h.mem_neighbors hw

/-- A data vertex of lower degree is no image. -/
theorem degree_le (u : Nat) : q.pattern.degree u ≤ q.data.degree (m.image u) := by
  have := (h.map_neighbors_subperm u).length_le
  rwa [List.length_map, ← Graph.degree_eq_length_neighbors,
    ← Graph.degree_eq_length_neighbors] at this

/-- A smaller data graph has no room for the pattern. -/
theorem size_le : q.pattern.size ≤ q.data.size := by
  have hnodup := h.nodup_map_image q.pattern.nodup_ids fun u hu => (Graph.mem_ids _).mp hu
  have hsub : (q.pattern.ids.map m.image).Subperm q.data.ids := by
    refine hnodup.subperm ?_
    intro v hv
    obtain ⟨u, hu, rfl⟩ := List.mem_map.mp hv
    exact (Graph.mem_ids _).mpr (h.image_lt u ((Graph.mem_ids _).mp hu))
  simpa [Graph.ids] using hsub.length_le

end Query.IsEmbedding

/-- Without predicates of a query, edges keep their labels. -/
theorem Query.IsEmbedding.edgeLabel?_eq {pattern data : Graph} {m : Embedding}
    (h : (Query.plain pattern data).IsEmbedding m) {u w : Nat} {label : String}
    (he : pattern.edgeLabel? u w = some label) :
    data.edgeLabel? (m.image u) (m.image w) = some label := by
  obtain ⟨label', hl, hok⟩ := h.edgeLabel? he
  have hequal : label = label' := by simpa [Query.plain, Query.equalLabels] using hok
  rw [hequal]
  exact hl

section Segment

variable (a b label : String)

theorem eq_or_eq_of_lt_size_segment {u : Nat} (hu : u < (Graph.segment a b label).size) :
    u = 0 ∨ u = 1 := by
  change u < 2 at hu
  omega

/-- A segment goes to itself. -/
theorem isEmbedding_segment :
    (Query.plain (.segment a b label) (.segment a b label)).IsEmbedding #[0, 1] where
  nonempty := Nat.two_pos
  size_eq := rfl
  image_lt u hu := by
    rcases eq_or_eq_of_lt_size_segment a b label hu with rfl | rfl
    · exact Nat.two_pos
    · exact Nat.one_lt_two
  injective u hu w hw := by
    rcases eq_or_eq_of_lt_size_segment a b label hu with rfl | rfl <;>
      rcases eq_or_eq_of_lt_size_segment a b label hw with rfl | rfl <;> decide
  label_eq u hu := by
    rcases eq_or_eq_of_lt_size_segment a b label hu with rfl | rfl <;> rfl
  vertex_ok _ _ := rfl
  edge_ok e he := by
    obtain rfl := Array.mem_singleton.mp he
    exact ⟨label, rfl, decide_eq_true rfl⟩

end Segment

/-! ## Partial embeddings -/

open Placement in
/-- The placement is an embedding as far as it goes. -/
structure Query.IsPartial (q : Query) (p : Placement) : Prop where
  nodup_keys : p.keys.Nodup
  nodup_images : p.images.Nodup
  key_lt : ∀ e ∈ p, e.1 < q.pattern.size
  image_lt : ∀ e ∈ p, e.2 < q.data.size
  label_eq : ∀ e ∈ p, q.data.label e.2 = q.pattern.label e.1
  vertex_ok : ∀ e ∈ p, q.vertexOk e.1 e.2 = true
  edge_ok : ∀ e ∈ p, ∀ f ∈ p, ∀ label, q.pattern.edgeLabel? e.1 f.1 = some label →
    ∃ label', q.data.edgeLabel? e.2 f.2 = some label' ∧ q.edgeOk label label' = true

namespace Query.IsPartial

variable {q : Query} {p : Placement}

theorem nil (q : Query) : q.IsPartial [] where
  nodup_keys := List.nodup_nil
  nodup_images := List.nodup_nil
  key_lt := by simp
  image_lt := by simp
  label_eq := by simp
  vertex_ok := by simp
  edge_ok := by simp

/-- What a vertex that is placed next has to satisfy. -/
theorem cons (h : q.IsPartial p) {u v : Nat} (hu : u < q.pattern.size) (hv : v < q.data.size)
    (hkey : u ∉ p.keys) (himage : v ∉ p.images)
    (hlabel : q.data.label v = q.pattern.label u) (hok : q.vertexOk u v = true)
    (hback : ∀ f ∈ p, ∀ label, q.pattern.edgeLabel? u f.1 = some label →
      ∃ label', q.data.edgeLabel? v f.2 = some label' ∧ q.edgeOk label label' = true) :
    q.IsPartial ((u, v) :: p) where
  nodup_keys := List.nodup_cons.mpr ⟨hkey, h.nodup_keys⟩
  nodup_images := List.nodup_cons.mpr ⟨himage, h.nodup_images⟩
  key_lt := List.forall_mem_cons.mpr ⟨hu, h.key_lt⟩
  image_lt := List.forall_mem_cons.mpr ⟨hv, h.image_lt⟩
  label_eq := List.forall_mem_cons.mpr ⟨hlabel, h.label_eq⟩
  vertex_ok := List.forall_mem_cons.mpr ⟨hok, h.vertex_ok⟩
  edge_ok := by
    intro e he f hf label hl
    rcases List.mem_cons.mp he with rfl | he
    · rcases List.mem_cons.mp hf with rfl | hf
      · -- No edge joins a vertex to itself.
        exact absurd rfl (q.pattern.ne_of_mem_neighbors (q.pattern.mem_neighbors_of_edgeLabel? hl))
      · exact hback f hf label hl
    · rcases List.mem_cons.mp hf with rfl | hf
      · rw [Graph.edgeLabel?_comm] at hl ⊢
        exact hback e he label hl
      · exact h.edge_ok e he f hf label hl

end Query.IsPartial

/-! ## Placements as embeddings -/

namespace Placement

theorem image_toEmbedding {n u : Nat} (p : Placement) (h : u < n) :
    (p.toEmbedding n).image u = p.image u := by
  simp [Embedding.image, toEmbedding, h]

theorem size_toEmbedding (n : Nat) (p : Placement) : (p.toEmbedding n).size = n := by
  simp [toEmbedding]

/-- An embedding is known from the images of the pattern vertices. -/
theorem toEmbedding_eq {n : Nat} {p : Placement} {m : Embedding} (hsize : m.size = n)
    (h : ∀ u < n, p.image u = m.image u) : p.toEmbedding n = m := by
  apply Array.ext
  · rw [size_toEmbedding, hsize]
  · intro u h₁ h₂
    rw [size_toEmbedding] at h₁
    have := h u h₁
    simp only [Embedding.image, Array.getD_eq_getD_getElem?, Array.getElem?_eq_getElem h₂,
      Option.getD_some] at this
    simpa [toEmbedding] using this

/-- Placements of the same vertices that give the same embedding are equal. -/
theorem eq_of_toEmbedding_eq {n : Nat} {p p' : Placement} (hkeys : p.keys = p'.keys)
    (hnodup : p.keys.Nodup) (hlt : ∀ u ∈ p.keys, u < n)
    (h : p.toEmbedding n = p'.toEmbedding n) : p = p' := by
  have himage : ∀ u ∈ p.keys, p.image u = p'.image u := by
    intro u hu
    rw [← image_toEmbedding p (hlt u hu), h, image_toEmbedding p' (hlt u hu)]
  calc p = p.keys.map fun u => (u, p.image u) := eq_map_keys fun e he => image_of_mem hnodup he
    _ = p'.keys.map fun u => (u, p'.image u) := by
      rw [← hkeys]
      exact List.map_congr_left fun u hu => by rw [himage u hu]
    _ = p' := (eq_map_keys fun e he => image_of_mem (hkeys ▸ hnodup) he).symm

end Placement

/-- A partial embedding of all vertices is an embedding. -/
theorem Query.IsPartial.isEmbedding {q : Query} {p : Placement} (h : q.IsPartial p)
    (hpos : 0 < q.pattern.size) (hall : ∀ u < q.pattern.size, u ∈ p.keys) :
    q.IsEmbedding (p.toEmbedding q.pattern.size) := by
  have hmem : ∀ u < q.pattern.size, (u, (p.toEmbedding q.pattern.size).image u) ∈ p := by
    intro u hu
    rw [Placement.image_toEmbedding p hu]
    exact Placement.mem_of_mem_keys h.nodup_keys (hall u hu)
  refine ⟨hpos, Placement.size_toEmbedding _ p, fun u hu => h.image_lt _ (hmem u hu), ?_,
    fun u hu => h.label_eq _ (hmem u hu), fun u hu => h.vertex_ok _ (hmem u hu), ?_⟩
  · intro u hu w hw heq
    exact congrArg Prod.fst
      (List.inj_on_of_nodup_map h.nodup_images (hmem u hu) (hmem w hw) heq)
  · intro e he
    obtain ⟨hfirst, hsecond⟩ := q.pattern.inRange e he
    exact h.edge_ok _ (hmem _ hfirst) _ (hmem _ hsecond) e.label
      (q.pattern.edgeLabel?_eq_some_iff.mpr ⟨e, he, Or.inl ⟨rfl, rfl⟩, rfl⟩)

/-! ## Offers that find every embedding -/

open Placement in
/-- The placement sends pattern vertices where the map does. -/
structure Embedding.Agrees (q : Query) (m : Embedding) (p : Placement) : Prop where
  nodup_keys : p.keys.Nodup
  key_lt : ∀ u ∈ p.keys, u < q.pattern.size
  image_eq : ∀ e ∈ p, m.image e.1 = e.2

namespace Embedding.Agrees

variable {q : Query} {m : Embedding} {p : Placement} {u : Nat}

theorem nil (q : Query) (m : Embedding) : Embedding.Agrees q m [] :=
  ⟨List.nodup_nil, by simp [Placement.keys], by simp⟩

theorem cons (h : Embedding.Agrees q m p) (hu : u < q.pattern.size) (hnew : u ∉ p.keys) :
    Embedding.Agrees q m ((u, m.image u) :: p) where
  nodup_keys := List.nodup_cons.mpr ⟨hnew, h.nodup_keys⟩
  key_lt := List.forall_mem_cons.mpr ⟨hu, h.key_lt⟩
  image_eq := List.forall_mem_cons.mpr ⟨rfl, h.image_eq⟩

theorem image (h : Embedding.Agrees q m p) (hu : u ∈ p.keys) : p.image u = m.image u :=
  (h.image_eq _ (Placement.mem_of_mem_keys h.nodup_keys hu)).symm

/-- The image of a vertex that is not placed is free. -/
theorem not_mem_images (h : Embedding.Agrees q m p) (hm : q.IsEmbedding m)
    (hu : u < q.pattern.size) (hnew : u ∉ p.keys) : m.image u ∉ p.images := by
  intro hmem
  obtain ⟨⟨w, x⟩, he, hx⟩ := List.mem_map.mp hmem
  have hw : w ∈ p.keys := List.mem_map.mpr ⟨_, he, rfl⟩
  have heq : w = u := hm.injective w (h.key_lt w hw) u hu ((h.image_eq _ he).trans hx)
  exact hnew (heq ▸ hw)

end Embedding.Agrees

open Placement in
/-- Offers that are right for a query, as long as the steps are ready for what is
placed before them: whatever is offered leads to a partial embedding, and where an
embedding goes is offered. -/
structure Query.Exact {α : Type} (q : Query) (key : α → Nat)
    (offers : Placement → α → List Nat) (Ready : List α → List Nat → Prop) : Prop where
  nodup : ∀ p s, (offers p s).Nodup
  ready : ∀ s rest placed, Ready (s :: rest) placed →
    key s < q.pattern.size ∧ key s ∉ placed ∧ Ready rest (key s :: placed)
  sound : ∀ s rest p v, Ready (s :: rest) p.keys → q.IsPartial p → v ∈ offers p s →
    q.IsPartial ((key s, v) :: p)
  complete : ∀ s rest p m, Ready (s :: rest) p.keys → q.IsEmbedding m →
    Embedding.Agrees q m p → m.image (key s) ∈ offers p s

namespace Query.Exact

open Placement

variable {α : Type} {q : Query} {key : α → Nat} {offers : Placement → α → List Nat}
  {Ready : List α → List Nat → Prop} {steps : List α} {p : Placement}

theorem mem_keys_iff (hkeys : (steps.map key).Perm q.pattern.ids)
    (hp : p ∈ extensions key offers steps []) (u : Nat) : u ∈ p.keys ↔ u < q.pattern.size := by
  rw [keys_of_mem_extensions hp, List.mem_append, List.mem_reverse, hkeys.mem_iff, Graph.mem_ids]
  simp [keys]

variable (h : q.Exact key offers Ready) (hready : Ready steps [])

include h hready

theorem isPartial (hp : p ∈ extensions key offers steps []) : q.IsPartial p := by
  refine (of_mem_extensions (fun steps p => q.IsPartial p ∧ Ready steps p.keys) ?_
    ⟨.nil q, hready⟩ hp).1
  rintro s rest p v ⟨hpart, hsteps⟩ hv
  exact ⟨h.sound s rest p v hsteps hpart hv, (h.ready s rest _ hsteps).2.2⟩

variable (hkeys : (steps.map key).Perm q.pattern.ids)

include hkeys

/-- The embeddings are found, and nothing else is. -/
theorem mem_map_extensions_iff (hpos : 0 < q.pattern.size) {m : Embedding} :
    m ∈ (extensions key offers steps []).map (toEmbedding q.pattern.size) ↔ q.IsEmbedding m := by
  constructor
  · intro hmem
    obtain ⟨p, hp, rfl⟩ := List.mem_map.mp hmem
    exact (h.isPartial hready hp).isEmbedding hpos fun u hu =>
      (mem_keys_iff hkeys hp u).mpr hu
  · intro hm
    -- Along the steps the placed vertices go where the embedding sends them.
    have hstep : ∀ s rest p, Ready (s :: rest) p.keys ∧ Embedding.Agrees q m p →
        m.image (key s) ∈ offers p s
          ∧ Ready rest (keys ((key s, m.image (key s)) :: p))
          ∧ Embedding.Agrees q m ((key s, m.image (key s)) :: p) := by
      rintro s rest p ⟨hsteps, hagree⟩
      obtain ⟨hlt, hnew, hrest⟩ := h.ready s rest _ hsteps
      exact ⟨h.complete s rest p m hsteps hm hagree, hrest, hagree.cons hlt hnew⟩
    have hp := mem_extensions (fun steps p => Ready steps p.keys ∧ Embedding.Agrees q m p)
      hstep (p := []) ⟨hready, .nil q m⟩
    rw [List.append_nil] at hp
    refine List.mem_map.mpr ⟨_, hp, toEmbedding_eq hm.size_eq ?_⟩
    intro u hu
    refine image_of_mem (h.isPartial hready hp).nodup_keys ?_
    obtain ⟨e, he, heu⟩ := List.mem_map.mp ((mem_keys_iff hkeys hp u).mpr hu)
    obtain ⟨s, -, rfl⟩ := List.mem_map.mp (List.mem_reverse.mp he)
    rwa [← heu]

/-- No embedding is found twice. -/
theorem nodup_map_extensions :
    ((extensions key offers steps []).map (toEmbedding q.pattern.size)).Nodup := by
  refine List.Nodup.map_on ?_ (nodup_extensions h.nodup steps [])
  intro p hp p' hp' heq
  refine eq_of_toEmbedding_eq ?_ (h.isPartial hready hp).nodup_keys
    (fun u hu => (mem_keys_iff hkeys hp u).mp hu) heq
  rw [keys_of_mem_extensions hp, keys_of_mem_extensions hp']

end Query.Exact

end Matching

end GraphDependency
