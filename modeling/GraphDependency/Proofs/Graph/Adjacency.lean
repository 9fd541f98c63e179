import GraphDependency.Graph
import Mathlib.Data.List.Induction
import Mathlib.Data.List.Nodup
import Mathlib.Data.List.Pairwise

set_option autoImplicit false

/-!
# Adjacency

The queries of a graph answer from the table of edges at every vertex.  Here they
are tied to one symmetric relation: two vertices are joined by an edge, and there
is no second one.

Main statements: `edgeLabel?_eq_some_iff`, `edgeLabel?_comm`, `nodup_neighbors`
and `mem_labels_iff`.
-/

namespace GraphDependency

namespace Edge

/-- Two edges that join the same vertices join the endpoints of each other. -/
theorem Joins.trans_endpoints {e f : Edge} {a b : Nat} (he : e.Joins a b)
    (hf : f.Joins a b) : e.Joins f.first f.second := by
  unfold Joins at *
  omega

end Edge

namespace Graph

variable (g : Graph) {a b v w : Nat} {label : String}

/-! ## Neighbors -/

theorem mem_neighbors_iff : w ∈ g.neighbors v ↔ ∃ e ∈ g.edges, e.Joins v w := by
  simp only [neighbors, List.mem_map, Prod.exists, exists_and_right, exists_eq_right]
  constructor
  · rintro ⟨label, h⟩
    obtain ⟨e, he, hj, -⟩ := (mem_incident_iff g).mp h
    exact ⟨e, he, hj⟩
  · rintro ⟨e, he, hj⟩
    exact ⟨e.label, (mem_incident_iff g).mpr ⟨e, he, hj, rfl⟩⟩

theorem mem_neighbors_comm : w ∈ g.neighbors v ↔ v ∈ g.neighbors w := by
  simp only [mem_neighbors_iff, Edge.joins_comm (a := v)]

theorem lt_size_of_mem_neighbors (h : w ∈ g.neighbors v) : w < g.size := by
  obtain ⟨e, he, hj⟩ := (mem_neighbors_iff g).mp h
  have := g.inRange e he
  unfold Edge.Joins at hj
  unfold size
  omega

theorem ne_of_mem_neighbors (h : w ∈ g.neighbors v) : w ≠ v := by
  obtain ⟨e, he, hj⟩ := (mem_neighbors_iff g).mp h
  have := g.loopless e he
  unfold Edge.Joins at hj
  omega

theorem degree_eq_length_neighbors : g.degree v = (g.neighbors v).length := by
  rw [degree_eq_length_incident, neighbors, List.length_map]

/-- Two edges that join the same vertices are the same edge. -/
theorem edge_unique {e f : Edge} (he : e ∈ g.edges) (hf : f ∈ g.edges) (hj : e.Joins a b)
    (hk : f.Joins a b) : e = f := by
  by_contra hne
  have : Std.Symm fun e f : Edge => ¬ e.Joins f.first f.second := by
    constructor
    intro e f h hfe
    exact h (Edge.Joins.trans_endpoints (Or.inl ⟨rfl, rfl⟩) hfe)
  exact g.simple.forall (Array.mem_toList_iff.mpr he) (Array.mem_toList_iff.mpr hf) hne
    (hj.trans_endpoints hk)

theorem nodup_toList_ofEdges (v : Nat) (edges : Array Edge)
    (hl : ∀ e ∈ edges, e.first ≠ e.second)
    (hs : edges.toList.Pairwise fun e f => ¬ e.Joins f.first f.second) :
    ((Incidence.ofEdges v edges).toList.map Prod.fst).Nodup := by
  obtain ⟨es⟩ := edges
  induction es using List.reverseRecOn with
  | nil => exact List.nodup_nil
  | append_singleton es e ih =>
    have hpush : Array.mk (es ++ [e]) = (Array.mk es).push e := by simp
    have hl' : ∀ f ∈ Array.mk es, f.first ≠ f.second := fun f hf =>
      hl f (by rw [hpush]; exact Array.mem_push.mpr (Or.inl hf))
    obtain ⟨hes, -, hnew⟩ := List.pairwise_append.mp hs
    have ih := ih hl' hes
    -- No earlier edge joins the endpoints of the new one.
    have hfresh : ∀ w, e.Joins v w →
        w ∉ (Incidence.ofEdges v (Array.mk es)).toList.map Prod.fst := by
      intro w hj hw
      obtain ⟨⟨w, label⟩, hp, rfl⟩ := List.mem_map.mp hw
      obtain ⟨f, hf, hfj, -⟩ := (mem_toList_ofEdges _ hl').mp hp
      exact hnew f (by simpa using hf) e (by simp) (hfj.trans_endpoints hj)
    rw [hpush, Incidence.ofEdges_push, Incidence.record]
    split
    · rename_i h
      exact List.nodup_cons.mpr ⟨hfresh e.second (Or.inl ⟨h, rfl⟩), ih⟩
    · split
      · rename_i h
        have hw := hfresh e.first (Or.inr ⟨rfl, h⟩)
        simp only [Incidence.toList, Incidence.pushSecond, List.map_append, List.map_cons] at *
        exact List.nodup_middle.mpr (List.nodup_cons.mpr ⟨hw, ih⟩)
      · exact ih

/-- No neighbor is listed twice. -/
theorem nodup_neighbors (v : Nat) : (g.neighbors v).Nodup := by
  by_cases h : v < g.size
  · rw [neighbors, incident_eq g h]
    exact nodup_toList_ofEdges v g.edges g.loopless g.simple
  · rw [neighbors, incident_eq_nil g (Nat.le_of_not_lt h)]
    exact List.nodup_nil

/-! ## Edge labels -/

theorem edgeLabel?_eq_some_iff :
    g.edgeLabel? a b = some label ↔ ∃ e ∈ g.edges, e.Joins a b ∧ e.label = label := by
  constructor
  · intro h
    obtain ⟨⟨w, l⟩, hp, rfl⟩ := Option.map_eq_some_iff.mp h
    have hw : w = b := by simpa using List.find?_some hp
    subst hw
    exact (mem_incident_iff g).mp (List.mem_of_find?_eq_some hp)
  · rintro ⟨e, he, hj, rfl⟩
    cases hl : g.edgeLabel? a b with
    | none => exact absurd hj ((edgeLabel?_eq_none_iff g).mp hl e he)
    | some label =>
      obtain ⟨⟨w, l⟩, hp, rfl⟩ := Option.map_eq_some_iff.mp hl
      have hw : w = b := by simpa using List.find?_some hp
      subst hw
      obtain ⟨f, hf, hfj, rfl⟩ := (mem_incident_iff g).mp (List.mem_of_find?_eq_some hp)
      rw [g.edge_unique hf he hfj hj]

theorem mem_incident_iff_edgeLabel? :
    (b, label) ∈ g.incident a ↔ g.edgeLabel? a b = some label := by
  rw [mem_incident_iff, edgeLabel?_eq_some_iff]

/-- The label of an edge is the same from both of its ends. -/
theorem edgeLabel?_comm (a b : Nat) : g.edgeLabel? a b = g.edgeLabel? b a := by
  apply Option.ext
  intro label
  simp only [edgeLabel?_eq_some_iff, Edge.joins_comm (a := a)]

theorem mem_neighbors_of_edgeLabel? (h : g.edgeLabel? a b = some label) :
    b ∈ g.neighbors a := by
  obtain ⟨e, he, hj, -⟩ := g.edgeLabel?_eq_some_iff.mp h
  exact g.mem_neighbors_iff.mpr ⟨e, he, hj⟩

theorem exists_edgeLabel? (h : b ∈ g.neighbors a) : ∃ label, g.edgeLabel? a b = some label := by
  obtain ⟨e, he, hj⟩ := g.mem_neighbors_iff.mp h
  exact ⟨e.label, g.edgeLabel?_eq_some_iff.mpr ⟨e, he, hj, rfl⟩⟩

/-! ## Vertex labels -/

@[simp] theorem mem_ids : v ∈ g.ids ↔ v < g.size := List.mem_range

theorem nodup_ids : g.ids.Nodup := List.nodup_range

theorem label_eq_getElem (h : v < g.vertices.size) : g.label v = g.vertices[v].label := by
  rw [Graph.label, label?, vertex?, Array.getElem?_eq_getElem h]
  rfl

theorem label?_eq_getElem? : g.label? v = (labelsOf g.vertices)[v]? := by
  rw [label?, vertex?, labelsOf, List.getElem?_map, Array.getElem?_toList]

theorem label?_eq_some_iff : g.label? v = some label ↔ v < g.size ∧ g.label v = label := by
  by_cases h : v < g.vertices.size
  · rw [g.label_eq_getElem h, label?, vertex?, Array.getElem?_eq_getElem h]
    exact Option.some_inj.trans (and_iff_right h).symm
  · rw [label?, vertex?, Array.getElem?_eq_none (Nat.le_of_not_lt h)]
    exact iff_of_false nofun fun hv => h hv.1

theorem mem_withLabel_iff_label? : v ∈ g.withLabel label ↔ g.label? v = some label := by
  rw [withLabel, g.labelIndex_eq, LabelIndex.find_ofLabels, label?_eq_getElem?,
    ← List.mk_mem_zipIdx_iff_getElem?]
  simp

@[simp] theorem mem_withLabel_iff : v ∈ g.withLabel label ↔ v < g.size ∧ g.label v = label := by
  rw [mem_withLabel_iff_label?, label?_eq_some_iff]

theorem mem_labelsOf_iff : label ∈ labelsOf g.vertices ↔ ∃ v < g.size, g.label v = label := by
  simp only [List.mem_iff_getElem?, ← label?_eq_getElem?, label?_eq_some_iff]

theorem hasLabel_iff : g.hasLabel label = true ↔ ∃ v < g.size, g.label v = label := by
  rw [hasLabel, g.labelIndex_eq, LabelIndex.contains_iff, LabelIndex.mem_labels_ofLabels,
    mem_labelsOf_iff]

theorem mem_insertDistinct_iff {text other : String} {texts : List String} :
    other ∈ sortDistinct.insertDistinct text texts ↔ other = text ∨ other ∈ texts := by
  induction texts with
  | nil => simp [sortDistinct.insertDistinct]
  | cons t rest ih =>
    rw [sortDistinct.insertDistinct]
    split
    · simp
    · split
      · rename_i h
        simp [h]
      · rw [List.mem_cons, ih, List.mem_cons]
        exact or_left_comm

@[simp] theorem mem_sortDistinct_iff {text : String} {texts : List String} :
    text ∈ sortDistinct texts ↔ text ∈ texts := by
  induction texts with
  | nil => simp [sortDistinct]
  | cons t rest ih =>
    rw [sortDistinct, List.foldr_cons, mem_insertDistinct_iff, List.mem_cons]
    exact or_congr_right ih

theorem mem_labels_iff : label ∈ g.labels ↔ ∃ v < g.size, g.label v = label := by
  rw [labels, mem_sortDistinct_iff, g.labelIndex_eq, LabelIndex.mem_labels_ofLabels,
    mem_labelsOf_iff]

/-- Two vertices that are joined. -/
def segment (a b label : String) : Graph where
  vertices := #[⟨a, .empty⟩, ⟨b, .empty⟩]
  edges := #[⟨0, 1, label⟩]
  incidence := incidenceTable 2 #[⟨0, 1, label⟩]
  incidence_eq := rfl
  inRange := by simp
  loopless := by simp
  simple := List.pairwise_singleton _ _

end Graph

end GraphDependency
