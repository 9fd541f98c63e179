import GraphDependency.Proofs.Graph.History

set_option autoImplicit false

/-!
# Graphs inside other graphs

A graph is found inside another if its vertices go to different vertices with the same labels and
the same attributes, and its edges to edges with the same labels.  The other graph may have more
of both: a graph that has grown has the earlier one inside it.

Main statements: `MapsInto.trans` and `mapsInto_afterAll`.
-/

namespace GraphDependency.Graph

/-- The map sends the vertices of the data to different vertices that have the same labels and
the same attributes, and its edges to edges with the same labels. -/
structure MapsInto (data data' : Graph) (f : Nat → Nat) : Prop where
  injective : ∀ v < data.size, ∀ w < data.size, f v = f w → v = w
  vertex : ∀ v x, data.vertex? v = some x → ∃ x', data'.vertex? (f v) = some x'
    ∧ x'.label = x.label ∧ ∀ name, x'.value? name = x.value? name
  edge : ∀ e ∈ data.edges, ∃ e' ∈ data'.edges,
    e'.Joins (f e.first) (f e.second) ∧ e'.label = e.label

variable {data data' data'' : Graph} {f f' : Nat → Nat} {v w : Nat} {label : String}

theorem vertex?_of_lt (h : v < data.size) : ∃ x, data.vertex? v = some x :=
  ⟨_, Array.getElem?_eq_getElem h⟩

namespace MapsInto

variable (h : data.MapsInto data' f)

include h

theorem lt_size (hv : v < data.size) : f v < data'.size := by
  obtain ⟨x, hx⟩ := vertex?_of_lt hv
  obtain ⟨x', hx', -⟩ := h.vertex v x hx
  exact (Array.getElem?_eq_some_iff.mp hx').1

theorem label_eq (hv : v < data.size) : data'.label (f v) = data.label v := by
  obtain ⟨x, hx⟩ := vertex?_of_lt hv
  obtain ⟨x', hx', hlabel, -⟩ := h.vertex v x hx
  rw [label, label?, hx', label, label?, hx, Option.map_some, hlabel, Option.map_some]

theorem value_eq (hv : v < data.size) (name : String) :
    ((data'.vertex? (f v)).bind fun x => x.value? name)
      = (data.vertex? v).bind fun x => x.value? name := by
  obtain ⟨x, hx⟩ := vertex?_of_lt hv
  obtain ⟨x', hx', -, hvalue⟩ := h.vertex v x hx
  rw [hx', hx, Option.bind_some, hvalue, Option.bind_some]

theorem edgeLabel? (hedge : data.edgeLabel? v w = some label) :
    data'.edgeLabel? (f v) (f w) = some label := by
  obtain ⟨e, he, hjoins, rfl⟩ := data.edgeLabel?_eq_some_iff.mp hedge
  obtain ⟨e', he', hjoins', hlabel⟩ := h.edge e he
  refine data'.edgeLabel?_eq_some_iff.mpr ⟨e', he', ?_, hlabel⟩
  cases hjoins with
  | inl hsame => rwa [← hsame.1, ← hsame.2]
  | inr hswapped => rwa [← hswapped.1, ← hswapped.2, Edge.joins_comm]

theorem trans (h' : data'.MapsInto data'' f') : data.MapsInto data'' (f' ∘ f) where
  injective v hv w hw heq :=
    h.injective v hv w hw (h'.injective _ (h.lt_size hv) _ (h.lt_size hw) heq)
  vertex v x hx := by
    obtain ⟨x', hx', hlabel, hvalue⟩ := h.vertex v x hx
    obtain ⟨x'', hx'', hlabel', hvalue'⟩ := h'.vertex (f v) x' hx'
    exact ⟨x'', hx'', hlabel'.trans hlabel, fun name => (hvalue' name).trans (hvalue name)⟩
  edge e he := by
    obtain ⟨e', he', hjoins, hlabel⟩ := h.edge e he
    have hedge := h'.edgeLabel? (data'.edgeLabel?_eq_some_iff.mpr ⟨e', he', hjoins, hlabel⟩)
    exact data''.edgeLabel?_eq_some_iff.mp hedge

end MapsInto

/-! ## Growing -/

theorem mapsInto_id (data : Graph) : data.MapsInto data id where
  injective _ _ _ _ h := h
  vertex _ x hx := ⟨x, hx, rfl, fun _ => rfl⟩
  edge e he := ⟨e, he, Or.inl ⟨rfl, rfl⟩, rfl⟩

/-- A call that is accepted adds something, and a call that is refused changes nothing. -/
theorem mapsInto_after (data : Graph) (call : Call) : data.MapsInto (data.after call) id where
  injective _ _ _ _ h := h
  vertex v x hx := by
    refine ⟨x, ?_, rfl, fun _ => rfl⟩
    rw [vertex?, vertices_after, id,
      Array.getElem?_append_left (Array.getElem?_eq_some_iff.mp hx).1]
    exact hx
  edge e he := by
    refine ⟨e, ?_, Or.inl ⟨rfl, rfl⟩, rfl⟩
    cases call with
    | vertex vertex => exact he
    | edge added =>
      cases hadd : data.addEdge added.first added.second added.label with
      | error fault => rwa [after_of_error hadd]
      | ok data' =>
        rw [after_of_ok hadd, (addEdge_eq_ok_iff.mp hadd).2.2]
        exact Array.mem_push_of_mem _ he

/-- Data that has grown by any calls still has what it had. -/
theorem mapsInto_afterAll (data : Graph) (calls : List Call) :
    data.MapsInto (data.afterAll calls) id := by
  induction calls generalizing data with
  | nil => exact data.mapsInto_id
  | cons call calls ih => exact (data.mapsInto_after call).trans (ih (data.after call))

end GraphDependency.Graph
