import GraphDependency.Proofs.Graph.Growth
import GraphDependency.Proofs.Graph.Walk
import GraphDependency.Proofs.Matching.Embedding
import GraphDependency.Proofs.Random.Always
import GraphDependency.Workload

set_option autoImplicit false

/-!
# Patterns that are grown in a graph

Whatever the choices are, what is taken in is a new vertex next to an earlier one, and the edge
between these two is kept.  So every vertex of the pattern is joined to the first one, and the
data vertices that were taken in are an embedding: the other edges of the pattern are edges of
the data graph as well.

Main statements: `exists_ofLists` (drawn edges make a graph), `Grown.attached`,
`Kept.isConnected`, `Kept.isEmbedding` and `always_drawPattern?`.
-/

namespace GraphDependency.Workload

open GraphDependency.Graph GraphDependency.Matching GraphDependency.Random

variable {σ : Type}

/-! ## Edges between pairs -/

theorem nodup_pairsBelow (n : Nat) : (pairsBelow n).Nodup := by
  refine List.nodup_flatMap.mpr ⟨fun i _ => ?_, List.nodup_range.imp fun {i j} hne p hi hj => ?_⟩
  · exact (List.nodup_range' _).map fun j k h => congrArg Prod.snd h
  · obtain ⟨_, _, rfl⟩ := List.mem_map.mp hi
    obtain ⟨_, _, heq⟩ := List.mem_map.mp hj
    exact hne (congrArg Prod.fst heq).symm

/-- The ends of an edge, as they were given. -/
def ends (e : Edge) : Nat × Nat := (e.first, e.second)

/-- Edges for some of the pairs make a graph. -/
theorem exists_ofLists {vs : List Vertex} {es : List Edge}
    (h : (es.map ends).Sublist (pairsBelow vs.length)) :
    ∃ g, Graph.ofLists vs es = .ok g ∧ g.vertices = vs.toArray ∧ g.edges = es.toArray := by
  have hpair : ∀ e ∈ es, e.first < e.second ∧ e.second < vs.length := fun e he =>
    mem_pairsBelow_iff.mp (h.subset (List.mem_map_of_mem he))
  have hsize : (Graph.empty.addVertices vs).size = vs.length := by
    rw [Graph.size, vertices_addVertices]
    simp [Graph.empty]
  have hsimple : es.Pairwise fun e f => ¬ e.Joins f.first f.second := by
    have hnodup : (es.map ends).Nodup := (nodup_pairsBelow _).sublist h
    refine (List.pairwise_map.mp hnodup).imp_of_mem fun {e f} he hf hne hjoins => hne ?_
    have hefirst := (hpair e he).1
    have hffirst := (hpair f hf).1
    unfold Edge.Joins at hjoins
    exact Prod.ext (by simp only [ends]; omega) (by simp only [ends]; omega)
  obtain ⟨g, hg, hvertices, hedges⟩ := addEdges_eq_ok (Graph.empty.addVertices vs) es
    (fun e he => by have := hpair e he; omega)
    (fun e he => Nat.ne_of_lt (hpair e he).1)
    (by simpa [Graph.empty] using hsimple)
  refine ⟨g, hg, ?_, ?_⟩
  · rw [hvertices, vertices_addVertices]
    simp [Graph.empty]
  · rw [hedges, edges_addVertices]
    simp [Graph.empty]

/-! ## Growth -/

namespace Growth

/-- What can be grown in a data graph: a vertex to start at, and then one after the other. -/
inductive Grown (data : Graph) : Growth → Prop where
  | start {v : Nat} (h : v < data.size) : Grown data ⟨[v], []⟩
  | take {g : Growth} {e : Nat × Nat} (hg : Grown data g) (he : e ∈ g.frontier data) :
    Grown data (g.take e)

variable {data : Graph} {g : Growth} {i j v w : Nat}

theorem mem_frontier_iff :
    (i, w) ∈ g.frontier data
      ↔ (∃ v, g.chosen[i]? = some v ∧ w ∈ data.neighbors v) ∧ w ∉ g.chosen := by
  simp only [frontier, List.mem_filter, List.mem_flatMap, List.mem_map, Prod.mk.injEq,
    Bool.not_eq_true', List.contains_eq_mem, decide_eq_false_iff_not]
  refine and_congr_left' ⟨?_, ?_⟩
  · rintro ⟨⟨v, k⟩, he, _, hw, rfl, rfl⟩
    exact ⟨v, List.mem_zipIdx_iff_getElem?.mp he, hw⟩
  · rintro ⟨v, hv, hw⟩
    exact ⟨(v, i), List.mem_zipIdx_iff_getElem?.mpr hv, w, hw, rfl, rfl⟩

theorem length_take (g : Growth) (e : Nat × Nat) :
    (g.take e).chosen.length = g.chosen.length + 1 := by
  rw [Growth.take, List.length_append, List.length_singleton]

/-- What was taken in before stays where it is. -/
theorem getElem?_take (hi : i < g.chosen.length) (e : Nat × Nat) :
    (g.take e).chosen[i]? = g.chosen[i]? :=
  List.getElem?_append_left hi

namespace Grown

theorem length_pos (h : Grown data g) : 0 < g.chosen.length := by
  cases h with
  | start h => exact Nat.one_pos
  | take hg he =>
    rw [length_take]
    exact Nat.succ_pos _

theorem lt_size (h : Grown data g) : ∀ v ∈ g.chosen, v < data.size := by
  induction h with
  | start h => exact List.forall_mem_singleton.mpr h
  | take hg he ih =>
    obtain ⟨⟨v, -, hadj⟩, -⟩ := mem_frontier_iff.mp he
    refine List.forall_mem_append.mpr ⟨ih, List.forall_mem_singleton.mpr ?_⟩
    exact data.lt_size_of_mem_neighbors hadj

theorem nodup (h : Grown data g) : g.chosen.Nodup := by
  induction h with
  | start h => exact List.nodup_singleton _
  | take hg he ih =>
    rw [Growth.take, ← List.concat_eq_append]
    exact ih.concat (mem_frontier_iff.mp he).2

/-- Each vertex but the first was taken in along an edge from an earlier one. -/
theorem attached (h : Grown data g) (hpos : 0 < j) (hj : j < g.chosen.length) :
    ∃ i < j, (i, j) ∈ g.tree ∧ ∃ v w, g.chosen[i]? = some v ∧ g.chosen[j]? = some w
      ∧ w ∈ data.neighbors v := by
  induction h with
  | start h =>
    rw [List.length_singleton] at hj
    omega
  | @take g e hg he ih =>
    rw [length_take] at hj
    rcases Nat.lt_succ_iff_lt_or_eq.mp hj with hj | rfl
    · obtain ⟨i, hi, htree, v, w, hv, hw, hadj⟩ := ih hj
      refine ⟨i, hi, List.mem_append_left _ htree, v, w, ?_, ?_, hadj⟩
      · rwa [getElem?_take (Nat.lt_trans hi hj)]
      · rwa [getElem?_take hj]
    · obtain ⟨⟨v, hv, hadj⟩, -⟩ := mem_frontier_iff.mp he
      have hi : e.1 < g.chosen.length := (List.getElem?_eq_some_iff.mp hv).1
      refine ⟨e.1, hi, List.mem_append_right _ (List.mem_singleton_self _), v, e.2, ?_, ?_, hadj⟩
      · rwa [getElem?_take hi]
      · exact List.getElem?_concat_length

end Grown

end Growth

open Growth in
/-- Growing goes on with what can be grown, up to the room there is. -/
theorem always_grow (source : Source σ) (data : Graph) (room : Nat) {g : Growth}
    (hg : Grown data g) :
    Always (grow source data room g) fun g' =>
      Grown data g' ∧ g'.chosen.length ≤ g.chosen.length + room := by
  induction room generalizing g with
  | zero => exact Always.of_pure ⟨hg, Nat.le_refl _⟩
  | succ room ih =>
    refine (always_choose source (g.frontier data)).bind fun chosen hchosen => ?_
    cases chosen with
    | none => exact Always.of_pure ⟨hg, Nat.le_add_right _ _⟩
    | some e =>
      refine (ih (hg.take (hchosen e rfl))).imp fun g' hg' => ⟨hg'.1, ?_⟩
      have hlength := hg'.2
      rw [length_take] at hlength
      omega

/-! ## Patterns -/

/-- The edges that are kept so far, when some pairs of positions were gone through. -/
structure Kept (data : Graph) (g : Growth) (done : List (Nat × Nat)) (edges : Array Edge) :
    Prop where
  ends_sublist : (edges.toList.map ends).Sublist done
  joined : ∀ e ∈ edges.toList, ∃ v w, g.chosen[e.first]? = some v
    ∧ g.chosen[e.second]? = some w ∧ data.edgeLabel? v w = some e.label
  tree : ∀ i j v w label, (i, j) ∈ done → g.isTreeEdge i j = true → g.chosen[i]? = some v →
    g.chosen[j]? = some w → data.edgeLabel? v w = some label → ⟨i, j, label⟩ ∈ edges.toList

namespace Kept

variable {data : Graph} {g : Growth} {done : List (Nat × Nat)} {edges : Array Edge}
  {i j v w : Nat} {label : String}

theorem nil (data : Graph) (g : Growth) : Kept data g [] #[] where
  ends_sublist := List.nil_sublist _
  joined := by simp
  tree := by simp

/-- The edge of a pair is kept. -/
theorem push (h : Kept data g done edges) (hv : g.chosen[i]? = some v)
    (hw : g.chosen[j]? = some w) (hlabel : data.edgeLabel? v w = some label) :
    Kept data g (done ++ [(i, j)]) (edges.push ⟨i, j, label⟩) where
  ends_sublist := by
    rw [Array.toList_push, List.map_append]
    exact h.ends_sublist.append (List.Sublist.refl [(i, j)])
  joined := by
    rw [Array.toList_push]
    exact List.forall_mem_append.mpr
      ⟨h.joined, List.forall_mem_singleton.mpr ⟨v, w, hv, hw, hlabel⟩⟩
  tree i' j' v' w' label' hmem htree hv' hw' hlabel' := by
    rw [Array.toList_push]
    rcases List.mem_append.mp hmem with hmem | hmem
    · exact List.mem_append_left _ (h.tree i' j' v' w' label' hmem htree hv' hw' hlabel')
    · obtain ⟨rfl, rfl⟩ := Prod.mk.inj (List.mem_singleton.mp hmem)
      cases hv.symm.trans hv'
      cases hw.symm.trans hw'
      cases hlabel.symm.trans hlabel'
      exact List.mem_append_right _ (List.mem_singleton_self _)

/-- A pair without an edge of the tree may be passed over. -/
theorem skip (h : Kept data g done edges)
    (hnone : ∀ v w label, g.isTreeEdge i j = true → g.chosen[i]? = some v →
      g.chosen[j]? = some w → data.edgeLabel? v w ≠ some label) :
    Kept data g (done ++ [(i, j)]) edges where
  ends_sublist := h.ends_sublist.trans (List.sublist_append_left _ _)
  joined := h.joined
  tree i' j' v' w' label' hmem htree hv' hw' hlabel' := by
    rcases List.mem_append.mp hmem with hmem | hmem
    · exact h.tree i' j' v' w' label' hmem htree hv' hw' hlabel'
    · obtain ⟨rfl, rfl⟩ := Prod.mk.inj (List.mem_singleton.mp hmem)
      exact absurd hlabel' (hnone v' w' label' htree hv' hw')

end Kept

/-- Whether a coin decides or not, an edge of the tree is kept. -/
theorem always_drawPatternEdge (source : Source σ) {data : Graph} {g : Growth}
    {done : List (Nat × Nat)} {edges : Array Edge} (h : Kept data g done edges)
    (pair : Nat × Nat) :
    Always (drawPatternEdge source data g edges pair) (Kept data g (done ++ [pair])) := by
  obtain ⟨i, j⟩ := pair
  unfold drawPatternEdge
  split
  · rename_i v w hv hw
    split
    · rename_i hlabel
      refine Always.of_pure (h.skip fun v' w' label' _ hv' hw' hlabel' => ?_)
      cases hv.symm.trans hv'
      cases hw.symm.trans hw'
      cases hlabel.symm.trans hlabel'
    · rename_i label hlabel
      split
      · exact Always.of_pure (h.push hv hw hlabel)
      · rename_i htree
        refine (Always.trivial _).bind fun keep _ => ?_
        split
        · exact Always.of_pure (h.push hv hw hlabel)
        · exact Always.of_pure (h.skip fun _ _ _ htree' => absurd htree' htree)
  · rename_i hnone
    exact Always.of_pure (h.skip fun v w _ _ hv hw => absurd hw (hnone v w hv))

/-- The pattern was grown in the data graph, with room for so many vertices. -/
structure GrownPattern (data : Graph) (room : Nat) (g : Growth) (pattern : Graph) : Prop where
  grown : g.Grown data
  size_eq : pattern.size = g.chosen.length
  size_le : pattern.size ≤ room
  connected : pattern.isConnected = true
  embedded : (Query.plain pattern data).IsEmbedding g.chosen.toArray

namespace Kept

variable {data : Graph} {g : Growth} {edges : Array Edge} {pattern : Graph}

section

variable (hg : g.Grown data) (hkept : Kept data g (pairsBelow g.chosen.length) edges)
  (hsize : pattern.size = g.chosen.length) (hedges : pattern.edges = edges)

include hg hkept hsize hedges

/-- From the first vertex all others can be reached along the tree. -/
theorem exists_hops {j : Nat} (hj : j < pattern.size) : ∃ n, pattern.Hops 0 n j := by
  induction j using Nat.strongRecOn with
  | ind j ih =>
    rcases Nat.eq_zero_or_pos j with rfl | hpos
    · exact ⟨0, rfl⟩
    · obtain ⟨i, hi, htree, v, w, hv, hw, hadj⟩ := hg.attached hpos (hsize ▸ hj)
      obtain ⟨n, hn⟩ := ih i hi (Nat.lt_trans hi hj)
      obtain ⟨label, hlabel⟩ := data.exists_edgeLabel? hadj
      have hmem : ⟨i, j, label⟩ ∈ edges.toList := by
        refine hkept.tree i j v w label (mem_pairsBelow_iff.mpr ⟨hi, hsize ▸ hj⟩) ?_ hv hw hlabel
        rw [Growth.isTreeEdge, Bool.or_eq_true]
        exact Or.inl (List.contains_iff_mem.mpr htree)
      have hnext : j ∈ pattern.neighbors i :=
        pattern.mem_neighbors_iff.mpr ⟨_, hedges ▸ Array.mem_toList_iff.mp hmem, Or.inl ⟨rfl, rfl⟩⟩
      exact ⟨n + 1, hn.trans (Hops.of_mem_neighbors hnext)⟩

theorem isConnected : pattern.isConnected = true := by
  refine isConnected_iff.mpr fun a ha b hb => ?_
  obtain ⟨m, hm⟩ := hkept.exists_hops hg hsize hedges ha
  obtain ⟨n, hn⟩ := hkept.exists_hops hg hsize hedges hb
  exact ⟨m + n, hm.symm.trans hn⟩

/-- The data vertices that were taken in are an embedding. -/
theorem isEmbedding
    (hvertices : pattern.vertices = (g.chosen.map fun v => ⟨data.label v, .empty⟩).toArray) :
    (Query.plain pattern data).IsEmbedding g.chosen.toArray := by
  have himage : ∀ {u v : Nat}, g.chosen[u]? = some v →
      Embedding.image g.chosen.toArray u = v := fun {u v} hv => by
    simp [Embedding.image, hv]
  have hat : ∀ u < pattern.size, g.chosen[u]? = some (Embedding.image g.chosen.toArray u) := by
    intro u hu
    rw [hsize] at hu
    rw [List.getElem?_eq_getElem hu, himage (List.getElem?_eq_getElem hu)]
  refine ⟨hsize ▸ hg.length_pos, ?_, fun u hu => ?_, fun u hu w hw heq => ?_, fun u hu => ?_,
    fun _ _ => rfl, fun e he => ?_⟩
  · exact hsize.symm
  · exact hg.lt_size _ (List.mem_of_getElem? (hat u hu))
  · refine (List.getElem?_inj (hsize ▸ hu) hg.nodup).mp ?_
    rw [hat u hu, hat w hw, heq]
  · have hlabel : pattern.label? u
        = some (data.label (Embedding.image g.chosen.toArray u)) := by
      rw [label?, vertex?, hvertices, List.getElem?_toArray, List.getElem?_map, hat u hu]
      rfl
    change _ = (pattern.label? u).getD ""
    rw [hlabel]
    rfl
  · have he : e ∈ edges.toList := Array.mem_toList_iff.mpr (hedges ▸ he)
    obtain ⟨v, w, hv, hw, hlabel⟩ := hkept.joined e he
    rw [himage hv, himage hw]
    exact ⟨e.label, hlabel, decide_eq_true rfl⟩

end

/-- The vertices that were taken in and the edges that are kept make a pattern. -/
theorem exists_pattern {room : Nat} (hg : g.Grown data) (hroom : g.chosen.length ≤ room)
    (hkept : Kept data g (pairsBelow g.chosen.length) edges) :
    ∃ pattern, Graph.ofLists (g.chosen.map fun v => ⟨data.label v, .empty⟩) edges.toList
        = .ok pattern
      ∧ GrownPattern data room g pattern := by
  have hends := hkept.ends_sublist
  rw [← List.length_map fun v => (⟨data.label v, .empty⟩ : Vertex)] at hends
  obtain ⟨pattern, hpattern, hvertices, hedges⟩ := exists_ofLists hends
  have hsize : pattern.size = g.chosen.length := by
    rw [Graph.size, hvertices, List.size_toArray, List.length_map]
  exact ⟨pattern, hpattern, hg, hsize, hsize ▸ hroom, hkept.isConnected hg hsize hedges,
    hkept.isEmbedding hg hsize hedges hvertices⟩

end Kept

/-- There is a pattern if there is a vertex to start at and room for one. -/
theorem always_drawPattern? (source : Source σ) (data : Graph) (room : Nat) :
    Always (drawPattern? source data room) fun drawn =>
      if data.size = 0 ∨ room = 0 then drawn = none
      else ∃ g pattern, drawn = some pattern ∧ GrownPattern data room g pattern := by
  unfold drawPattern?
  split
  · exact Always.of_pure rfl
  · rename_i hroom
    refine (always_wide source (by omega)).bind fun start hstart => ?_
    refine (always_grow source data (room - 1) (.start hstart)).bind fun g hg => ?_
    refine (Always.foldlM (Kept data g) (Kept.nil data g) (fun done pair edges hkept =>
      always_drawPatternEdge source hkept pair) _).bind fun edges hkept => ?_
    have hlength : g.chosen.length ≤ room := by
      have := hg.2
      rw [List.length_singleton] at this
      omega
    obtain ⟨pattern, hpattern, hgrown⟩ := hkept.exists_pattern hg.1 hlength
    rw [hpattern]
    exact Always.of_pure ⟨g, pattern, rfl, hgrown⟩

end GraphDependency.Workload
