import GraphDependency.Proofs.Graph.Walk
import Mathlib.Combinatorics.SimpleGraph.Acyclic
import Mathlib.Combinatorics.SimpleGraph.Connectivity.Subgraph

set_option autoImplicit false

/-!
# Graphs without labels

A graph without its labels and values is a simple graph on its vertices.  Cycles and trees
are those of the simple graph.

Main statements: `isConnected_iff_isPath` and `isConnected_iff_card_components` (a connected
graph by its paths and by its components), `isAcyclic_toSimpleGraph_iff` (a connected graph has
no cycle exactly if it has one vertex more than edges) and `exists_two_of_mem_cycle`, a vertex on
a cycle has two neighbors on it.
-/

namespace GraphDependency.Graph

/-- The vertices of a graph and which of them are joined. -/
def toSimpleGraph (g : Graph) : SimpleGraph (Fin g.size) where
  Adj u w := w.val ∈ g.neighbors u.val
  symm := ⟨fun _ _ h => (mem_neighbors_comm g).mp h⟩
  loopless := ⟨fun _ h => ne_of_mem_neighbors g h rfl⟩

variable {g : Graph} {b n : Nat}

theorem toSimpleGraph_adj {u w : Fin g.size} :
    g.toSimpleGraph.Adj u w ↔ w.val ∈ g.neighbors u.val := Iff.rfl

/-- What a graph is on some of its vertices. -/
abbrev inducedOn (g : Graph) (entry : List Nat) : SimpleGraph {u : Fin g.size | u.val ∈ entry} :=
  g.toSimpleGraph.induce {u | u.val ∈ entry}

/-! ## Connectivity -/

/-- A walk is one through any simple graph whose vertices are among those of the graph, if
each of its steps is one. -/
theorem reachable_of_walk {V : Type} {G : SimpleGraph V} (number : V → Nat)
    {inside : Nat → Prop} (hstep : ∀ x w, w ∈ g.neighbors (number x) → inside w →
      ∃ y, number y = w ∧ G.Adj x y) (r : V) (h : g.Walk inside (number r) n b) :
    ∃ x, number x = b ∧ G.Reachable r x := by
  induction n generalizing b with
  | zero => exact ⟨r, h.symm, SimpleGraph.Reachable.refl r⟩
  | succ n ih =>
    obtain ⟨hb, c, hc, hcb⟩ := h
    obtain ⟨x, rfl, hreach⟩ := ih hc
    obtain ⟨y, hy, hadj⟩ := hstep x b hcb hb
    exact ⟨y, hy, hreach.trans hadj.reachable⟩

theorem preconnected_toSimpleGraph (hconn : g.isConnected = true) :
    g.toSimpleGraph.Preconnected := by
  intro u w
  obtain ⟨n, hn⟩ := isConnected_iff.mp hconn u.val u.isLt w.val w.isLt
  obtain ⟨x, hx, hreach⟩ := reachable_of_walk (G := g.toSimpleGraph) Fin.val
    (fun _ w hw hlt => ⟨⟨w, hlt⟩, rfl, hw⟩) u hn
  rwa [← Fin.ext hx]

theorem connected_toSimpleGraph (hconn : g.isConnected = true) (hpos : 0 < g.size) :
    g.toSimpleGraph.Connected where
  preconnected := preconnected_toSimpleGraph hconn
  nonempty := ⟨⟨0, hpos⟩⟩

/-- A walk of the simple graph is one of the graph. -/
theorem hops_of_walk {u w : Fin g.size} (p : g.toSimpleGraph.Walk u w) :
    g.Hops u.val p.length w.val := by
  induction p with
  | nil => rfl
  | cons hadj p ih =>
    have := (Hops.of_mem_neighbors (toSimpleGraph_adj.mp hadj)).trans ih
    rwa [Nat.add_comm] at this

theorem isConnected_iff_preconnected : g.isConnected = true ↔ g.toSimpleGraph.Preconnected := by
  constructor
  · exact preconnected_toSimpleGraph
  · intro h
    rw [isConnected_iff]
    intro a ha b hb
    obtain ⟨p⟩ := h ⟨a, ha⟩ ⟨b, hb⟩
    exact ⟨p.length, hops_of_walk p⟩

theorem isConnected_of_size_eq_zero (h : g.size = 0) : g.isConnected = true := by
  rw [isConnected, isEmpty, h]
  rfl

/-- A graph is connected if it is empty or has a single component. -/
theorem isConnected_iff_card_components :
    g.isConnected = true
      ↔ g.size = 0 ∨ Nat.card g.toSimpleGraph.ConnectedComponent = 1 := by
  rw [Nat.card_eq_one_iff_unique]
  constructor
  · intro hconn
    refine or_iff_not_imp_left.mpr fun hsize => ?_
    have hpre := preconnected_toSimpleGraph hconn
    exact ⟨hpre.subsingleton_connectedComponent,
      ⟨g.toSimpleGraph.connectedComponentMk ⟨0, Nat.pos_of_ne_zero hsize⟩⟩⟩
  · rintro (hsize | ⟨hsingle, -⟩)
    · exact isConnected_of_size_eq_zero hsize
    · refine isConnected_iff_preconnected.mpr fun u w => ?_
      exact SimpleGraph.ConnectedComponent.exact (hsingle.elim _ _)

/-- A graph is connected if it is empty or any two of its vertices are joined by a path. -/
theorem isConnected_iff_isPath :
    g.isConnected = true
      ↔ g.size = 0 ∨ ∀ u w, ∃ p : g.toSimpleGraph.Walk u w, p.IsPath := by
  constructor
  · intro hconn
    refine Or.inr fun u w => ?_
    obtain ⟨p, hp⟩ := (preconnected_toSimpleGraph hconn u w).exists_isPath
    exact ⟨p, hp⟩
  · rintro (hsize | hpath)
    · exact isConnected_of_size_eq_zero hsize
    · refine isConnected_iff_preconnected.mpr fun u w => ?_
      obtain ⟨p, -⟩ := hpath u w
      exact p.reachable

/-- Vertices are connected if walks among them lead from one of them to all. -/
theorem connected_inducedOn {entry : List Nat} {c : Nat} (hc : c < g.size) (hcin : c ∈ entry)
    (h : ∀ w ∈ entry, ∃ n, g.Walk (· ∈ entry) c n w) : (g.inducedOn entry).Connected := by
  rw [SimpleGraph.connected_iff_exists_forall_reachable]
  refine ⟨⟨⟨c, hc⟩, hcin⟩, fun w => ?_⟩
  obtain ⟨n, hn⟩ := h w.val.val w.property
  obtain ⟨x, hx, hreach⟩ := reachable_of_walk (G := g.inducedOn entry) (fun u => u.val.val)
    (fun _ w hw hwin => ⟨⟨⟨w, lt_size_of_mem_neighbors g hw⟩, hwin⟩, rfl, hw⟩)
    ⟨⟨c, hc⟩, hcin⟩ hn
  rwa [← Subtype.ext (Fin.ext hx)]

/-! ## Counting edges -/

/-- The edge at a position, as an unordered pair of vertices. -/
def edgeAt (g : Graph) (i : Fin g.edges.size) : Sym2 (Fin g.size) :=
  s(⟨g.edges[i].first, (g.inRange _ (Array.getElem_mem i.isLt)).1⟩,
    ⟨g.edges[i].second, (g.inRange _ (Array.getElem_mem i.isLt)).2⟩)

theorem edgeAt_eq_iff {i : Fin g.edges.size} {u w : Fin g.size} :
    g.edgeAt i = s(u, w) ↔ (g.edges[i]).Joins u.val w.val := by
  rw [edgeAt, Sym2.eq_iff, Fin.ext_iff, Fin.ext_iff, Fin.ext_iff, Fin.ext_iff]
  exact Iff.rfl

theorem edgeAt_injective (g : Graph) : Function.Injective g.edgeAt := by
  have hlt : ∀ i j : Fin g.edges.size, i < j → g.edgeAt i ≠ g.edgeAt j := by
    intro i j hij heq
    have hnew := List.pairwise_iff_getElem.mp g.simple i j (by simp) (by simp) hij
    exact hnew (edgeAt_eq_iff.mp heq)
  intro i j heq
  cases lt_trichotomy i j with
  | inl h => exact absurd heq (hlt i j h)
  | inr h =>
    cases h with
    | inl h => exact h
    | inr h => exact absurd heq.symm (hlt j i h)

theorem edgeAt_mem (g : Graph) (i : Fin g.edges.size) : g.edgeAt i ∈ g.toSimpleGraph.edgeSet := by
  have hjoins : (g.edges[i]).Joins g.edges[i].first g.edges[i].second := Or.inl ⟨rfl, rfl⟩
  rw [edgeAt, SimpleGraph.mem_edgeSet, toSimpleGraph_adj, mem_neighbors_iff]
  exact ⟨g.edges[i], Array.getElem_mem i.isLt, hjoins⟩

theorem exists_edgeAt {e : Sym2 (Fin g.size)} (h : e ∈ g.toSimpleGraph.edgeSet) :
    ∃ i, g.edgeAt i = e := by
  induction e using Sym2.inductionOn with
  | _ u w =>
    obtain ⟨e, he, hjoins⟩ := (mem_neighbors_iff g).mp (toSimpleGraph_adj.mp h)
    obtain ⟨i, hi, rfl⟩ := Array.mem_iff_getElem.mp he
    exact ⟨⟨i, hi⟩, edgeAt_eq_iff.mpr hjoins⟩

/-- Every edge of the graph is one edge of the simple graph. -/
theorem card_edgeSet (g : Graph) : Nat.card g.toSimpleGraph.edgeSet = g.edgeCount := by
  have hinjective : Function.Injective fun i => (⟨g.edgeAt i, g.edgeAt_mem i⟩ :
      g.toSimpleGraph.edgeSet) := fun i j h => g.edgeAt_injective (congrArg Subtype.val h)
  have hsurjective : Function.Surjective fun i => (⟨g.edgeAt i, g.edgeAt_mem i⟩ :
      g.toSimpleGraph.edgeSet) := fun e => by
    obtain ⟨i, hi⟩ := exists_edgeAt e.2
    exact ⟨i, Subtype.ext hi⟩
  rw [← Nat.card_congr (Equiv.ofBijective _ ⟨hinjective, hsurjective⟩), Nat.card_fin]
  rfl

/-- A connected graph has no cycle exactly if it has one vertex more than edges. -/
theorem isAcyclic_toSimpleGraph_iff (hconn : g.isConnected = true) (hpos : 0 < g.size) :
    g.toSimpleGraph.IsAcyclic ↔ g.size = g.edgeCount + 1 := by
  have hconnected := connected_toSimpleGraph hconn hpos
  have htree := SimpleGraph.isTree_iff_connected_and_card (G := g.toSimpleGraph)
  rw [card_edgeSet, Nat.card_fin] at htree
  constructor
  · intro h
    exact (htree.mp ⟨hconnected, h⟩).2.symm
  · intro h
    exact (htree.mpr ⟨hconnected, h.symm⟩).isAcyclic

/-! ## Cycles -/

/-- A vertex on a cycle has two neighbors on it. -/
theorem exists_two_of_mem_cycle {V : Type} {G : SimpleGraph V} {r u : V} {p : G.Walk r r}
    (hp : p.IsCycle) (hu : u ∈ p.support) :
    ∃ v ∈ p.support, ∃ w ∈ p.support, v ≠ w ∧ G.Adj u v ∧ G.Adj u w := by
  obtain ⟨v, w, hne, heq⟩ := Set.ncard_eq_two.mp (hp.ncard_neighborSet_toSubgraph_eq_two hu)
  have hv : p.toSubgraph.Adj u v := by
    rw [← SimpleGraph.Subgraph.mem_neighborSet, heq]
    exact Set.mem_insert v {w}
  have hw : p.toSubgraph.Adj u w := by
    rw [← SimpleGraph.Subgraph.mem_neighborSet, heq]
    exact Set.mem_insert_of_mem v rfl
  exact ⟨v, p.mem_verts_toSubgraph.mp hv.snd_mem, w, p.mem_verts_toSubgraph.mp hw.snd_mem, hne,
    hv.adj_sub, hw.adj_sub⟩

end GraphDependency.Graph
