import GraphDependency.Proofs.Graph.Simple
import GraphDependency.Proofs.Pattern.Peeling

set_option autoImplicit false

/-!
# The forest of a pattern

A vertex that is peeled off hangs at one vertex of the core, and all of a walk among the
vertices peeled off hangs at the core vertex where it begins.  So the trees at a core vertex
consist of what hangs at it: no vertex is in two of them, none of them has a second core
vertex, and an edge whose ends are not both in the core has them in the same one.  A cycle
within the trees would not have been peeled off.

Main statements: `mem_treesAt_iff_top` and `decompose_exact`.
-/

namespace GraphDependency.Pattern

open GraphDependency.Graph

variable {g : Graph} {top : Nat → Nat} {entry : List Nat} {c n u w : Nat}

/-! ## What hangs at a core vertex -/

theorem Hangs.top_of_walk (htop : Hangs g top (cyclicCore g)) (hc : c ∈ cyclicCore g)
    (h : g.Walk (· ∈ peeledOff g) c n u) : top u = c := by
  induction n generalizing u with
  | zero =>
    have heq : u = c := h
    rw [heq, htop.self c hc]
  | succ n ih =>
    obtain ⟨hu, v, hv, hvu⟩ := h
    have hout : ¬ (v ∈ cyclicCore g ∧ u ∈ cyclicCore g) := fun h => (mem_peeledOff_iff.mp hu).2 h.2
    exact (htop.same v u hvu hout).symm.trans (ih hv)

theorem cyclicCore_ne_nil (hpos : 0 < g.size) : cyclicCore g ≠ [] :=
  cyclicCore_eq_peel g ▸ peel_ne_nil (List.ne_nil_of_mem ((mem_ids g).mpr hpos))

/-- Every vertex is reached from the core vertex at which it hangs. -/
theorem exists_walk_top (hconn : g.isConnected = true) (htop : Hangs g top (cyclicCore g))
    (hu : u < g.size) : top u ∈ cyclicCore g ∧ ∃ n, g.Walk (· ∈ peeledOff g) (top u) n u := by
  obtain ⟨c, hc⟩ := List.exists_mem_of_ne_nil _ (cyclicCore_ne_nil (Nat.zero_lt_of_lt hu))
  obtain ⟨n, hn⟩ := isConnected_iff.mp hconn c (mem_cyclicCore_lt hc) u hu
  obtain ⟨c', hc', k, hk⟩ :=
    exists_walk_outside hc (fun u hu hout => mem_peeledOff_iff.mpr ⟨hu, hout⟩) hn
  rw [htop.top_of_walk hc' hk]
  exact ⟨hc', k, hk⟩

/-- The trees at a core vertex consist of what hangs at it. -/
theorem mem_treesAt_iff_top (hconn : g.isConnected = true) (htop : Hangs g top (cyclicCore g))
    (hc : c ∈ cyclicCore g) : u ∈ treesAt (peeling g) c ↔ u < g.size ∧ top u = c := by
  rw [mem_treesAt_peeling_iff hc]
  refine and_congr_right fun hu => ⟨?_, fun heq => ?_⟩
  · rintro ⟨n, hn⟩
    exact htop.top_of_walk hc hn
  · exact heq ▸ (exists_walk_top hconn htop hu).2

theorem countP_contains {entries : List (List Nat)} (h : ∀ entry ∈ entries, entry.Nodup) :
    entries.countP (·.contains u) = entries.flatten.count u := by
  induction entries with
  | nil => rfl
  | cons entry entries ih =>
    obtain ⟨hentry, h⟩ := List.forall_mem_cons.mp h
    rw [List.countP_cons, List.flatten_cons, List.count_append, ih h, hentry.count, Nat.add_comm]
    simp only [List.contains_iff_mem]

/-! ## Trees -/

/-- The vertices of a cycle are of the kind that is not peeled off. -/
theorem braced_support {r : Fin g.size} {p : g.toSimpleGraph.Walk r r} (hp : p.IsCycle) :
    Braced g {u | ∃ x ∈ p.support, x.val = u} := by
  rintro u ⟨x, hx, rfl⟩
  obtain ⟨v, hv, w, hw, hne, hxv, hxw⟩ := exists_two_of_mem_cycle hp hx
  exact ⟨v.val, ⟨v, hv, rfl⟩, w.val, ⟨w, hw, rfl⟩, fun heq => hne (Fin.ext heq), hxv, hxw⟩

/-- Vertices among which there is only one of the core are on no cycle. -/
theorem isAcyclic_inducedOn (hone : ∀ u ∈ entry, u ∈ cyclicCore g → u = c) :
    (g.inducedOn entry).IsAcyclic := by
  intro r p hp
  let embedding := SimpleGraph.Embedding.induce (G := g.toSimpleGraph) {u | u.val ∈ entry}
  have hcycle : (p.map embedding.toHom).IsCycle := hp.map Subtype.val_injective
  have hbraced := braced_support hcycle
  have heq : ∀ x ∈ (p.map embedding.toHom).support, x.val = c := by
    intro x hx
    have hcore : x.val ∈ cyclicCore g := mem_cyclicCore_of_braced hbraced _ ⟨x, hx, rfl⟩
    rw [SimpleGraph.Walk.support_map] at hx
    obtain ⟨y, -, rfl⟩ := List.mem_map.mp hx
    exact hone _ y.property hcore
  obtain ⟨_, ⟨v, hv, rfl⟩, _, ⟨w, hw, rfl⟩, hne, -⟩ :=
    hbraced _ ⟨_, SimpleGraph.Walk.start_mem_support _, rfl⟩
  exact hne ((heq v hv).trans (heq w hw).symm)

section Forest

variable (hconn : g.isConnected = true) (htop : Hangs g top (cyclicCore g))

include hconn htop

/-- What hangs at a core vertex is a tree. -/
theorem isTree_treesAt (hc : c ∈ cyclicCore g) :
    (g.inducedOn (treesAt (peeling g) c)).IsTree where
  connected := by
    have hmem := fun u => mem_treesAt_iff_top (u := u) hconn htop hc
    have hclt := mem_cyclicCore_lt hc
    refine connected_inducedOn hclt ((hmem c).mpr ⟨hclt, htop.self c hc⟩) fun w hw => ?_
    obtain ⟨hlt, heq⟩ := (hmem w).mp hw
    obtain ⟨n, hn⟩ := (exists_walk_top hconn htop hlt).2
    rw [heq] at hn
    refine ⟨n, hn.imp fun k u hu => (hmem u).mpr ⟨?_, htop.top_of_walk hc hu⟩⟩
    cases eq_or_ne u c with
    | inl h => exact h ▸ hclt
    | inr h => exact (mem_peeledOff_iff.mp (hu.inside_of_ne h)).1
  isAcyclic := by
    refine isAcyclic_inducedOn (c := c) fun u hu hcore => ?_
    rw [← ((mem_treesAt_iff_top hconn htop hc).mp hu).2, htop.self u hcore]

/-! ## The entries -/

variable (hcyclic : g.size ≠ g.edgeCount + 1)

include hcyclic

theorem treesAt_top_mem_forest (hu : u < g.size) (hout : u ∉ cyclicCore g) :
    treesAt (peeling g) (top u) ∈ (decompose g).forest := by
  obtain ⟨hcore, -⟩ := exists_walk_top hconn htop hu
  have hmem := fun w => mem_treesAt_iff_top (u := w) hconn htop hcore
  have huin := (hmem u).mpr ⟨hu, rfl⟩
  have htopin := (hmem _).mpr ⟨mem_cyclicCore_lt hcore, htop.self _ hcore⟩
  have hlength := one_lt_length huin htopin fun heq => hout (heq ▸ hcore)
  exact (mem_forest_iff hcyclic).mpr ⟨⟨top u, hcore, rfl⟩, hlength⟩

/-- No vertex is in two entries. -/
theorem nodup_flatten_forest : (decompose g).forest.flatten.Nodup := by
  refine List.nodup_flatten.mpr ⟨fun entry he => ?_, ?_⟩
  · obtain ⟨⟨c, hc, rfl⟩, -⟩ := (mem_forest_iff hcyclic).mp he
    exact (nodup_ids g).sublist (treesAt_sublist (peeling g) (mem_cyclicCore_lt hc))
  · rw [decompose_of_cyclic hcyclic]
    refine (List.pairwise_map.mpr ?_).filter _
    refine (pairwise_cyclicCore g).imp_of_mem fun {c c'} hc hc' hlt u hu hu' => ?_
    have heq := ((mem_treesAt_iff_top hconn htop hc).mp hu).2
    have heq' := ((mem_treesAt_iff_top hconn htop hc').mp hu').2
    omega

/-- Every vertex that is peeled off is in one entry. -/
theorem count_flatten_forest (hu : u < g.size) (hout : u ∉ cyclicCore g) :
    (decompose g).forest.flatten.count u = 1 := by
  refine List.count_eq_one_of_mem (nodup_flatten_forest hconn htop hcyclic) ?_
  have hmem : u ∈ treesAt (peeling g) (top u) :=
    (mem_treesAt_iff_top hconn htop (exists_walk_top hconn htop hu).1).mpr ⟨hu, rfl⟩
  exact List.mem_flatten.mpr ⟨_, treesAt_top_mem_forest hconn htop hcyclic hu hout, hmem⟩

/-- With a vertex that is peeled off its neighbors are in the same entry. -/
theorem countP_forest (hu : u < g.size) (hout : u ∉ cyclicCore g) (hw : w ∈ g.neighbors u) :
    (decompose g).forest.countP (fun entry => entry.contains u && entry.contains w) = 1 := by
  have hnodup := List.nodup_flatten.mp (nodup_flatten_forest hconn htop hcyclic)
  rw [← count_flatten_forest hconn htop hcyclic hu hout, ← countP_contains hnodup.1]
  refine List.countP_congr fun entry he => ?_
  obtain ⟨⟨c, hc, rfl⟩, -⟩ := (mem_forest_iff hcyclic).mp he
  rw [Bool.and_eq_true, List.contains_iff_mem, List.contains_iff_mem, and_iff_left_iff_imp,
    mem_treesAt_iff_top hconn htop hc, mem_treesAt_iff_top hconn htop hc]
  rintro ⟨-, heq⟩
  have hsame := htop.same u w hw fun h => hout h.1
  exact ⟨lt_size_of_mem_neighbors g hw, hsame ▸ heq⟩

/-- An edge with an end that is peeled off lies in one entry. -/
theorem countP_forest_of_mem_edges {e : Edge} (he : e ∈ g.edges)
    (hout : e.first ∉ cyclicCore g ∨ e.second ∉ cyclicCore g) :
    (decompose g).forest.countP
      (fun entry => entry.contains e.first && entry.contains e.second) = 1 := by
  obtain ⟨hfirst, hsecond⟩ := g.inRange e he
  have hadj : e.second ∈ g.neighbors e.first :=
    (mem_neighbors_iff g).mpr ⟨e, he, Or.inl ⟨rfl, rfl⟩⟩
  cases hout with
  | inl h => exact countP_forest hconn htop hcyclic hfirst h hadj
  | inr h =>
    rw [← countP_forest hconn htop hcyclic hsecond h ((mem_neighbors_comm g).mp hadj)]
    exact List.countP_congr fun entry _ => by rw [Bool.and_comm]

/-- The only core vertex of an entry is the one at which its trees hang. -/
theorem existsUnique_core (he : entry ∈ (decompose g).forest) :
    ∃! c, c ∈ entry ∧ c ∈ cyclicCore g := by
  obtain ⟨⟨c, hc, rfl⟩, -⟩ := (mem_forest_iff hcyclic).mp he
  have hmem := fun u => mem_treesAt_iff_top (u := u) hconn htop hc
  refine ⟨c, ⟨(hmem c).mpr ⟨mem_cyclicCore_lt hc, htop.self c hc⟩, hc⟩, fun u hu => ?_⟩
  rw [← ((hmem u).mp hu.1).2, htop.self u hu.2]

end Forest

/-! ## The decomposition -/

/-- The core of a pattern and the trees that hang off it. -/
structure IsDecomposition (g : Graph) (d : Decomposition) : Prop where
  core_ne_nil : d.core ≠ []
  /-- The core is the largest set in which every vertex has two neighbors. -/
  isGreatest : IsGreatest {s | Braced g s} {u | u ∈ d.core}
  ascending : d.core.Pairwise (· < ·)
  /-- An entry lists vertices, each of them once. -/
  entries : ∀ entry ∈ d.forest, entry.Sublist g.ids
  /-- Every vertex outside the core is listed once. -/
  once : ∀ u < g.size, u ∉ d.core → d.forest.flatten.count u = 1
  /-- Every entry has one core vertex. -/
  attached : ∀ entry ∈ d.forest, ∃! c, c ∈ entry ∧ c ∈ d.core
  isTree : ∀ entry ∈ d.forest, (g.inducedOn entry).IsTree
  /-- An edge with an end outside the core lies in one entry. -/
  edges : ∀ e ∈ g.edges, e.first ∉ d.core ∨ e.second ∉ d.core →
    d.forest.countP (fun entry => entry.contains e.first && entry.contains e.second) = 1

theorem isDecomposition_of_cyclic (hconn : g.isConnected = true) (hpos : 0 < g.size)
    (hcyclic : ¬ g.toSimpleGraph.IsAcyclic) : IsDecomposition g (decompose g) := by
  obtain ⟨top, htop⟩ := exists_top g
  have hsize : g.size ≠ g.edgeCount + 1 := fun h =>
    hcyclic ((isAcyclic_toSimpleGraph_iff hconn hpos).mpr h)
  have hcore : (decompose g).core = cyclicCore g := by rw [decompose_of_cyclic hsize]
  have hentry : ∀ entry ∈ (decompose g).forest, ∃ c ∈ cyclicCore g,
      treesAt (peeling g) c = entry := fun entry he => ((mem_forest_iff hsize).mp he).1
  obtain ⟨r, p, hp⟩ : ∃ r, ∃ p : g.toSimpleGraph.Walk r r, p.IsCycle := by
    simpa [SimpleGraph.IsAcyclic] using hcyclic
  exact
    { core_ne_nil := core_ne_nil hpos
      isGreatest := by
        rw [hcore]
        exact isGreatest_cyclicCore hconn (braced_support hp) ⟨_, r, p.start_mem_support, rfl⟩
      ascending := pairwise_core g
      entries := by
        intro entry he
        obtain ⟨c, hc, rfl⟩ := hentry entry he
        exact treesAt_sublist (peeling g) (mem_cyclicCore_lt hc)
      once := by
        rw [hcore]
        exact fun u hu hout => count_flatten_forest hconn htop hsize hu hout
      attached := by
        rw [hcore]
        exact fun entry he => existsUnique_core hconn htop hsize he
      isTree := by
        intro entry he
        obtain ⟨c, hc, rfl⟩ := hentry entry he
        exact isTree_treesAt hconn htop hc
      edges := by
        rw [hcore]
        exact fun e he hout => countP_forest_of_mem_edges hconn htop hsize he hout }

/-- What a connected pattern decomposes into. -/
theorem decompose_exact (hconn : g.isConnected = true) (hpos : 0 < g.size) :
    (g.toSimpleGraph.IsAcyclic → decompose g = ⟨g.ids, [], Array.replicate g.size true⟩)
      ∧ (¬ g.toSimpleGraph.IsAcyclic → IsDecomposition g (decompose g))
      ∧ ∀ u, (decompose g).inCore u = true ↔ u ∈ (decompose g).core := by
  refine ⟨fun h => ?_, isDecomposition_of_cyclic hconn hpos, marked_decompose g⟩
  exact if_pos ((isAcyclic_toSimpleGraph_iff hconn hpos).mp h)

/-- A triangle with two more vertices in a row. -/
def tadpole : Graph where
  vertices := #[⟨"a", .empty⟩, ⟨"a", .empty⟩, ⟨"a", .empty⟩, ⟨"a", .empty⟩, ⟨"a", .empty⟩]
  edges := #[⟨0, 1, "e"⟩, ⟨1, 2, "e"⟩, ⟨2, 0, "e"⟩, ⟨2, 3, "e"⟩, ⟨3, 4, "e"⟩]
  incidence := incidenceTable 5
    #[⟨0, 1, "e"⟩, ⟨1, 2, "e"⟩, ⟨2, 0, "e"⟩, ⟨2, 3, "e"⟩, ⟨3, 4, "e"⟩]
  incidence_eq := rfl
  inRange := by simp
  loopless := by simp
  simple := by decide

/-- The last vertex goes first and leaves the one before it with one neighbor. -/
theorem decompose_tadpole :
    decompose tadpole = ⟨[0, 1, 2], [[2, 3, 4]], #[true, true, true, false, false]⟩ := by
  cbv

theorem decompose_exact_tadpole : tadpole.isConnected = true ∧ 0 < tadpole.size
    ∧ ¬ tadpole.toSimpleGraph.IsAcyclic
    ∧ IsDecomposition tadpole ⟨[0, 1, 2], [[2, 3, 4]], #[true, true, true, false, false]⟩
    ∧ (decompose tadpole).inCore 2 = true ∧ ¬ (decompose tadpole).inCore 3 = true := by
  have hconn : tadpole.isConnected = true := by decide
  have hpos : 0 < tadpole.size := Nat.succ_pos 4
  have hcyclic : ¬ tadpole.toSimpleGraph.IsAcyclic := fun h =>
    absurd ((isAcyclic_toSimpleGraph_iff hconn hpos).mp h) (by decide)
  obtain ⟨-, h, hmarks⟩ := decompose_exact hconn hpos
  refine ⟨hconn, hpos, hcyclic, decompose_tadpole ▸ h hcyclic, (hmarks 2).mpr ?_,
    fun h => absurd ((hmarks 3).mp h) ?_⟩ <;> rw [decompose_tadpole] <;> decide

end GraphDependency.Pattern
