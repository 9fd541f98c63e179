import GraphDependency.Pattern.Tree
import GraphDependency.Proofs.Graph.Walk

set_option autoImplicit false

/-!
# Breadth-first trees

The levels of a tree are the distances from its root, and a parent is a neighbor
that is nearer to the root by one.

Main statements: `findIdx?_layers_eq_some_iff` (the level of a vertex is its
distance), `parent?_eq_some` and `exists_parent?` (every reached vertex but the
root has a parent, one level up), `mem_flatten_levels` (the tree of a connected
pattern reaches every vertex), `pairwise_flatten_levels` and
`pairwise_flatten_reverse_levels` (from the root downwards no vertex comes before its
parent, and upwards none comes behind it).
-/

namespace GraphDependency.Pattern.Tree

open GraphDependency.Graph

variable {g : Graph} {t : Tree} {root u p d : Nat}

/-- Among the layers, a vertex is first met at its distance. -/
theorem findIdx?_layers_eq_some_iff :
    (g.layers root).findIdx? (fun level => level.contains u) = some d
      ↔ g.AtDistance (· < g.size) root d u := by
  rw [List.findIdx?_eq_some_iff_getElem]
  constructor
  · rintro ⟨hd, hmem, -⟩
    exact mem_layers_iff.mp ⟨_, List.getElem?_eq_getElem hd, by simpa using hmem⟩
  · intro h
    obtain ⟨level, hl, hmem⟩ := mem_layers_iff.mpr h
    obtain ⟨hd, rfl⟩ := List.getElem?_eq_some_iff.mp hl
    refine ⟨hd, by simpa using hmem, ?_⟩
    intro j hj hin
    have hat := mem_layers_iff.mp
      ⟨_, List.getElem?_eq_getElem (Nat.lt_trans hj hd), by simpa using hin⟩
    exact Nat.ne_of_lt hj (hat.unique h)

/-! ## The parts of a tree -/

theorem build?_eq_some_iff :
    build? g root = some t
      ↔ root < g.size ∧ t = ⟨g, root, g.layers root,
          Array.ofFn (n := g.size) fun u => parentIn? g (g.layers root) u.val⟩ := by
  unfold build?
  split
  · rename_i h
    simp [h, eq_comm]
  · rename_i h
    simp [h]

variable (ht : build? g root = some t)

include ht

theorem root_lt : root < g.size := (build?_eq_some_iff.mp ht).1

theorem pattern_eq : t.pattern = g := by rw [(build?_eq_some_iff.mp ht).2]

theorem root_eq : t.root = root := by rw [(build?_eq_some_iff.mp ht).2]

theorem levels_eq : t.levels = g.layers root := by rw [(build?_eq_some_iff.mp ht).2]

theorem parent?_eq : t.parent? u = if u < g.size then parentIn? g (g.layers root) u else none := by
  rw [(build?_eq_some_iff.mp ht).2, parent?]
  by_cases h : u < g.size <;> simp [h]

theorem levels_eq_cons : t.levels = [t.root] :: t.levels.tail := by
  rw [levels_eq ht, root_eq ht]
  rfl

/-- The level at a position holds the vertices at that distance from the root. -/
theorem mem_levels_iff {i : Nat} :
    (∃ level, t.levels[i]? = some level ∧ u ∈ level)
      ↔ g.AtDistance (· < g.size) root i u := by
  rw [levels_eq ht, mem_layers_iff]

theorem nodup_flatten_levels : t.levels.flatten.Nodup := by
  rw [levels_eq ht]
  exact nodup_reachable root

theorem pairwise_of_mem_levels {level : List Nat} (h : level ∈ t.levels) :
    level.Pairwise (· < ·) := by
  rw [levels_eq ht] at h
  exact pairwise_of_mem_layersWithin h

/-- The tree of a connected pattern reaches every vertex. -/
theorem mem_flatten_levels (hconn : g.isConnected = true) :
    u ∈ t.levels.flatten ↔ u < g.size := by
  rw [levels_eq ht]
  exact mem_reachable_of_isConnected hconn (root_lt ht)

/-! ## Parents -/

/-- A parent is a neighbor that is nearer to the root by one. -/
theorem parent?_eq_some (h : t.parent? u = some p) :
    p ∈ g.neighbors u ∧ ∃ d, g.AtDistance (· < g.size) root d p
      ∧ g.AtDistance (· < g.size) root (d + 1) u := by
  rw [parent?_eq ht] at h
  split at h
  · obtain ⟨hp, d, hd, hmem⟩ := parentIn?_mem h
    refine ⟨hp, d, ?_, findIdx?_layers_eq_some_iff.mp hd⟩
    rw [List.getD_eq_getElem?_getD] at hmem
    cases hl : (g.layers root)[d]? with
    | none => simp [hl] at hmem
    | some level => exact mem_layers_iff.mp ⟨level, hl, by simpa [hl] using hmem⟩
  · cases h

/-- Every reached vertex but the root has a parent. -/
theorem exists_parent? (h : g.AtDistance (· < g.size) root (d + 1) u) :
    ∃ p, t.parent? u = some p := by
  obtain ⟨hu, c, hc, huc⟩ := h.pred
  rw [parent?_eq ht, if_pos hu, parentIn?, findIdx?_layers_eq_some_iff.mpr h]
  obtain ⟨level, hl, hmem⟩ := mem_layers_iff.mpr hc
  rw [← Option.isSome_iff_exists, List.find?_isSome, List.getD_eq_getElem?_getD, hl]
  exact ⟨c, hmem, by simpa using (mem_neighbors_comm g).mp huc⟩

theorem parent?_root : t.parent? root = none := by
  cases h : t.parent? root with
  | none => rfl
  | some p =>
    obtain ⟨-, d, -, hd⟩ := parent?_eq_some ht h
    exact absurd (hd.unique (atDistance_zero_iff.mpr rfl)) (Nat.succ_ne_zero d)

theorem parent?_lt_size (h : t.parent? u = some p) : p < g.size ∧ u < g.size := by
  have hp := (parent?_eq_some ht h).1
  exact ⟨g.lt_size_of_mem_neighbors hp,
    g.lt_size_of_mem_neighbors ((mem_neighbors_comm g).mp hp)⟩

theorem parent?_ne_self (h : t.parent? u = some p) : u ≠ p :=
  (g.ne_of_mem_neighbors (parent?_eq_some ht h).1).symm

/-- In a connected pattern only the root has no parent. -/
theorem parent?_eq_none_iff (hconn : g.isConnected = true) (hu : u < g.size) :
    t.parent? u = none ↔ u = root := by
  constructor
  · intro h
    obtain ⟨n, hn⟩ := isConnected_iff.mp hconn root (root_lt ht) u hu
    obtain ⟨d, -, hd⟩ := Walk.exists_atDistance hn
    cases d with
    | zero => exact atDistance_zero_iff.mp hd
    | succ d =>
      obtain ⟨p, hp⟩ := exists_parent? ht hd
      rw [h] at hp
      cases hp
  · rintro rfl
    exact parent?_root ht

/-- The edge between a vertex and its parent has a label. -/
theorem exists_edgeLabel?_parent (h : t.parent? u = some p) :
    ∃ label, t.pattern.edgeLabel? p u = some label := by
  rw [pattern_eq ht]
  exact g.exists_edgeLabel? ((mem_neighbors_comm g).mp (parent?_eq_some ht h).1)

/-- The vertices with a parent are those below the root. -/
theorem exists_parent?_iff :
    (∃ p, t.parent? u = some p) ↔ u ∈ t.levels.tail.flatten := by
  rw [List.mem_flatten]
  constructor
  · rintro ⟨p, hp⟩
    obtain ⟨-, d, -, hd⟩ := parent?_eq_some ht hp
    obtain ⟨level, hl, hmem⟩ := (mem_levels_iff ht).mpr hd
    rw [← List.getElem?_tail] at hl
    exact ⟨level, List.mem_of_getElem? hl, hmem⟩
  · rintro ⟨level, hl, hmem⟩
    obtain ⟨d, hd⟩ := List.mem_iff_getElem?.mp hl
    rw [List.getElem?_tail] at hd
    exact exists_parent? ht ((mem_levels_iff ht).mp ⟨level, hd, hmem⟩)

theorem mem_flatten_levels_of_parent? (h : t.parent? u = some p) :
    p ∈ t.levels.flatten ∧ u ∈ t.levels.flatten := by
  obtain ⟨-, d, hp, hu⟩ := parent?_eq_some ht h
  obtain ⟨upper, hupper, hmemp⟩ := (mem_levels_iff ht).mpr hp
  obtain ⟨lower, hlower, hmemu⟩ := (mem_levels_iff ht).mpr hu
  exact ⟨List.mem_flatten.mpr ⟨upper, List.mem_of_getElem? hupper, hmemp⟩,
    List.mem_flatten.mpr ⟨lower, List.mem_of_getElem? hlower, hmemu⟩⟩

/-! ## The order of the levels -/

/-- A vertex on the same level or below is no parent. -/
theorem parent?_ne_some {i j : Nat} (hij : i ≤ j) (hu : g.AtDistance (· < g.size) root i u)
    (hp : g.AtDistance (· < g.size) root j p) : t.parent? u ≠ some p := by
  intro h
  obtain ⟨-, d, hd, hsucc⟩ := parent?_eq_some ht h
  have hj := hp.unique hd
  have hi := hu.unique hsucc
  omega

/-- No level contains a vertex and its parent. -/
theorem pairwise_of_mem_levels_parent? {level : List Nat} (hl : level ∈ t.levels) :
    level.Pairwise fun u w => u ≠ w ∧ t.parent? u ≠ some w ∧ t.parent? w ≠ some u := by
  obtain ⟨i, hi⟩ := List.mem_iff_getElem?.mp hl
  refine (pairwise_of_mem_levels ht hl).imp_of_mem fun hu hw hlt => ?_
  have hu' := (mem_levels_iff ht).mp ⟨level, hi, hu⟩
  have hw' := (mem_levels_iff ht).mp ⟨level, hi, hw⟩
  exact ⟨Nat.ne_of_lt hlt, parent?_ne_some ht (Nat.le_refl i) hu' hw',
    parent?_ne_some ht (Nat.le_refl i) hw' hu'⟩

/-- A level contains no parent of a vertex on a level above. -/
theorem pairwise_levels_parent? :
    t.levels.Pairwise fun upper lower =>
      ∀ u ∈ upper, ∀ w ∈ lower, u ≠ w ∧ t.parent? u ≠ some w := by
  refine List.pairwise_iff_getElem.mpr fun i j hi hj hij u hu w hw => ?_
  have hu' := (mem_levels_iff ht).mp ⟨_, List.getElem?_eq_getElem hi, hu⟩
  have hw' := (mem_levels_iff ht).mp ⟨_, List.getElem?_eq_getElem hj, hw⟩
  refine ⟨?_, parent?_ne_some ht (Nat.le_of_lt hij) hu' hw'⟩
  rintro rfl
  exact Nat.ne_of_lt hij (hu'.unique hw')

/-- From the root downwards, no vertex comes before its parent. -/
theorem pairwise_flatten_levels :
    t.levels.flatten.Pairwise fun u w => u ≠ w ∧ t.parent? u ≠ some w := by
  refine List.pairwise_flatten.mpr ⟨fun level hl => ?_, pairwise_levels_parent? ht⟩
  exact (pairwise_of_mem_levels_parent? ht hl).imp fun h => ⟨h.1, h.2.1⟩

/-- Upwards, level by level, no vertex comes behind its parent. -/
theorem pairwise_flatten_reverse_levels :
    t.levels.reverse.flatten.Pairwise fun u w => u ≠ w ∧ t.parent? w ≠ some u := by
  refine List.pairwise_flatten.mpr ⟨fun level hl => ?_, List.pairwise_reverse.mpr ?_⟩
  · rw [List.mem_reverse] at hl
    exact (pairwise_of_mem_levels_parent? ht hl).imp fun h => ⟨h.1, h.2.2⟩
  · refine (pairwise_levels_parent? ht).imp fun h u hu w hw => ?_
    obtain ⟨hne, hparent⟩ := h w hw u hu
    exact ⟨hne.symm, hparent⟩

omit ht in
theorem isTreeEdge_iff {v : Nat} :
    t.isTreeEdge u v = true ↔ t.parent? u = some v ∨ t.parent? v = some u := by
  rw [isTreeEdge, Bool.or_eq_true, beq_iff_eq, beq_iff_eq]

theorem mem_children_iff : u ∈ t.children p ↔ t.parent? u = some p := by
  rw [children, List.mem_filter, pattern_eq ht, mem_ids, decide_eq_true_eq,
    and_iff_right_iff_imp]
  exact fun h => (parent?_lt_size ht h).2

end GraphDependency.Pattern.Tree
