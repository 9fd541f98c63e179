import GraphDependency.Proofs.Graph.Walk
import GraphDependency.Proofs.Pattern.Degrees
import Mathlib.Data.List.Sort

set_option autoImplicit false

/-!
# The core and its trees

The trees at a core vertex consist of the vertices to which a walk leads from it
that stays among the vertices peeled off.

Main statements: `mem_treesAt_iff` and `exists_mem_forest`, in a connected pattern
every vertex outside the core is in an entry of the forest, together with a core
vertex.
-/

namespace GraphDependency.Pattern

open GraphDependency.Graph

variable {g : Graph} {s : Peeling g} {stack tree peeled : List Nat} {attachment u w : Nat}

/-- A list without repetitions is sorted into the ascending list of its members. -/
theorem mergeSort_eq {xs ys : List Nat} (hnodup : xs.Nodup) (hys : ys.Pairwise (· < ·))
    (hmem : ∀ x, x ∈ xs ↔ x ∈ ys) : xs.mergeSort = ys := by
  have hsorted : xs.mergeSort.Pairwise (· ≤ ·) :=
    (List.pairwise_mergeSort (fun a b c hab hbc => by simp only [decide_eq_true_eq] at *; omega)
      (fun a b => by simp only [Bool.or_eq_true, decide_eq_true_eq]; omega) xs).imp
      of_decide_eq_true
  have hperm : xs.Perm ys :=
    (List.perm_ext_iff_of_nodup hnodup (hys.imp Nat.ne_of_lt)).mpr hmem
  exact ((List.mergeSort_perm xs _).trans hperm).eq_of_pairwise' hsorted
    (hys.imp Nat.le_of_lt)

/-! ## Collecting a tree -/

/-- While a tree is collected, what was met and what is on the stack is reached by walks among
the vertices peeled off, and what is next to a vertex that was met is on the stack if it was not
met itself. -/
structure Collecting (s : Peeling g) (attachment : Nat) (stack tree : List Nat) : Prop where
  start_mem : attachment ∈ tree
  nodup : tree.Nodup
  lt_size : ∀ u ∈ tree, u < g.size
  stack_lt_size : ∀ u ∈ stack, u < g.size
  walk : ∀ u, u ∈ tree ∨ u ∈ stack → ∃ n, g.Walk (fun u => s.isPeeled u = true) attachment n u
  closed : ∀ u ∈ tree, ∀ w ∈ g.neighbors u, s.isPeeled w = true → w ∈ tree ∨ w ∈ stack

namespace Collecting

/-- In the beginning the core vertex was met, and its neighbors are on the stack. -/
theorem start (ha : attachment < g.size) :
    Collecting s attachment ((g.neighbors attachment).filter s.isPeeled).reverse [attachment] where
  start_mem := List.mem_singleton_self attachment
  nodup := List.nodup_singleton attachment
  lt_size := List.forall_mem_singleton.mpr ha
  stack_lt_size u hu :=
    lt_size_of_mem_neighbors g (List.mem_of_mem_filter (List.mem_reverse.mp hu))
  walk u hu := by
    rcases hu with hu | hu
    · exact ⟨0, List.mem_singleton.mp hu⟩
    · obtain ⟨hadj, hpeeled⟩ := List.mem_filter.mp (List.mem_reverse.mp hu)
      exact ⟨1, hpeeled, attachment, rfl, hadj⟩
  closed u hu w hw hpeeled := by
    rw [List.mem_singleton.mp hu] at hw
    exact Or.inr (List.mem_reverse.mpr (List.mem_filter.mpr ⟨hw, hpeeled⟩))

/-- A vertex that was met before is taken from the stack. -/
theorem pass (h : Collecting s attachment (u :: stack) tree) (hu : ¬ (u < g.size ∧ u ∉ tree)) :
    Collecting s attachment stack tree where
  start_mem := h.start_mem
  nodup := h.nodup
  lt_size := h.lt_size
  stack_lt_size w hw := h.stack_lt_size w (List.mem_cons_of_mem u hw)
  walk w hw := h.walk w (hw.imp_right (List.mem_cons_of_mem u))
  closed v hv w hw hpeeled := by
    have hmet : u ∈ tree := by
      by_contra hnew
      exact hu ⟨h.stack_lt_size u List.mem_cons_self, hnew⟩
    rcases h.closed v hv w hw hpeeled with hw | hw
    · exact Or.inl hw
    · rcases List.mem_cons.mp hw with rfl | hw
      · exact Or.inl hmet
      · exact Or.inr hw

/-- A new vertex is met, and its neighbors go onto the stack. -/
theorem meet (h : Collecting s attachment (u :: stack) tree) (hlt : u < g.size) (hnew : u ∉ tree) :
    Collecting s attachment (((g.neighbors u).filter fun w =>
      s.isPeeled w && !(tree ++ [u]).contains w).reverse ++ stack) (tree ++ [u]) where
  start_mem := List.mem_append_left [u] h.start_mem
  nodup := List.concat_eq_append ▸ h.nodup.concat hnew
  lt_size w hw := by
    rcases List.mem_append.mp hw with hw | hw
    · exact h.lt_size w hw
    · exact List.mem_singleton.mp hw ▸ hlt
  stack_lt_size w hw := by
    rcases List.mem_append.mp hw with hw | hw
    · exact lt_size_of_mem_neighbors g (List.mem_of_mem_filter (List.mem_reverse.mp hw))
    · exact h.stack_lt_size w (List.mem_cons_of_mem u hw)
  walk w hw := by
    have hu := h.walk u (Or.inr List.mem_cons_self)
    rw [List.mem_append, List.mem_append, List.mem_singleton, List.mem_reverse] at hw
    rcases hw with (hw | rfl) | hw | hw
    · exact h.walk w (Or.inl hw)
    · exact hu
    · obtain ⟨n, hn⟩ := hu
      obtain ⟨hadj, hkeep⟩ := List.mem_filter.mp hw
      exact ⟨n + 1, (Bool.and_eq_true_iff.mp hkeep).1, u, hn, hadj⟩
    · exact h.walk w (Or.inr (List.mem_cons_of_mem u hw))
  closed v hv w hw hpeeled := by
    by_cases hmet : w ∈ tree ++ [u]
    · exact Or.inl hmet
    · refine Or.inr (List.mem_append.mpr ?_)
      rcases List.mem_append.mp hv with hv | hv
      · -- It was on the stack before, and it is not the vertex taken from it.
        rw [List.mem_append, List.mem_singleton, not_or] at hmet
        have hstack := (h.closed v hv w hw hpeeled).resolve_left hmet.1
        exact Or.inr ((List.mem_cons.mp hstack).resolve_left hmet.2)
      · rw [List.mem_singleton.mp hv] at hw
        refine Or.inl (List.mem_reverse.mpr (List.mem_filter.mpr ⟨hw, ?_⟩))
        simpa [hpeeled] using hmet

/-- In the end nothing is on the stack. -/
theorem collect (h : Collecting s attachment stack tree) :
    Collecting s attachment [] (collectTree s stack tree) := by
  fun_induction collectTree s stack tree with
  | case1 tree => exact h
  | case2 tree u stack hu _ _ ih => exact ih (h.meet hu.1 hu.2)
  | case3 tree u stack hu ih => exact ih (h.pass hu)

/-- Then exactly what is reached was met. -/
theorem mem_iff (h : Collecting s attachment [] tree) :
    w ∈ tree ↔ ∃ n, g.Walk (fun u => s.isPeeled u = true) attachment n w := by
  refine ⟨fun hw => h.walk w (Or.inl hw), ?_⟩
  rintro ⟨n, hn⟩
  induction n generalizing w with
  | zero =>
    cases hn
    exact h.start_mem
  | succ n ih =>
    obtain ⟨hpeeled, v, hv, hvw⟩ := hn
    exact (h.closed v (ih hv) w hvw hpeeled).resolve_right List.not_mem_nil

end Collecting

/-- The trees at a core vertex are listed ascending. -/
theorem treesAt_eq_filter (s : Peeling g) (ha : attachment < g.size) :
    treesAt s attachment = g.ids.filter (collectTree s
      ((g.neighbors attachment).filter s.isPeeled).reverse [attachment]).contains := by
  have h := (Collecting.start (s := s) ha).collect
  refine mergeSort_eq h.nodup ((pairwise_ids g).filter _) fun w => ?_
  rw [List.mem_filter, mem_ids, List.contains_iff_mem]
  exact ⟨fun hw => ⟨h.lt_size w hw, hw⟩, And.right⟩

theorem treesAt_sublist (s : Peeling g) (ha : attachment < g.size) :
    (treesAt s attachment).Sublist g.ids := by
  rw [treesAt_eq_filter s ha]
  exact List.filter_sublist

/-- What hangs at a core vertex. -/
theorem mem_treesAt_iff (ha : attachment < g.size) :
    w ∈ treesAt s attachment
      ↔ w < g.size ∧ ∃ n, g.Walk (fun u => s.isPeeled u = true) attachment n w := by
  rw [treesAt_eq_filter s ha, List.mem_filter, mem_ids, List.contains_iff_mem,
    (Collecting.start ha).collect.mem_iff]

/-- A walk from a core vertex leaves the core for the last time somewhere. -/
theorem exists_walk_outside {core : List Nat} {c n : Nat} (hc : c ∈ core)
    (hpeeled : ∀ u, u < g.size → u ∉ core → u ∈ peeled) (h : g.Hops c n u) :
    ∃ c ∈ core, ∃ k, g.Walk (· ∈ peeled) c k u := by
  induction n generalizing u with
  | zero =>
    cases h
    exact ⟨c, hc, 0, rfl⟩
  | succ n ih =>
    obtain ⟨hu, x, hx, hxu⟩ := h
    by_cases hcore : u ∈ core
    · exact ⟨u, hcore, 0, rfl⟩
    · obtain ⟨c', hc', k, hk⟩ := ih hx
      exact ⟨c', hc', k + 1, hpeeled u hu hcore, x, hk, hxu⟩

/-! ## The marks of the core -/

/-- The vertices that are marked are the core vertices. -/
def Decomposition.Marked (d : Decomposition) : Prop := ∀ u, d.inCore u = true ↔ u ∈ d.core

/-- Marking some vertices marks these and keeps the marks that there are. -/
theorem getD_foldl_mark {us : List Nat} {marks : Array Bool} (hlt : ∀ u ∈ us, u < marks.size) :
    ((us.foldl (fun marks u => marks.setIfInBounds u true) marks)[w]?).getD false
      = (us.contains w || (marks[w]?).getD false) := by
  induction us generalizing marks with
  | nil => simp
  | cons u us ih =>
    obtain ⟨hu, hlt⟩ := List.forall_mem_cons.mp hlt
    rw [List.foldl_cons, ih (by simpa using hlt), Array.getElem?_setIfInBounds, List.contains_cons]
    by_cases hw : w = u
    · simp [hw, hu]
    · simp [Ne.symm hw, beq_false_of_ne hw]

theorem getD_marking {size : Nat} {us : List Nat} (hlt : ∀ u ∈ us, u < size) :
    ((marking size us)[w]?).getD false = us.contains w := by
  rw [marking, getD_foldl_mark (by simpa using hlt)]
  by_cases hw : w < size <;> simp [hw]

theorem mem_cyclicCore_lt (h : u ∈ cyclicCore g) : u < g.size := (Peeling.mem_left_iff.mp h).1

/-- Both ways to fill the table mark the core: all at once in a tree, or vertex by vertex. -/
theorem marked_decompose (g : Graph) : (decompose g).Marked := by
  intro u
  unfold decompose Decomposition.inCore
  split
  · by_cases hu : u < g.size <;> simp [hu]
  · simp only
    rw [getD_marking fun w hw => mem_cyclicCore_lt hw, List.contains_iff_mem]

/-- A pattern with vertices has a core. -/
theorem core_ne_nil (h : 0 < g.size) : (decompose g).core ≠ [] := by
  have hids : g.ids ≠ [] := List.ne_nil_of_mem ((mem_ids g).mpr h)
  unfold decompose
  split
  · exact hids
  · exact cyclicCore_eq_peel g ▸ peel_ne_nil hids

/-! ## The entries of the forest -/

/-- The vertices peeled off. -/
def peeledOff (g : Graph) : List Nat := g.ids.filter fun u => !(cyclicCore g).contains u

theorem mem_peeledOff_iff : u ∈ peeledOff g ↔ u < g.size ∧ u ∉ cyclicCore g := by
  rw [peeledOff, List.mem_filter, mem_ids, Bool.not_eq_true', List.contains_eq_mem,
    decide_eq_false_iff_not]

theorem isPeeled_peeling_iff : (peeling g).isPeeled u = true ↔ u ∈ peeledOff g := by
  rw [mem_peeledOff_iff, cyclicCore, Peeling.mem_left_iff]
  by_cases hu : u < g.size
  · simp [hu]
  · simp [hu, Peeling.isPeeled]

theorem decompose_of_cyclic (h : g.size ≠ g.edgeCount + 1) :
    decompose g = ⟨cyclicCore g,
      ((cyclicCore g).map (treesAt (peeling g))).filter fun entry => 1 < entry.length,
      marking g.size (cyclicCore g)⟩ :=
  if_neg h

theorem mem_forest_iff {entry : List Nat} (h : g.size ≠ g.edgeCount + 1) :
    entry ∈ (decompose g).forest
      ↔ (∃ c ∈ cyclicCore g, treesAt (peeling g) c = entry) ∧ 1 < entry.length := by
  rw [decompose_of_cyclic h, List.mem_filter, List.mem_map, decide_eq_true_eq]

theorem mem_treesAt_peeling_iff {c : Nat} (hc : c ∈ cyclicCore g) :
    u ∈ treesAt (peeling g) c ↔ u < g.size ∧ ∃ n, g.Walk (· ∈ peeledOff g) c n u := by
  rw [mem_treesAt_iff (mem_cyclicCore_lt hc)]
  simp only [isPeeled_peeling_iff]

theorem one_lt_length {entry : List Nat} (hu : u ∈ entry) (hw : w ∈ entry) (hne : u ≠ w) :
    1 < entry.length := by
  have hnodup : [u, w].Nodup := by simpa using hne
  have hsub : [u, w] ⊆ entry := by simp [hu, hw]
  exact (hnodup.subperm hsub).length_le

/-- In a connected pattern every vertex outside the core hangs at a core vertex. -/
theorem exists_mem_forest (hconn : g.isConnected = true) (hu : u < g.size)
    (hcore : u ∉ (decompose g).core) :
    ∃ entry ∈ (decompose g).forest, u ∈ entry ∧ ∃ c ∈ entry, c ∈ (decompose g).core := by
  obtain ⟨c₀, hc₀⟩ := List.exists_mem_of_ne_nil _ (core_ne_nil (Nat.zero_lt_of_lt hu))
  obtain ⟨n, hn⟩ := isConnected_iff.mp hconn c₀ (mem_core_lt hc₀) u hu
  cases eq_or_ne g.size (g.edgeCount + 1) with
  | inl htree =>
    rw [decompose, if_pos htree, mem_ids] at hcore
    exact absurd hu hcore
  | inr hcyclic =>
    have heq : (decompose g).core = cyclicCore g := by rw [decompose_of_cyclic hcyclic]
    rw [heq] at hcore hc₀ ⊢
    obtain ⟨c, hc, k, hk⟩ :=
      exists_walk_outside hc₀ (fun u hu hout => mem_peeledOff_iff.mpr ⟨hu, hout⟩) hn
    have huin := (mem_treesAt_peeling_iff hc).mpr ⟨hu, k, hk⟩
    have hcin := (mem_treesAt_peeling_iff hc).mpr ⟨mem_cyclicCore_lt hc, 0, rfl⟩
    have hlength := one_lt_length huin hcin fun heq => hcore (heq ▸ hc)
    exact ⟨_, (mem_forest_iff hcyclic).mpr ⟨⟨c, hc, rfl⟩, hlength⟩, huin, c, hcin, hc⟩

/-- An entry of the forest has a vertex outside the core. -/
theorem exists_not_mem_core (hforest : (decompose g).forest ≠ []) :
    ∃ u < g.size, u ∉ (decompose g).core := by
  obtain ⟨entry, he⟩ := List.exists_mem_of_ne_nil _ hforest
  cases eq_or_ne g.size (g.edgeCount + 1) with
  | inl htree =>
    rw [decompose, if_pos htree] at he
    cases he
  | inr hcyclic =>
    obtain ⟨⟨c, hc, rfl⟩, hlength⟩ := (mem_forest_iff hcyclic).mp he
    -- The entry holds more than the core vertex at which it hangs.
    obtain ⟨u, hu, hne⟩ : ∃ u ∈ treesAt (peeling g) c, u ≠ c := by
      by_contra hall
      push Not at hall
      have hnodup : (treesAt (peeling g) c).Nodup :=
        g.nodup_ids.sublist (treesAt_sublist (peeling g) (mem_cyclicCore_lt hc))
      have honly : treesAt (peeling g) c ⊆ [c] := fun u hu => by simp [hall u hu]
      exact absurd (hnodup.subperm honly).length_le (Nat.not_le_of_lt hlength)
    obtain ⟨-, n, hn⟩ := (mem_treesAt_peeling_iff hc).mp hu
    obtain ⟨hlt, hout⟩ := mem_peeledOff_iff.mp (hn.inside_of_ne hne)
    exact ⟨u, hlt, by rwa [decompose_of_cyclic hcyclic]⟩

theorem mem_forest_lt {entry : List Nat} (he : entry ∈ (decompose g).forest) (hu : u ∈ entry) :
    u < g.size := by
  unfold decompose at he
  split at he
  · simp at he
  · obtain ⟨c, hc, rfl⟩ := List.mem_map.mp (List.mem_of_mem_filter he)
    exact (mem_ids g).mp ((treesAt_sublist (peeling g) (mem_cyclicCore_lt hc)).mem hu)

end GraphDependency.Pattern
