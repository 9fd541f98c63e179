import GraphDependency.Pattern.Core
import GraphDependency.Proofs.Graph.Adjacency

set_option autoImplicit false

/-!
# Peeling without a table

What is left at any time can be kept as a list, from which the number of neighbors left is
counted when it is asked for.  The table of degrees agrees with these counts for every vertex
that is left: each time a vertex is peeled off, one is taken from the degree of each neighbor
that is left, and that neighbor has lost this vertex and no other one.  So the table leads to
the same stacks, and peeling with it leaves the same vertices.

Main statements: `Records.strip` and `cyclicCore_eq_peel`.
-/

namespace GraphDependency.Pattern

open GraphDependency.Graph

/-- The number of remaining neighbors. -/
def remainingDegree (g : Graph) (remaining : List Nat) (u : Nat) : Nat :=
  (g.neighbors u).countP remaining.contains

theorem length_erase_lt {remaining : List Nat} {u : Nat} (h : u ∈ remaining) :
    (remaining.erase u).length < remaining.length := by
  have hpos := List.length_pos_of_mem h
  rw [List.length_erase_of_mem h]
  omega

/-- Peels vertices off, beginning with the top of the stack.  A vertex goes if it
remains and has one remaining neighbor; then each neighbor that is left with one
neighbor goes onto the stack. -/
def peel (g : Graph) (stack remaining : List Nat) : List Nat :=
  match stack with
  | [] => remaining
  | u :: stack =>
    if h : u ∈ remaining ∧ remainingDegree g remaining u = 1 then
      have := length_erase_lt h.1
      let remaining := remaining.erase u
      let exposed := (g.neighbors u).filter fun w =>
        remaining.contains w && remainingDegree g remaining w == 1
      peel g (exposed.reverse ++ stack) remaining
    else peel g stack remaining
termination_by (remaining.length, stack.length)

variable {g : Graph} {stack remaining rest : List Nat} {u w x : Nat}

/-- Peeling only removes vertices. -/
theorem peel_sublist (g : Graph) (stack remaining : List Nat) :
    (peel g stack remaining).Sublist remaining := by
  fun_induction peel g stack remaining with
  | case1 => exact List.Sublist.refl _
  | case2 _ _ _ _ _ _ _ ih => exact ih.trans List.erase_sublist
  | case3 _ _ _ _ ih => exact ih

/-- Peeling leaves at least one vertex: one that goes has a neighbor that stays. -/
theorem peel_ne_nil (h : remaining ≠ []) : peel g stack remaining ≠ [] := by
  fun_induction peel g stack remaining with
  | case1 => exact h
  | case2 remaining u stack hu _ _ _ ih =>
    apply ih
    have hpos : 0 < (g.neighbors u).countP remaining.contains := by
      rw [← remainingDegree, hu.2]
      exact Nat.one_pos
    obtain ⟨w, hw, hr⟩ := List.countP_pos_iff.mp hpos
    exact List.ne_nil_of_mem
      ((List.mem_erase_of_ne (ne_of_mem_neighbors g hw)).mpr (List.contains_iff_mem.mp hr))
  | case3 _ _ _ _ ih => exact ih h

/-! ## Counting what is left -/

theorem remainingDegree_ids (g : Graph) (u : Nat) : remainingDegree g g.ids u = g.degree u := by
  rw [remainingDegree, degree_eq_length_neighbors, List.countP_eq_length]
  exact fun v hv => List.contains_iff_mem.mpr ((mem_ids g).mpr (lt_size_of_mem_neighbors g hv))

theorem remainingDegree_erase (hnodup : rest.Nodup) (h : x ∉ g.neighbors u) :
    remainingDegree g (rest.erase x) u = remainingDegree g rest u := by
  refine List.countP_congr fun v hv => ?_
  have hne : v ≠ x := fun heq => h (heq ▸ hv)
  rw [List.contains_iff_mem, List.contains_iff_mem, hnodup.mem_erase_iff]
  exact and_iff_right hne

/-- A vertex next to one that is taken away has one neighbor less. -/
theorem remainingDegree_erase_of_mem (hnodup : rest.Nodup) (hx : x ∈ rest)
    (h : x ∈ g.neighbors u) :
    remainingDegree g rest u = remainingDegree g (rest.erase x) u + 1 := by
  have hfilter : (g.neighbors u).filter (rest.erase x).contains
      = ((g.neighbors u).filter rest.contains).erase x := by
    rw [((nodup_neighbors g u).filter _).erase_eq_filter, List.filter_filter]
    refine List.filter_congr fun v _ => ?_
    rw [Bool.eq_iff_iff, Bool.and_eq_true, List.contains_iff_mem, List.contains_iff_mem,
      hnodup.mem_erase_iff, bne_iff_ne]
  have hmem : x ∈ (g.neighbors u).filter rest.contains :=
    List.mem_filter.mpr ⟨h, List.contains_iff_mem.mpr hx⟩
  rw [remainingDegree, remainingDegree, List.countP_eq_length_filter,
    List.countP_eq_length_filter, hfilter, List.length_erase_add_one hmem]

/-! ## What the table records -/

/-- The table marks the vertices that are not left, and has the number of neighbors left of
those that are. -/
structure Peeling.Records (s : Peeling g) (remaining : List Nat) : Prop where
  left_eq : s.left = remaining
  degree_eq : ∀ u ∈ remaining, s.degree u = remainingDegree g remaining u

namespace Peeling

variable {s : Peeling g}

/-- In the beginning all vertices are left. -/
theorem records_start (g : Graph) : (Peeling.start g).Records g.ids where
  left_eq := by
    refine List.filter_eq_self.mpr fun u hu => ?_
    simp [isPeeled, Peeling.start, (mem_ids g).mp hu]
  degree_eq u hu := by
    rw [remainingDegree_ids]
    simp [degree, Peeling.start, (mem_ids g).mp hu]

/-- Going through different vertices lowers each of those that are left once, and puts those
that have one neighbor then onto the stack. -/
theorem foldl_expose {ws : List Nat} (hnodup : ws.Nodup) (hlt : ∀ w ∈ ws, w < g.size)
    (s : Peeling g) (stack : List Nat) :
    (∀ u, (ws.foldl expose (s, stack)).1.degree u
        = if u ∈ ws ∧ s.isPeeled u = false then s.degree u - 1 else s.degree u)
      ∧ (ws.foldl expose (s, stack)).2
        = (ws.filter fun w => !s.isPeeled w && s.degree w - 1 == 1).reverse ++ stack := by
  induction ws generalizing s stack with
  | nil => simp
  | cons w ws ih =>
    obtain ⟨hnew, hnodup⟩ := List.nodup_cons.mp hnodup
    obtain ⟨hw, hlt⟩ := List.forall_mem_cons.mp hlt
    rw [List.foldl_cons]
    cases hpeeled : s.isPeeled w with
    | true =>
      have hskip : expose (s, stack) w = (s, stack) := by rw [expose, if_pos hpeeled]
      obtain ⟨hdegree, hstack⟩ := ih hnodup hlt s stack
      rw [hskip]
      refine ⟨fun u => ?_, ?_⟩
      · rw [hdegree u]
        by_cases hu : u = w <;> simp [hu, hpeeled, hnew]
      · rw [hstack, List.filter_cons, hpeeled]
        rfl
    | false =>
      have hself : (s.lower w).degree w = s.degree w - 1 := by rw [s.degree_lower hw, if_pos rfl]
      have htake : expose (s, stack) w
          = (s.lower w, if s.degree w - 1 = 1 then w :: stack else stack) := by
        rw [expose, hpeeled, if_neg Bool.false_ne_true, hself]
      have hother : ∀ u ∈ ws, (s.lower w).degree u = s.degree u := fun u hu => by
        have hne : u ≠ w := fun heq => hnew (heq ▸ hu)
        rw [s.degree_lower hw, if_neg hne]
      obtain ⟨hdegree, hstack⟩ :=
        ih hnodup hlt (s.lower w) (if s.degree w - 1 = 1 then w :: stack else stack)
      rw [htake]
      refine ⟨fun u => ?_, ?_⟩
      · rw [hdegree u, s.degree_lower hw, isPeeled_lower]
        by_cases hu : u = w
        · simp [hu, hpeeled, hnew]
        · simp [hu]
      · rw [hstack, List.filter_congr fun u hu => by rw [isPeeled_lower, hother u hu],
          List.filter_cons, hpeeled]
        by_cases hone : s.degree w - 1 = 1 <;> simp [hone]

/-- What was recorded is recorded when a vertex is peeled off, and the stack grows by the
neighbors that have one neighbor left. -/
theorem Records.strip (h : s.Records rest) (hnodup : rest.Nodup) (hx : x ∈ rest)
    (stack : List Nat) :
    (s.strip x stack).1.Records (rest.erase x)
      ∧ (s.strip x stack).2
        = ((g.neighbors x).filter fun w =>
            (rest.erase x).contains w && remainingDegree g (rest.erase x) w == 1).reverse
          ++ stack := by
  have hxlt : x < g.size := (mem_left_iff.mp (h.left_eq ▸ hx)).1
  have hpeeled : ∀ w < g.size, (s.mark x).isPeeled w = false ↔ w ∈ rest.erase x := by
    intro w hw
    rw [s.isPeeled_mark hxlt, Bool.or_eq_false_iff, beq_eq_false_iff_ne, hnodup.mem_erase_iff,
      ← h.left_eq, mem_left_iff]
    simp [hw]
  obtain ⟨hdegree, hstack⟩ := foldl_expose (nodup_neighbors g x)
    (fun w hw => lt_size_of_mem_neighbors g hw) (s.mark x) stack
  -- A neighbor that is left has lost the vertex, so its degree was not zero.
  have hlowered : ∀ w ∈ g.neighbors x, w ∈ rest.erase x →
      s.degree w - 1 = remainingDegree g (rest.erase x) w := by
    intro w hw hwr
    rw [h.degree_eq w (List.mem_of_mem_erase hwr),
      remainingDegree_erase_of_mem hnodup hx ((mem_neighbors_comm g).mp hw), Nat.add_sub_cancel]
  refine ⟨⟨?_, fun w hw => ?_⟩, ?_⟩
  · rw [s.left_strip hxlt, h.left_eq, hnodup.erase_eq_filter]
  · have hwlt : w < g.size := (mem_left_iff.mp (h.left_eq ▸ List.mem_of_mem_erase hw)).1
    rw [Peeling.strip, hdegree w, degree_mark]
    by_cases hadj : w ∈ g.neighbors x
    · rw [if_pos ⟨hadj, (hpeeled w hwlt).mpr hw⟩, hlowered w hadj hw]
    · rw [if_neg fun hand => hadj hand.1, h.degree_eq w (List.mem_of_mem_erase hw),
        remainingDegree_erase hnodup fun hxw => hadj ((mem_neighbors_comm g).mp hxw)]
  · rw [Peeling.strip, hstack]
    refine congrArg (fun l => List.reverse l ++ stack) (List.filter_congr fun w hw => ?_)
    have hwlt := lt_size_of_mem_neighbors g hw
    by_cases hwr : w ∈ rest.erase x
    · rw [(hpeeled w hwlt).mpr hwr, degree_mark, hlowered w hw hwr, List.contains_iff_mem.mpr hwr]
      rfl
    · have hmark : (s.mark x).isPeeled w = true := by
        rw [← Bool.not_eq_false]
        exact fun hf => hwr ((hpeeled w hwlt).mp hf)
      have hnot : (rest.erase x).contains w = false := by simpa using hwr
      rw [hmark, hnot]
      rfl

/-- With the table the same vertices are left as without. -/
theorem left_run (h : s.Records remaining) (hnodup : remaining.Nodup) :
    (s.run stack).left = peel g stack remaining := by
  fun_induction run s stack generalizing remaining with
  | case1 s => rw [peel, h.left_eq]
  | case2 s u stack hu hmem _ ih =>
    have hrem : u ∈ remaining := h.left_eq ▸ hmem
    obtain ⟨hrecords, hstack⟩ := h.strip hnodup hrem stack
    rw [ih hrecords (hnodup.erase u), hstack, peel,
      dif_pos ⟨hrem, (h.degree_eq u hrem).symm.trans hu.2⟩]
  | case3 s u stack hu ih =>
    rw [ih h hnodup]
    conv_rhs => rw [peel]
    rw [dif_neg]
    rintro ⟨hrem, hdegree⟩
    exact hu ⟨(mem_left_iff.mp (h.left_eq ▸ hrem)).2, (h.degree_eq u hrem).trans hdegree⟩

end Peeling

/-- The core is what peeling without a table leaves. -/
theorem cyclicCore_eq_peel (g : Graph) :
    cyclicCore g = peel g (g.ids.filter fun u => g.degree u == 1).reverse g.ids := by
  have hstart := Peeling.records_start g
  rw [cyclicCore, peeling, Peeling.left_run hstart (nodup_ids g),
    List.filter_congr fun u hu => by rw [hstart.degree_eq u hu, remainingDegree_ids]]

end GraphDependency.Pattern
