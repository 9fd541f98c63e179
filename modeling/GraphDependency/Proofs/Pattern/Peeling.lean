import GraphDependency.Proofs.Pattern.Core
import Mathlib.Order.Bounds.Basic

set_option autoImplicit false

/-!
# What peeling leaves

A vertex is peeled off when it has one neighbor left.  So a set in which every vertex has
two neighbors is never touched, what is left stays connected, and a vertex that goes hangs
at the one neighbor that stays.  Every vertex with one neighbor left is on the stack; when
the stack is empty, there is none.  Whatever the order is, what is left is therefore the
largest set of that kind, if there is one.

Main statements: `peel_induction` (what one step keeps, peeling keeps),
`isGreatest_cyclicCore` and `exists_top`.
-/

namespace GraphDependency.Pattern

open GraphDependency.Graph

/-- Every vertex of a set has at least two neighbors in the set. -/
def Braced (g : Graph) (s : Set Nat) : Prop :=
  ∀ u ∈ s, ∃ v ∈ s, ∃ w ∈ s, v ≠ w ∧ v ∈ g.neighbors u ∧ w ∈ g.neighbors u

variable {g : Graph} {s : Set Nat} {stack remaining rest : List Nat} {a b n u v w x : Nat}

/-! ## Neighbors left -/

theorem exists_only_neighbor (h : remainingDegree g rest x = 1) :
    ∃ y ∈ g.neighbors x, y ∈ rest ∧ ∀ v ∈ g.neighbors x, v ∈ rest → v = y := by
  rw [remainingDegree, List.countP_eq_length_filter, List.length_eq_one_iff] at h
  obtain ⟨y, hy⟩ := h
  have hmem : ∀ v, v ∈ g.neighbors x ∧ v ∈ rest ↔ v = y := fun v => by
    rw [← List.mem_singleton, ← hy, List.mem_filter, List.contains_iff_mem]
  obtain ⟨hadj, hin⟩ := (hmem y).mpr rfl
  exact ⟨y, hadj, hin, fun v hv hvr => (hmem v).mp ⟨hv, hvr⟩⟩

theorem exists_two_neighbors (h : 2 ≤ remainingDegree g rest x) :
    ∃ v ∈ rest, ∃ w ∈ rest, v ≠ w ∧ v ∈ g.neighbors x ∧ w ∈ g.neighbors x := by
  rw [remainingDegree, List.countP_eq_length_filter] at h
  have hnodup : ((g.neighbors x).filter rest.contains).Nodup := (nodup_neighbors g x).filter _
  have hmem : ∀ v ∈ (g.neighbors x).filter rest.contains, v ∈ g.neighbors x ∧ v ∈ rest := by
    intro v hv
    rwa [List.mem_filter, List.contains_iff_mem] at hv
  obtain ⟨v, w, others, hlist⟩ : ∃ v w others,
      (g.neighbors x).filter rest.contains = v :: w :: others := by
    cases hlist : (g.neighbors x).filter rest.contains with
    | nil => simp [hlist] at h
    | cons v vs =>
      cases vs with
      | nil => simp [hlist] at h
      | cons w others => exact ⟨v, w, others, rfl⟩
  rw [hlist] at hnodup hmem
  obtain ⟨hv, hw⟩ := List.forall_mem_cons.mp hmem
  obtain ⟨hw, -⟩ := List.forall_mem_cons.mp hw
  have hne : v ≠ w := fun heq => (List.nodup_cons.mp hnodup).1 (heq ▸ List.mem_cons_self)
  exact ⟨v, hv.2, w, hw.2, hne, hv.1, hw.1⟩

/-! ## What one step keeps -/

theorem mem_ids_of_mem_neighbors (h : w ∈ g.neighbors u) : u ∈ g.ids ∧ w ∈ g.ids := by
  rw [mem_ids, mem_ids]
  exact ⟨lt_size_of_mem_neighbors g ((mem_neighbors_comm g).mp h), lt_size_of_mem_neighbors g h⟩

/-- An edge that is not among what is left was not before, or it is one of the vertex that
is taken away. -/
theorem of_not_mem_erase (hnodup : rest.Nodup) (h : ¬ (u ∈ rest.erase x ∧ w ∈ rest.erase x)) :
    ¬ (u ∈ rest ∧ w ∈ rest) ∨ u = x ∧ w ∈ rest ∨ w = x ∧ u ∈ rest := by
  rw [hnodup.mem_erase_iff, hnodup.mem_erase_iff] at h
  grind

/-- What holds of all vertices, and keeps holding when a vertex with one neighbor left is
taken away, holds of what is left. -/
theorem peel_induction {P : List Nat → Prop} (hnodup : remaining.Nodup) (hstart : P remaining)
    (hstep : ∀ rest x, rest.Nodup → x ∈ rest → remainingDegree g rest x = 1 →
      x ∉ peel g stack remaining → P rest → P (rest.erase x)) :
    P (peel g stack remaining) := by
  fun_induction peel g stack remaining with
  | case1 => exact hstart
  | case2 remaining x stack hx _ _ _ ih =>
    have hgone : ∀ stack, x ∉ peel g stack (remaining.erase x) := fun stack hin =>
      (hnodup.mem_erase_iff.mp ((peel_sublist g stack _).mem hin)).1 rfl
    exact ih (hnodup.erase x) (hstep remaining x hnodup hx.1 hx.2 (hgone _) hstart) hstep
  | case3 _ _ _ _ ih => exact ih hnodup hstart hstep

/-- Peeling does not touch a set in which every vertex has two neighbors. -/
theorem mem_peel_of_braced (hs : Braced g s) (hnodup : remaining.Nodup)
    (hsub : ∀ u ∈ s, u ∈ remaining) : ∀ u ∈ s, u ∈ peel g stack remaining := by
  apply peel_induction (P := fun rest => ∀ u ∈ s, u ∈ rest) hnodup hsub
  intro rest x hrest _ hdegree _ hkept u hu
  refine hrest.mem_erase_iff.mpr ⟨fun heq => ?_, hkept u hu⟩
  obtain ⟨v, hv, w, hw, hne, hvu, hwu⟩ := hs u hu
  obtain ⟨y, -, -, honly⟩ := exists_only_neighbor hdegree
  rw [heq] at hvu hwu
  exact hne ((honly v hvu (hkept v hv)).trans (honly w hwu (hkept w hw)).symm)

/-- Any two vertices are joined by a walk among them. -/
def Linked (g : Graph) (rest : List Nat) : Prop :=
  ∀ a ∈ rest, ∀ b ∈ rest, ∃ n, g.Walk (· ∈ rest) a n b

/-- A walk needs no vertex with one neighbor: it comes back to that neighbor. -/
theorem exists_walk_erase (hnodup : rest.Nodup) (hdegree : remainingDegree g rest x = 1)
    (ha : a ∈ rest) (hne : a ≠ x) (h : g.Walk (· ∈ rest) a n b) :
    (b ≠ x → ∃ m, g.Walk (· ∈ rest.erase x) a m b)
      ∧ (b = x → ∀ y ∈ g.neighbors x, y ∈ rest → ∃ m, g.Walk (· ∈ rest.erase x) a m y) := by
  induction n generalizing b with
  | zero =>
    cases h
    exact ⟨fun _ => ⟨0, rfl⟩, fun heq => absurd heq hne⟩
  | succ n ih =>
    obtain ⟨hb, c, hc, hcb⟩ := h
    obtain ⟨hother, hsame⟩ := ih hc
    have hcr : c ∈ rest := by
      cases eq_or_ne c a with
      | inl heq => exact heq ▸ ha
      | inr hca => exact hc.inside_of_ne hca
    refine ⟨fun hbx => ?_, fun hbx y hy hyr => ?_⟩
    · cases eq_or_ne c x with
      | inl hcx => exact hsame hcx b (hcx ▸ hcb) hb
      | inr hcx =>
        obtain ⟨m, hm⟩ := hother hcx
        exact ⟨m + 1, hnodup.mem_erase_iff.mpr ⟨hbx, hb⟩, c, hm, hcb⟩
    · have hadj : c ∈ g.neighbors x := hbx ▸ (mem_neighbors_comm g).mp hcb
      obtain ⟨z, -, -, honly⟩ := exists_only_neighbor hdegree
      have hcy : c = y := (honly c hadj hcr).trans (honly y hy hyr).symm
      exact hcy ▸ hother (ne_of_mem_neighbors g hadj)

/-- What is left stays connected. -/
theorem linked_peel (hnodup : remaining.Nodup) (hlinked : Linked g remaining) :
    Linked g (peel g stack remaining) := by
  apply peel_induction hnodup hlinked
  intro rest x hrest _ hdegree _ hkept a ha b hb
  obtain ⟨hax, har⟩ := hrest.mem_erase_iff.mp ha
  obtain ⟨hbx, hbr⟩ := hrest.mem_erase_iff.mp hb
  obtain ⟨n, hn⟩ := hkept a har b hbr
  exact (exists_walk_erase hrest hdegree har hax hn).1 hbx

/-- The vertex at which each vertex hangs: those that are left hang at themselves, and an
edge with an end that is not left joins vertices that hang at the same one. -/
structure Hangs (g : Graph) (top : Nat → Nat) (rest : List Nat) : Prop where
  self : ∀ u ∈ rest, top u = u
  same : ∀ u w, w ∈ g.neighbors u → ¬ (u ∈ rest ∧ w ∈ rest) → top u = top w

/-- With a vertex goes all that hangs at it, over to the neighbor that stays. -/
theorem Hangs.erase {top : Nat → Nat} (h : Hangs g top rest) (hnodup : rest.Nodup) (hx : x ∈ rest)
    (hdegree : remainingDegree g rest x = 1) : ∃ top, Hangs g top (rest.erase x) := by
  obtain ⟨y, hy, hyr, honly⟩ := exists_only_neighbor hdegree
  have hyx : y ≠ x := ne_of_mem_neighbors g hy
  have hmoved : ∀ w ∈ g.neighbors x, w ∈ rest → y = if top w = x then y else top w := by
    intro w hw hwr
    rw [honly w hw hwr, h.self y hyr, if_neg hyx]
  refine ⟨fun u => if top u = x then y else top u, fun u hu => ?_, fun u w hw hout => ?_⟩
  · obtain ⟨hux, hur⟩ := hnodup.mem_erase_iff.mp hu
    rw [h.self u hur, if_neg hux]
  · obtain hout | ⟨rfl, hwr⟩ | ⟨rfl, hur⟩ := of_not_mem_erase hnodup hout
    · rw [h.same u w hw hout]
    · rw [h.self u hx, if_pos rfl]
      exact hmoved w hw hwr
    · rw [h.self w hx, if_pos rfl]
      exact (hmoved u ((mem_neighbors_comm g).mp hw) hur).symm

theorem exists_hangs_peel (hnodup : remaining.Nodup) (h : ∃ top, Hangs g top remaining) :
    ∃ top, Hangs g top (peel g stack remaining) := by
  apply peel_induction (P := fun rest => ∃ top, Hangs g top rest) hnodup h
  intro rest x hrest hx hdegree _ hkept
  obtain ⟨top, htop⟩ := hkept
  exact htop.erase hrest hx hdegree

/-! ## When peeling ends -/

/-- If every vertex with one neighbor left is on the stack, none is left in the end. -/
theorem remainingDegree_peel_ne_one (hnodup : remaining.Nodup)
    (hstack : ∀ u ∈ remaining, remainingDegree g remaining u = 1 → u ∈ stack) :
    ∀ u ∈ peel g stack remaining, remainingDegree g (peel g stack remaining) u ≠ 1 := by
  fun_induction peel g stack remaining with
  | case1 remaining => exact fun u hu hdegree => List.not_mem_nil (hstack u hu hdegree)
  | case2 remaining x stack hx _ rest exposed ih =>
    refine ih (hnodup.erase x) fun u hu hdegree => List.mem_append.mpr ?_
    obtain ⟨hux, hur⟩ := hnodup.mem_erase_iff.mp hu
    by_cases hadj : u ∈ g.neighbors x
    · refine Or.inl (List.mem_reverse.mpr (List.mem_filter.mpr ⟨hadj, ?_⟩))
      rw [Bool.and_eq_true, List.contains_iff_mem, beq_iff_eq]
      exact ⟨hu, hdegree⟩
    · rw [remainingDegree_erase hnodup fun h => hadj ((mem_neighbors_comm g).mp h)] at hdegree
      exact Or.inr (List.mem_of_ne_of_mem hux (hstack u hur hdegree))
  | case3 remaining x stack hx ih =>
    refine ih hnodup fun u hu hdegree => List.mem_of_ne_of_mem ?_ (hstack u hu hdegree)
    intro heq
    rw [heq] at hu hdegree
    exact hx ⟨hu, hdegree⟩

/-! ## The core -/

theorem pairwise_cyclicCore (g : Graph) : (cyclicCore g).Pairwise (· < ·) :=
  (pairwise_ids g).filter _

/-- The core is listed ascending. -/
theorem pairwise_core (g : Graph) : (decompose g).core.Pairwise (· < ·) := by
  unfold decompose
  split
  · exact pairwise_ids g
  · exact pairwise_cyclicCore g

theorem remainingDegree_cyclicCore_ne_one (hu : u ∈ cyclicCore g) :
    remainingDegree g (cyclicCore g) u ≠ 1 := by
  rw [cyclicCore_eq_peel] at hu ⊢
  refine remainingDegree_peel_ne_one (nodup_ids g) (fun u hu hdegree => ?_) u hu
  rw [remainingDegree_ids] at hdegree
  exact List.mem_reverse.mpr (List.mem_filter.mpr ⟨hu, beq_iff_eq.mpr hdegree⟩)

theorem mem_cyclicCore_of_braced (hs : Braced g s) : ∀ u ∈ s, u ∈ cyclicCore g := by
  rw [cyclicCore_eq_peel]
  refine mem_peel_of_braced hs (nodup_ids g) fun u hu => (mem_ids g).mpr ?_
  obtain ⟨v, -, -, -, -, hv, -⟩ := hs u hu
  exact lt_size_of_mem_neighbors g ((mem_neighbors_comm g).mp hv)

theorem linked_cyclicCore (hconn : g.isConnected = true) : Linked g (cyclicCore g) := by
  rw [cyclicCore_eq_peel]
  refine linked_peel (nodup_ids g) fun a ha b hb => ?_
  simp only [mem_ids] at ha hb ⊢
  exact isConnected_iff.mp hconn a ha b hb

/-- In a connected graph with a set of the kind, every vertex of the core has two neighbors
in the core. -/
theorem braced_cyclicCore (hconn : g.isConnected = true) (hs : Braced g s) (hne : s.Nonempty) :
    Braced g {u | u ∈ cyclicCore g} := by
  intro u hu
  apply exists_two_neighbors
  have hpos : 0 < remainingDegree g (cyclicCore g) u := by
    obtain ⟨r, hr⟩ := hne
    -- A walk from the set ends with an edge of the core, or it has not left the set.
    obtain ⟨n, hn⟩ := linked_cyclicCore hconn r (mem_cyclicCore_of_braced hs r hr) u hu
    obtain ⟨v, hv, hvu⟩ : ∃ v ∈ cyclicCore g, v ∈ g.neighbors u := by
      cases n with
      | zero =>
        have heq : u = r := hn
        obtain ⟨v, hv, -, -, -, hvu, -⟩ := hs u (heq ▸ hr)
        exact ⟨v, mem_cyclicCore_of_braced hs v hv, hvu⟩
      | succ n =>
        obtain ⟨-, c, hc, hcu⟩ := hn
        have hcin : c ∈ cyclicCore g := by
          cases eq_or_ne c r with
          | inl heq => exact heq ▸ mem_cyclicCore_of_braced hs r hr
          | inr hcr => exact hc.inside_of_ne hcr
        exact ⟨c, hcin, (mem_neighbors_comm g).mp hcu⟩
    exact List.countP_pos_iff.mpr ⟨v, hvu, List.contains_iff_mem.mpr hv⟩
  have hone := remainingDegree_cyclicCore_ne_one hu
  omega

/-- The core is the largest set in which every vertex has two neighbors. -/
theorem isGreatest_cyclicCore (hconn : g.isConnected = true) (hs : Braced g s)
    (hne : s.Nonempty) : IsGreatest {s | Braced g s} {u | u ∈ cyclicCore g} :=
  ⟨braced_cyclicCore hconn hs hne, fun _ h u hu => mem_cyclicCore_of_braced h u hu⟩

/-- Outside the core every vertex hangs at one vertex. -/
theorem exists_top (g : Graph) : ∃ top, Hangs g top (cyclicCore g) := by
  rw [cyclicCore_eq_peel]
  refine exists_hangs_peel (nodup_ids g) ⟨id, fun _ _ => rfl, fun u w hw hout => ?_⟩
  exact absurd (mem_ids_of_mem_neighbors hw) hout

end GraphDependency.Pattern
