import GraphDependency.Matching.Plan
import GraphDependency.Proofs.Graph.Walk
import GraphDependency.Proofs.Selection
import Mathlib.Data.List.Perm.Basic

set_option autoImplicit false

/-!
# What a plan lists

A plan lists every vertex of the pattern once, the root first, and each one with
exactly its neighbors before it.  In a connected pattern every vertex but the root has
one: some vertex still to be placed does, and the next one has the most.

Main statements: `perm_plan`, `follows_plan`, `back_of_plan` and `back_ne_nil_of_plan`.
-/

namespace GraphDependency.Matching

/-- The vertices of the steps are new, and each step knows the neighbors placed
before it: those placed already and those of the steps in front. -/
def Follows (pattern : Graph) : List Step → List Nat → Prop
  | [], _ => True
  | s :: rest, placed =>
    s.vertex < pattern.size ∧ s.vertex ∉ placed
      ∧ (∀ w label, (w, label) ∈ s.back
          ↔ w ∈ placed ∧ pattern.edgeLabel? s.vertex w = some label)
      ∧ Follows pattern rest (s.vertex :: placed)

variable {pattern : Graph} {placed unplaced : List Nat} {root : Nat}

theorem mem_placedIncident_iff {u w : Nat} {label : String} :
    (w, label) ∈ placedIncident pattern placed u
      ↔ w ∈ placed ∧ pattern.edgeLabel? u w = some label := by
  rw [placedIncident, List.mem_filter, Graph.mem_incident_iff_edgeLabel?, List.contains_iff_mem,
    and_comm]

theorem next?_eq_none_iff : next? pattern placed unplaced = none ↔ unplaced = [] :=
  firstBest?_eq_none_iff

/-- The remaining steps list the vertices still to be placed. -/
theorem perm_continuePlan (pattern : Graph) (placed unplaced : List Nat) :
    ((continuePlan pattern placed unplaced).map Step.vertex).Perm unplaced := by
  fun_induction continuePlan pattern placed unplaced with
  | case1 placed unplaced h =>
    rw [next?_eq_none_iff.mp h]
    exact List.Perm.refl []
  | case2 placed unplaced u h _ ih =>
    exact (ih.cons u).trans (List.perm_cons_erase (mem_of_next? h)).symm

theorem follows_continuePlan (hnodup : unplaced.Nodup) (hlt : ∀ u ∈ unplaced, u < pattern.size)
    (hnew : ∀ u ∈ unplaced, u ∉ placed) :
    Follows pattern (continuePlan pattern placed unplaced) placed := by
  fun_induction continuePlan pattern placed unplaced with
  | case1 => trivial
  | case2 placed unplaced u h _ ih =>
    have hu := mem_of_next? h
    refine ⟨hlt u hu, hnew u hu, fun w label => mem_placedIncident_iff, ?_⟩
    refine ih (hnodup.erase u) (fun w hw => hlt w (List.mem_of_mem_erase hw)) ?_
    intro w hw
    rw [hnodup.mem_erase_iff] at hw
    exact List.not_mem_cons_of_ne_of_not_mem hw.1 (hnew w hw.2)

/-- A plan lists every pattern vertex once. -/
theorem perm_plan (hroot : root < pattern.size) :
    ((plan pattern root).map Step.vertex).Perm pattern.ids :=
  ((perm_continuePlan pattern [root] (pattern.ids.erase root)).cons root).trans
    (List.perm_cons_erase ((Graph.mem_ids _).mpr hroot)).symm

/-- Every step of a plan knows the neighbors before it. -/
theorem follows_plan (hroot : root < pattern.size) : Follows pattern (plan pattern root) [] := by
  refine ⟨hroot, List.not_mem_nil, by simp, ?_⟩
  refine follows_continuePlan (pattern.nodup_ids.erase root)
    (fun u hu => (Graph.mem_ids _).mp (List.mem_of_mem_erase hu)) fun u hu => ?_
  rw [pattern.nodup_ids.mem_erase_iff] at hu
  simpa using hu.1

/-! ## The neighbors before a step -/

variable {front rest : List Step} {s : Step} {u w : Nat}

theorem continuePlan_of_next? (h : next? pattern placed unplaced = some u) :
    continuePlan pattern placed unplaced
      = ⟨u, placedIncident pattern placed u⟩
        :: continuePlan pattern (u :: placed) (unplaced.erase u) := by
  rw [continuePlan]
  split
  · rename_i hnone
    rw [h] at hnone
    cases hnone
  · rename_i w hw
    rw [h] at hw
    cases hw
    rfl

theorem continuePlan_nil : continuePlan pattern placed [] = [] := by
  have hnone : next? pattern placed [] = none := rfl
  rw [continuePlan]
  split
  · rfl
  · rename_i hw
    rw [hnone] at hw
    cases hw

/-- A step knows the edges to the vertices of the steps in front and to those placed before. -/
theorem back_of_continuePlan (h : continuePlan pattern placed unplaced = front ++ s :: rest) :
    s.back = placedIncident pattern ((front.map Step.vertex).reverse ++ placed) s.vertex := by
  fun_induction continuePlan pattern placed unplaced generalizing front with
  | case1 => simp at h
  | case2 placed unplaced u hnext _ ih =>
    -- Either this is the step, or it is the first one in front of it.
    cases front with
    | nil =>
      obtain ⟨rfl, -⟩ := List.cons.inj h
      rfl
    | cons f front =>
      obtain ⟨rfl, htail⟩ := List.cons.inj h
      simpa using ih htail

theorem back_of_plan (h : plan pattern root = front ++ s :: rest) :
    s.back = placedIncident pattern (front.map Step.vertex).reverse s.vertex := by
  cases front with
  | nil =>
    obtain ⟨rfl, -⟩ := List.cons.inj h
    simp [placedIncident]
  | cons f front =>
    obtain ⟨rfl, htail⟩ := List.cons.inj h
    simpa using back_of_continuePlan htail

theorem nodup_placedIncident : ((placedIncident pattern placed u).map Prod.fst).Nodup :=
  (pattern.nodup_neighbors u).sublist (List.filter_sublist.map Prod.fst)

theorem placedIncident_ne_nil (hu : u ∈ placed) (h : w ∈ pattern.neighbors u) :
    placedIncident pattern placed w ≠ [] := by
  obtain ⟨label, hlabel⟩ := pattern.exists_edgeLabel? (pattern.mem_neighbors_comm.mp h)
  exact List.ne_nil_of_mem (mem_placedIncident_iff.mpr ⟨hu, hlabel⟩)

/-! ## Connected patterns -/

/-- No vertex to be placed has more placed neighbors than the next one. -/
theorem length_placedIncident_le_of_next? (h : next? pattern placed unplaced = some u)
    (hw : w ∈ unplaced) :
    (placedIncident pattern placed w).length ≤ (placedIncident pattern placed u).length := by
  refine le_of_firstBest? (fun v => (placedIncident pattern placed v).length)
    (fun a b hab => ?_) (fun a b hab => ?_) h w hw
  · simp only [preferred, Bool.or_eq_true, Bool.and_eq_true, decide_eq_true_eq, beq_iff_eq] at hab
    omega
  · simp only [preferred, Bool.or_eq_false_iff, decide_eq_false_iff_not] at hab
    omega

/-- The pattern vertices are parted into placed ones, of which there are some, and those to be
placed. -/
structure Parted (pattern : Graph) (placed unplaced : List Nat) : Prop where
  nonempty : placed ≠ []
  lt_size : ∀ u ∈ placed, u < pattern.size
  nodup : unplaced.Nodup
  mem_unplaced_iff : ∀ u, u ∈ unplaced ↔ u < pattern.size ∧ u ∉ placed

/-- Placing a vertex takes it from one part to the other. -/
theorem Parted.place (h : Parted pattern placed unplaced) (hu : u ∈ unplaced) :
    Parted pattern (u :: placed) (unplaced.erase u) where
  nonempty := List.cons_ne_nil u placed
  lt_size := List.forall_mem_cons.mpr ⟨((h.mem_unplaced_iff u).mp hu).1, h.lt_size⟩
  nodup := h.nodup.erase u
  mem_unplaced_iff w := by
    rw [h.nodup.mem_erase_iff, h.mem_unplaced_iff, List.mem_cons, not_or]
    exact and_left_comm

/-- Behind the first step of a plan the root alone is placed. -/
theorem parted_root (hroot : root < pattern.size) :
    Parted pattern [root] (pattern.ids.erase root) where
  nonempty := List.cons_ne_nil root []
  lt_size := List.forall_mem_singleton.mpr hroot
  nodup := pattern.nodup_ids.erase root
  mem_unplaced_iff u := by
    rw [pattern.nodup_ids.mem_erase_iff, Graph.mem_ids, List.mem_singleton]
    exact and_comm

/-- In a connected pattern the next vertex has a placed neighbor: an edge leads from the placed
vertices to some vertex to be placed, and the next one has no fewer of them. -/
theorem Parted.placedIncident_ne_nil_of_next? (h : Parted pattern placed unplaced)
    (hconn : pattern.isConnected = true) (hnext : next? pattern placed unplaced = some u) :
    placedIncident pattern placed u ≠ [] := by
  obtain ⟨a, ha⟩ := List.exists_mem_of_ne_nil placed h.nonempty
  obtain ⟨hu, hnew⟩ := (h.mem_unplaced_iff u).mp (mem_of_next? hnext)
  obtain ⟨n, hn⟩ := Graph.isConnected_iff.mp hconn a (h.lt_size a ha) u hu
  obtain ⟨c, d, hc, hd, hcd⟩ := Graph.Hops.exists_leaving (· ∈ placed) hn ha hnew
  have hunplaced : d ∈ unplaced :=
    (h.mem_unplaced_iff d).mpr ⟨pattern.lt_size_of_mem_neighbors hcd, hd⟩
  have hpos : 0 < (placedIncident pattern placed d).length :=
    List.length_pos_iff.mpr (placedIncident_ne_nil hc hcd)
  exact List.length_pos_iff.mp
    (Nat.lt_of_lt_of_le hpos (length_placedIncident_le_of_next? hnext hunplaced))

theorem Parted.back_ne_nil_of_continuePlan (h : Parted pattern placed unplaced)
    (hconn : pattern.isConnected = true) (hs : s ∈ continuePlan pattern placed unplaced) :
    s.back ≠ [] := by
  fun_induction continuePlan pattern placed unplaced with
  | case1 => cases hs
  | case2 placed unplaced u hnext _ ih =>
    rcases List.mem_cons.mp hs with rfl | hs
    · exact h.placedIncident_ne_nil_of_next? hconn hnext
    · exact ih (h.place (mem_of_next? hnext)) hs

/-- In a connected pattern every step but the first has a placed neighbor. -/
theorem back_ne_nil_of_plan (hroot : root < pattern.size) (hconn : pattern.isConnected = true)
    (h : plan pattern root = front ++ s :: rest) (hfront : front ≠ []) : s.back ≠ [] := by
  obtain ⟨f, front, rfl⟩ := List.exists_cons_of_ne_nil hfront
  obtain ⟨rfl, htail⟩ := List.cons.inj h
  refine (parted_root hroot).back_ne_nil_of_continuePlan hconn ?_
  rw [htail]
  exact List.mem_append_right front List.mem_cons_self

end GraphDependency.Matching
