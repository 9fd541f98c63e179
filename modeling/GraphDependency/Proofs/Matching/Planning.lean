import GraphDependency.Matching.Planning
import GraphDependency.Matching.Search
import GraphDependency.Proofs.Matching.Plan
import GraphDependency.Proofs.Pattern.Forest

set_option autoImplicit false

/-!
# Plans with running counts

At every time the marks are the vertices placed, and the counts are the numbers of their
neighbors.  So the vertices are placed in the order of a plan, each with the same edges.

Main statements: `Records.place`, `countedPlan_eq` and `plan_exact`.
-/

namespace GraphDependency.Matching

variable {pattern : Graph} {root u w : Nat} {placed : List Nat}

/-! ## Counting placed neighbors -/

theorem length_placedIncident (placed : List Nat) (w : Nat) :
    (placedIncident pattern placed w).length
      = (pattern.neighbors w).countP placed.contains := by
  rw [placedIncident, ← List.countP_eq_length_filter, Graph.neighbors, List.countP_map]
  rfl

theorem countP_contains_cons (hnew : u ∉ placed) (ws : List Nat) :
    ws.countP (u :: placed).contains = ws.countP placed.contains + ws.count u := by
  induction ws with
  | nil => rfl
  | cons w ws ih =>
    rw [List.countP_cons, List.countP_cons, ih, List.count_cons]
    by_cases hw : w = u
    · subst hw
      simp [hnew]
      omega
    · simp [hw]
      omega

/-- A vertex is placed next to each of its neighbors. -/
theorem length_placedIncident_cons (hnew : u ∉ placed) (w : Nat) :
    (placedIncident pattern (u :: placed) w).length
      = (placedIncident pattern placed w).length + (pattern.neighbors u).count w := by
  rw [length_placedIncident, length_placedIncident, countP_contains_cons hnew,
    (pattern.nodup_neighbors w).count, (pattern.nodup_neighbors u).count]
  simp only [pattern.mem_neighbors_comm (v := w)]

namespace Planning

variable {s : Planning pattern}

theorem count_raise (s : Planning pattern) (hu : u < pattern.size) (w : Nat) :
    (s.raise w).count u = if u = w then s.count u + 1 else s.count u := by
  by_cases hw : u = w
  · subst hw
    simp [raise, count, hu]
  · simp [raise, count, hw, Ne.symm hw]

/-- However often a vertex is listed, it is counted as often. -/
theorem count_foldl_raise (ws : List Nat) (s : Planning pattern) (hu : u < pattern.size) :
    (ws.foldl raise s).count u = s.count u + ws.count u := by
  induction ws generalizing s with
  | nil => rfl
  | cons w ws ih =>
    rw [List.foldl_cons, ih, s.count_raise hu, List.count_cons]
    by_cases hw : u = w
    · simp [hw]
      omega
    · simp [hw, Ne.symm hw]

theorem count_place (s : Planning pattern) (u : Nat) (hw : w < pattern.size) :
    (s.place u).count w = s.count w + (pattern.neighbors u).count w := by
  rw [place, count_foldl_raise _ _ hw, count_mark]

/-! ## What is recorded -/

/-- The marks are those of the vertices placed, and every count is the number of their
neighbors. -/
structure Records (s : Planning pattern) (placed : List Nat) : Prop where
  isPlaced_eq : ∀ u < pattern.size, s.isPlaced u = placed.contains u
  count_eq : ∀ u < pattern.size, s.count u = (placedIncident pattern placed u).length

theorem records_start : (start pattern).Records [] where
  isPlaced_eq u hu := by simp [isPlaced, start, hu]
  count_eq u hu := by
    have hnone : placedIncident pattern [] u = [] := List.filter_eq_nil_iff.mpr (by simp)
    simp [count, start, hu, hnone]

namespace Records

/-- Placing a vertex keeps the records. -/
theorem place (h : s.Records placed) (hu : u < pattern.size) (hnew : u ∉ placed) :
    (s.place u).Records (u :: placed) where
  isPlaced_eq w hw := by
    rw [s.isPlaced_place hu, h.isPlaced_eq w hw, List.contains_cons]
  count_eq w hw := by
    rw [s.count_place u hw, h.count_eq w hw, length_placedIncident_cons hnew]

theorem not_mem_of_mem_unplaced (h : s.Records placed) (hu : u ∈ s.unplaced) : u ∉ placed := by
  obtain ⟨hlt, hmark⟩ := mem_unplaced_iff.mp hu
  rw [h.isPlaced_eq u hlt] at hmark
  simpa using hmark

theorem stepAt_eq (h : s.Records placed) (u : Nat) :
    s.stepAt u = ⟨u, placedIncident pattern placed u⟩ := by
  refine congrArg (Step.mk u) (List.filter_congr fun e he => ?_)
  exact h.isPlaced_eq e.1 (pattern.lt_size_of_mem_neighbors (List.mem_map_of_mem he))

/-- The recorded counts choose the next vertex of a plan.  The vertices to be placed are
ascending, so of two that are alike the first one is at the lower position anyway. -/
theorem next?_eq (h : s.Records placed) :
    s.next? = Matching.next? pattern placed s.unplaced := by
  have hascending : s.unplaced.Pairwise (· < ·) := pattern.pairwise_ids.filter _
  refine firstBest?_congr (hascending.imp_of_mem fun {a b} ha hb hab => ?_)
  have hba : ¬ b < a := Nat.not_lt_of_lt hab
  rw [Planning.preferred, Matching.preferred, h.count_eq a (mem_unplaced_iff.mp ha).1,
    h.count_eq b (mem_unplaced_iff.mp hb).1]
  simp [hba]

theorem steps_eq (h : s.Records placed) :
    s.steps = continuePlan pattern placed s.unplaced := by
  fun_induction steps s generalizing placed with
  | case1 s hnext =>
    rw [firstBest?_eq_none_iff.mp hnext, continuePlan_nil]
  | case2 s u hnext _ ih =>
    have hu : u ∈ s.unplaced := mem_of_firstBest? hnext
    have hlt := (mem_unplaced_iff.mp hu).1
    have hnodup : s.unplaced.Nodup := pattern.nodup_ids.filter _
    rw [continuePlan_of_next? (h.next?_eq.symm.trans hnext), h.stepAt_eq,
      ih (h.place hlt (h.not_mem_of_mem_unplaced hu)), s.unplaced_place hlt,
      hnodup.erase_eq_filter]

end Records

end Planning

/-- The plan made with running counts is the plan. -/
theorem countedPlan_eq (hroot : root < pattern.size) :
    countedPlan pattern root = plan pattern root := by
  have hstart : (Planning.start pattern).Records [] := Planning.records_start
  have hnone : placedIncident pattern [] root = [] := List.filter_eq_nil_iff.mpr (by simp)
  have hall : (Planning.start pattern).unplaced = pattern.ids := by
    refine List.filter_eq_self.mpr fun u hu => ?_
    rw [hstart.isPlaced_eq u ((Graph.mem_ids _).mp hu)]
    rfl
  rw [countedPlan, plan, hstart.stepAt_eq, hnone,
    (hstart.place hroot List.not_mem_nil).steps_eq, (Planning.start pattern).unplaced_place hroot,
    hall, pattern.nodup_ids.erase_eq_filter]

/-- A step with placed neighbors looks for candidates around the image of one of them. -/
theorem exists_pivot?_of_back_ne_nil {s : Step} (h : s.back ≠ []) :
    ∃ w label, (w, label) ∈ s.back ∧ s.pivot? = some w
      ∧ ∀ q p, pool q p s = q.data.neighbors (p.image w) := by
  obtain ⟨e, back, hback⟩ := List.exists_cons_of_ne_nil h
  have hpivot : s.pivot? = some e.1 := by rw [Step.pivot?, hback, List.head?_cons, Option.map_some]
  refine ⟨e.1, e.2, hback ▸ List.mem_cons_self, hpivot, fun q p => ?_⟩
  rw [pool, poolFrom, hpivot]

/-- A plan, made with running counts or not, has one step for every pattern vertex, the first one
for the root.  A step has exactly the edges from its vertex to the vertices of the steps before
it.  In a connected pattern every step but the first has such a neighbor as its pivot, and only
the data vertices next to the image of the pivot are tried. -/
theorem plan_exact (hroot : root < pattern.size) :
    countedPlan pattern root = plan pattern root
      ∧ ((plan pattern root).map Step.vertex).Perm pattern.ids
      ∧ (plan pattern root).head?.map Step.vertex = some root
      ∧ ∀ front s rest, plan pattern root = front ++ s :: rest →
          (∀ w label, (w, label) ∈ s.back
              ↔ w ∈ front.map Step.vertex ∧ pattern.edgeLabel? s.vertex w = some label)
            ∧ (s.back.map Prod.fst).Nodup
            ∧ (pattern.isConnected = true → front ≠ [] →
                ∃ w ∈ front.map Step.vertex, w ∈ pattern.neighbors s.vertex
                  ∧ s.pivot? = some w
                  ∧ ∀ q p, pool q p s = q.data.neighbors (p.image w)) := by
  refine ⟨countedPlan_eq hroot, perm_plan hroot, rfl, fun front s rest hplan => ?_⟩
  have hback := back_of_plan hplan
  have hmem : ∀ w label, (w, label) ∈ s.back
      ↔ w ∈ front.map Step.vertex ∧ pattern.edgeLabel? s.vertex w = some label := by
    intro w label
    rw [hback, mem_placedIncident_iff, List.mem_reverse]
  refine ⟨hmem, hback ▸ nodup_placedIncident, fun hconn hfront => ?_⟩
  obtain ⟨w, label, hw, hpivot, hpool⟩ :=
    exists_pivot?_of_back_ne_nil (back_ne_nil_of_plan hroot hconn hplan hfront)
  obtain ⟨hplaced, hlabel⟩ := (hmem w label).mp hw
  exact ⟨w, hplaced, pattern.mem_neighbors_of_edgeLabel? hlabel, hpivot, hpool⟩

/-- From the middle of its tail, the tadpole is placed over the triangle first; the last vertex
of the triangle is looked for around one of its two neighbors. -/
theorem plan_exact_tadpole : 3 < Pattern.tadpole.size ∧ Pattern.tadpole.isConnected = true
    ∧ countedPlan Pattern.tadpole 3
      = [⟨3, []⟩, ⟨2, [(3, "e")]⟩, ⟨0, [(2, "e")]⟩, ⟨1, [(2, "e"), (0, "e")]⟩, ⟨4, [(3, "e")]⟩]
    ∧ ∃ w ∈ [3, 2, 0], w ∈ Pattern.tadpole.neighbors 1
      ∧ ∀ q p, pool q p ⟨1, [(2, "e"), (0, "e")]⟩ = q.data.neighbors (p.image w) := by
  have hroot : 3 < Pattern.tadpole.size := by decide
  have hconn : Pattern.tadpole.isConnected = true := by decide
  have hsteps : plan Pattern.tadpole 3
      = [⟨3, []⟩, ⟨2, [(3, "e")]⟩, ⟨0, [(2, "e")]⟩, ⟨1, [(2, "e"), (0, "e")]⟩,
        ⟨4, [(3, "e")]⟩] := by
    cbv
  obtain ⟨hcounted, -, -, hknows⟩ := plan_exact hroot
  obtain ⟨-, -, hpivot⟩ := hknows [⟨3, []⟩, ⟨2, [(3, "e")]⟩, ⟨0, [(2, "e")]⟩]
    ⟨1, [(2, "e"), (0, "e")]⟩ [⟨4, [(3, "e")]⟩] hsteps
  obtain ⟨w, hw, hnear, -, hpool⟩ := hpivot hconn (List.cons_ne_nil _ _)
  exact ⟨hroot, hconn, hcounted.trans hsteps, w, hw, hnear, hpool⟩

end GraphDependency.Matching
