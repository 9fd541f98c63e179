import GraphDependency.Balance
import Mathlib.Data.List.Perm.Basic
import Mathlib.Data.List.Flatten

set_option autoImplicit false

/-!
# Balancing loses nothing

However weights are dealt, taken away and given back, every weight ends up in one
bin.

Main statement: `perm_balance`, the bins together hold the weights.
-/

namespace GraphDependency

namespace Balance

variable {weights : List Nat} {bins : List (List Nat)} {i w m mean : Nat}

theorem perm_ascending (weights : List Nat) : (ascending weights).Perm weights :=
  List.mergeSort_perm _ _

theorem perm_descending (weights : List Nat) : (descending weights).Perm weights :=
  List.mergeSort_perm _ _

/-! ## Dealing -/

/-- Splitting a list by a number below a bound and putting it together again. -/
theorem perm_flatMap_filter {α : Type} (f : α → Nat) (m : Nat) (xs : List α) :
    ((List.range m).flatMap fun i => xs.filter fun x => f x == i).Perm
      (xs.filter fun x => f x < m) := by
  induction m with
  | zero => simp
  | succ m ih =>
    rw [List.range_succ, List.flatMap_append, List.flatMap_singleton]
    have hsplit := List.filter_append_perm (fun x => decide (f x < m))
      (xs.filter fun x => f x < m + 1)
    rw [List.filter_filter, List.filter_filter] at hsplit
    have hbelow : (xs.filter fun x => decide (f x < m) && decide (f x < m + 1))
        = xs.filter fun x => f x < m := by
      refine List.filter_congr ?_
      intro x _
      rw [Bool.eq_iff_iff, Bool.and_eq_true, decide_eq_true_eq, decide_eq_true_eq]
      omega
    have hlast : (xs.filter fun x => (!decide (f x < m)) && decide (f x < m + 1))
        = xs.filter fun x => f x == m := by
      refine List.filter_congr ?_
      intro x _
      rw [Bool.eq_iff_iff, Bool.and_eq_true, Bool.not_eq_true', decide_eq_false_iff_not,
        decide_eq_true_eq, beq_iff_eq]
      omega
    rw [hbelow, hlast] at hsplit
    exact (ih.append_right _).trans hsplit

/-- Every weight is dealt to one bin. -/
theorem perm_flatMap_dealt (hm : 0 < m) (weights : List Nat) :
    ((List.range m).flatMap (dealt weights m)).Perm weights := by
  have hperm := (perm_flatMap_filter (fun e : Nat × Nat => e.2 % m) m weights.zipIdx).map Prod.fst
  have hall : (weights.zipIdx.filter fun e => e.2 % m < m) = weights.zipIdx :=
    List.filter_eq_self.mpr fun e _ => decide_eq_true (Nat.mod_lt e.2 hm)
  rw [hall, List.map_flatMap, List.zipIdx_map_fst] at hperm
  exact hperm

/-! ## Taking away -/

/-- A bin keeps what it does not give to the pool. -/
theorem perm_ofWeights (mean : Nat) (weights : List Nat) :
    ((Bin.ofWeights mean weights).small ++ (Bin.ofWeights mean weights).large?.toList
      ++ (largeOf mean weights).tail).Perm weights := by
  have hlarge : (largeOf mean weights).head?.toList ++ (largeOf mean weights).tail
      = largeOf mean weights := by
    cases largeOf mean weights <;> rfl
  rw [Bin.ofWeights, List.append_assoc, hlarge]
  refine (((perm_ascending _).append (perm_ascending _)).trans List.perm_append_comm).trans ?_
  exact List.filter_append_perm (isLarge mean) weights

/-- What stays and what goes is all there was. -/
theorem perm_kept_append_removed (b : Bin) (strip : Nat) :
    (b.kept strip ++ b.removed strip).Perm (b.small ++ b.large?.toList) := by
  rw [Bin.kept, Bin.removed, List.append_assoc]
  refine (List.perm_append_comm.append_left _).trans ?_
  rw [← List.append_assoc, List.take_append_drop]

/-! ## Giving back -/

theorem perm_giveTo (hi : i < bins.length) (w : Nat) :
    (giveTo bins i w).flatten.Perm (w :: bins.flatten) := by
  induction bins generalizing i with
  | nil => simp at hi
  | cons bin bins ih =>
    cases i with
    | zero => simp [giveTo, List.perm_middle]
    | succ i =>
      have h := (ih (by simpa using hi)).append_left bin
      rw [giveTo, List.modify_succ_cons, List.flatten_cons, List.flatten_cons]
      exact h.trans List.perm_middle

theorem lightest_lt (hne : bins ≠ []) : lightest bins < bins.length := by
  unfold lightest
  cases h : firstBest? (fun a b : Nat × Nat => decide (a.1 < b.1)) (bins.map load).zipIdx with
  | none =>
    rw [firstBest?_eq_none_iff] at h
    exact absurd h (by simpa using hne)
  | some e =>
    have hmem := List.mem_zipIdx (mem_of_firstBest? h)
    simpa using hmem.2.1

theorem perm_pourAll (hne : bins ≠ []) (weights : List Nat) :
    (pourAll bins weights).flatten.Perm (bins.flatten ++ weights) := by
  unfold pourAll
  induction weights generalizing bins with
  | nil => simp
  | cons w rest ih =>
    have hpour := perm_giveTo (lightest_lt hne) w
    have hne' : pour bins w ≠ [] := by
      rw [← List.length_pos_iff, pour, giveTo, List.length_modify]
      exact List.length_pos_iff.mpr hne
    rw [List.foldl_cons]
    refine (ih hne').trans ((hpour.append_right rest).trans ?_)
    exact List.perm_middle.symm

theorem perm_seed {chosen pool : List Nat} (hle : chosen.length ≤ pool.length)
    (hchosen : ∀ i ∈ chosen, i < bins.length) :
    (seed bins chosen pool).flatten.Perm (bins.flatten ++ pool.take chosen.length) := by
  unfold seed
  induction chosen generalizing bins pool with
  | nil => simp
  | cons i chosen ih =>
    match pool with
    | [] => simp at hle
    | w :: pool =>
      obtain ⟨hi, hchosen⟩ := List.forall_mem_cons.mp hchosen
      rw [List.zip_cons_cons, List.foldl_cons]
      refine (ih (by simpa using hle) fun j hj => ?_).trans
        (((perm_giveTo hi w).append_right _).trans ?_)
      · rw [giveTo, List.length_modify]
        exact hchosen j hj
      · exact List.perm_middle.symm

theorem lt_length_of_mem_ranked {bins : List Bin} (h : i ∈ ranked mean bins) :
    i < bins.length := by
  obtain ⟨⟨quality, j⟩, he, rfl⟩ := List.mem_map.mp h
  rw [List.mem_mergeSort] at he
  obtain ⟨e, hmem, heq⟩ := List.mem_map.mp he
  cases heq
  have hin := List.mem_zipIdx (List.mem_of_mem_filter hmem)
  omega

/-! ## Sharing out -/

/-- What all bins keep and give up is what they had. -/
theorem perm_strips {bins : List Bin} {strips : List (Bin × Nat)}
    (hstrips : strips.map Prod.fst = bins) :
    ((strips.map fun e => e.1.kept e.2).flatten
        ++ descending (strips.flatMap fun e => e.1.removed e.2)).Perm
      (bins.flatMap fun b => b.small ++ b.large?.toList) := by
  rw [← List.flatMap_def, ← hstrips, List.flatMap_map]
  refine ((perm_descending _).append_left _).trans ((List.flatMap_append_perm strips _ _).trans ?_)
  exact List.Perm.flatMap_left _ fun e _ => perm_kept_append_removed e.1 e.2

/-- What is given back is the pool and what was removed. -/
theorem perm_pourAll_seed {chosen pool : List Nat} (hne : bins ≠ [])
    (hle : chosen.length ≤ pool.length) (hchosen : ∀ i ∈ chosen, i < bins.length)
    (removed : List Nat) :
    (pourAll (seed bins chosen pool) (pool.drop chosen.length ++ removed)).flatten.Perm
      ((bins.flatten ++ removed) ++ pool) := by
  have hseeded : seed bins chosen pool ≠ [] := by
    rw [← List.length_pos_iff, length_seed]
    exact List.length_pos_iff.mpr hne
  calc List.Perm (pourAll (seed bins chosen pool) (pool.drop chosen.length ++ removed)).flatten
        ((seed bins chosen pool).flatten ++ (pool.drop chosen.length ++ removed)) :=
      perm_pourAll hseeded _
    List.Perm _ ((bins.flatten ++ pool.take chosen.length)
        ++ (pool.drop chosen.length ++ removed)) :=
      (perm_seed hle hchosen).append_right _
    List.Perm _ ((bins.flatten ++ removed) ++ pool) := by
      rw [List.append_assoc, ← List.append_assoc (pool.take _), List.take_append_drop,
        List.append_assoc]
      exact List.perm_append_comm.append_left _

/-- Sharing out puts every weight into one bin. -/
theorem perm_shareOut (hm : 0 < m) (weights : List Nat) :
    (shareOut weights m).flatten.Perm weights := by
  unfold shareOut
  generalize load weights / m = mean
  simp only
  generalize hhands : (List.range m).map (dealt weights m) = hands
  have hdealt : hands.flatten.Perm weights := by
    rw [← hhands, ← List.flatMap_def]
    exact perm_flatMap_dealt hm weights
  have hlength : hands.length = m := by rw [← hhands, List.length_map, List.length_range]
  generalize hbins : hands.map (Bin.ofWeights mean) = bins
  generalize hpool : descending (hands.flatMap fun hand => (largeOf mean hand).tail) = pool
  generalize hchosen : (ranked mean bins).take pool.length = chosen
  generalize hstrips : bins.zipIdx.map (fun e => (e.1, e.1.strip mean (chosen.contains e.2)))
    = strips
  have hfst : strips.map Prod.fst = bins := by
    rw [← hstrips, List.map_map]
    exact List.zipIdx_map_fst 0 bins
  have hcount : (strips.map fun e => e.1.kept e.2).length = m := by
    rw [List.length_map, ← List.length_map Prod.fst, hfst, ← hbins, List.length_map, hlength]
  have hle : chosen.length ≤ pool.length := by
    rw [← hchosen, List.length_take]
    exact Nat.min_le_left _ _
  have hlt : ∀ i ∈ chosen, i < (strips.map fun e => e.1.kept e.2).length := by
    intro i hi
    have hi := lt_length_of_mem_ranked (List.mem_of_mem_take (hchosen ▸ hi))
    rwa [hcount, ← hlength, ← List.length_map (Bin.ofWeights mean), hbins]
  have hne : (strips.map fun e => e.1.kept e.2) ≠ [] := by
    rw [← List.length_pos_iff, hcount]
    exact hm
  refine (perm_pourAll_seed hne hle hlt _).trans (((perm_strips hfst).append_right pool).trans ?_)
  rw [← hbins, List.flatMap_map, ← hpool]
  refine ((perm_descending _).append_left _).trans ((List.flatMap_append_perm hands _ _).trans ?_)
  refine List.Perm.trans ?_ hdealt
  rw [← @List.flatMap_id _ hands]
  exact List.Perm.flatMap_left _ fun hand _ => perm_ofWeights mean hand

end Balance

/-- The bins together hold the weights, each as often as it was given. -/
theorem perm_balance (weights : List Nat) {bins : Nat} (hbins : 0 < bins) :
    (balance weights bins).flatten.Perm weights := by
  have hempty : (List.replicate (bins - min bins weights.length) ([] : List Nat)).flatten = [] := by
    simp
  rw [balance, List.flatten_append, hempty, List.append_nil]
  cases weights with
  | nil =>
    rw [List.length_nil, Nat.min_zero, List.eq_nil_of_length_eq_zero (Balance.length_shareOut [] 0)]
    exact List.Perm.refl _
  | cons w rest => exact Balance.perm_shareOut (by rw [List.length_cons]; omega) _

end GraphDependency
