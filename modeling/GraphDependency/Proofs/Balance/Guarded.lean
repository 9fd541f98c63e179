import GraphDependency.Balance.Guarded
import GraphDependency.Proofs.Balance
import Mathlib.Data.List.Induction

set_option autoImplicit false

/-!
# No guard stops the balancing

The guarded program shares weights out in the same way as the other one; so every
position that it looks at exists, every range that it cuts out is part of its list, and
no difference is negative.  A bin is changed between the planning and the cutting only
by its own plan, and a plan never removes more small weights than there are.

Main statements: `shareOut_eq_some` and `balance_eq_some`.
-/

namespace GraphDependency.Balance

variable {mean m i w total count : Nat} {accept : Nat → Bool} {b : Bin}
  {plain : List Bin} {bins : List (List Nat)} {weights rest : List Nat}

/-! ## Bins in one list -/

/-- The weights of a bin, the large one last. -/
def Bin.contents (b : Bin) : List Nat := b.small ++ b.large?.toList

/-- The large weight of a bin is large, and its small ones are not. -/
structure Bin.IsParted (mean : Nat) (b : Bin) : Prop where
  small : ∀ w ∈ b.small, isLarge mean w = false
  large : ∀ w, b.large? = some w → isLarge mean w = true

theorem mem_of_mem_largeOf (h : w ∈ largeOf mean weights) :
    w ∈ weights ∧ isLarge mean w = true :=
  List.mem_filter.mp ((perm_ascending _).mem_iff.mp h)

theorem isParted_ofWeights (mean : Nat) (weights : List Nat) :
    (Bin.ofWeights mean weights).IsParted mean where
  small := by
    intro w hw
    have hmem := (perm_ascending _).mem_iff.mp hw
    exact Bool.not_eq_true' _ |>.mp (List.mem_filter.mp hmem).2
  large := by
    intro w hw
    exact (mem_of_mem_largeOf (List.mem_of_head? hw)).2

theorem pairwise_ascending (weights : List Nat) : (ascending weights).Pairwise (· ≤ ·) := by
  have h : (ascending weights).Pairwise fun a b => decide (a ≤ b) = true :=
    List.pairwise_mergeSort (fun a b c hab hbc => by simp only [decide_eq_true_eq] at *; omega)
      (fun a b => by simp only [Bool.or_eq_true, decide_eq_true_eq]; omega) weights
  exact h.imp of_decide_eq_true

/-- In ascending order the large weights stand behind the small ones. -/
theorem ascending_eq_append (mean : Nat) (weights : List Nat) :
    ascending weights
      = ascending (weights.filter fun w => !isLarge mean w) ++ largeOf mean weights := by
  have hperm : (ascending weights).Perm
      (ascending (weights.filter fun w => !isLarge mean w) ++ largeOf mean weights) := by
    refine (perm_ascending weights).trans (List.Perm.symm ?_)
    refine (((perm_ascending _).append (perm_ascending _)).trans List.perm_append_comm).trans ?_
    exact List.filter_append_perm (isLarge mean) weights
  refine hperm.eq_of_pairwise (fun _ _ _ _ => Nat.le_antisymm) (pairwise_ascending _) ?_
  refine List.pairwise_append.mpr ⟨pairwise_ascending _, pairwise_ascending _, ?_⟩
  intro v hv w hw
  have hsmall := (isParted_ofWeights mean weights).small v hv
  have hlarge := (mem_of_mem_largeOf hw).2
  simp only [isLarge, decide_eq_true_eq, decide_eq_false_iff_not] at hsmall hlarge
  omega

/-! ## Numbers of weights -/

theorem removals_le_length (accept : Nat → Bool) (total : Nat) (rest : List Nat) :
    removals accept total rest ≤ rest.length := by
  induction rest generalizing total with
  | nil => exact Nat.le_refl 0
  | cons w rest ih =>
    rw [removals]
    split
    · exact Nat.zero_le _
    · exact Nat.succ_le_succ (ih _)

theorem toHalf_le_length (mean : Nat) (b : Bin) : b.toHalf mean ≤ b.small.length := by
  have h := removals_le_length (fun rest => 2 * rest ≤ mean) (load b.small) b.small.reverse
  rwa [List.length_reverse] at h

theorem toMean_le_length (mean : Nat) (b : Bin) : b.toMean mean ≤ b.small.length := by
  have h := removals_le_length (fun rest => rest ≤ mean) (b.large?.getD 0 + load b.small)
    b.small.reverse
  rwa [List.length_reverse] at h

/-- No bin gives up more small weights than it has. -/
theorem strip_le_length (mean : Nat) (seeded : Bool) (b : Bin) :
    b.strip mean seeded ≤ b.small.length := by
  have hhalf := toHalf_le_length mean b
  have hmean := toMean_le_length mean b
  unfold Bin.strip
  split
  · exact Nat.max_le.mpr ⟨hhalf, hmean⟩
  · split
    · exact hhalf
    · exact hmean

namespace Guarded

theorem minus_eq_some {a b : Nat} (h : b ≤ a) : minus a b = some (a - b) := if_pos h

theorem give_eq_some (h : i < bins.length) (w : Nat) : give bins i w = some (giveTo bins i w) :=
  if_pos h

theorem mapM_eq_some {α β : Type} {f : α → Option β} {g : α → β} {xs : List α}
    (h : ∀ x ∈ xs, f x = some (g x)) : xs.mapM f = some (xs.map g) := by
  induction xs with
  | nil => rfl
  | cons x xs ih =>
    obtain ⟨hx, hxs⟩ := List.forall_mem_cons.mp h
    rw [List.mapM_cons, hx, ih hxs]
    rfl

/-! ## Dealing -/

theorem dealt_append_singleton (weights : List Nat) (w m i : Nat) :
    dealt (weights ++ [w]) m i
      = dealt weights m i ++ if i = weights.length % m then [w] else [] := by
  rw [dealt, dealt, List.zipIdx_append, List.filter_append, List.map_append, Nat.zero_add]
  congr 1
  rw [List.zipIdx_singleton, List.filter_singleton, eq_comm]
  split
  · rename_i h
    simp [h]
  · rename_i h
    simp [beq_eq_false_iff_ne.mpr (Ne.symm h)]

theorem giveTo_dealt (weights : List Nat) (m w : Nat) :
    giveTo ((List.range m).map (dealt weights m)) (weights.length % m) w
      = (List.range m).map (dealt (weights ++ [w]) m) := by
  refine List.ext_getElem (by simp [giveTo]) fun i hi _ => ?_
  simp only [giveTo, List.getElem_modify, List.getElem_map, List.getElem_range,
    dealt_append_singleton, eq_comm (a := i)]
  split
  · rfl
  · rw [List.append_nil]

theorem deal_eq_some (hm : 0 < m) (weights : List Nat) :
    deal weights m = some ((List.range m).map (dealt weights m)) := by
  induction weights using List.reverseRecOn with
  | nil =>
    refine congrArg some (List.ext_getElem (by simp) fun i hi _ => ?_)
    simp [dealt]
  | append_singleton weights w ih =>
    have hlt : weights.length % m < ((List.range m).map (dealt weights m)).length := by
      rw [List.length_map, List.length_range]
      exact Nat.mod_lt _ hm
    rw [deal, List.zipIdx_append, List.foldlM_append]
    rw [deal] at ih
    rw [ih, ← giveTo_dealt, ← give_eq_some hlt, Nat.zero_add]
    simp [remainder, Nat.ne_of_gt hm]

/-! ## Planning -/

theorem takeWhile_ascending (mean : Nat) (weights : List Nat) :
    ((ascending weights).takeWhile fun w => !isLarge mean w)
      = (Bin.ofWeights mean weights).small := by
  rw [ascending_eq_append mean, List.takeWhile_append_of_pos, Bin.ofWeights]
  · cases h : largeOf mean weights with
    | nil => simp
    | cons w rest =>
      have hw := (mem_of_mem_largeOf (h ▸ List.mem_cons_self)).2
      simp [hw]
  · intro w hw
    rw [(isParted_ofWeights mean weights).small w hw]
    rfl

theorem extract_eq_some (mean : Nat) (weights : List Nat) :
    extract mean weights
      = some ((largeOf mean weights).tail, (Bin.ofWeights mean weights).contents) := by
  have happend : ascending weights
      = (Bin.ofWeights mean weights).small ++ largeOf mean weights := ascending_eq_append ..
  unfold extract
  simp only [takeWhile_ascending]
  rw [happend, Bin.contents]
  generalize (Bin.ofWeights mean weights).small = small
  rw [Bin.ofWeights]
  cases largeOf mean weights with
  | nil => rw [if_neg (by simp)]; rfl
  | cons w rest =>
    cases rest with
    | nil => rw [if_neg (by simp)]; rfl
    | cons v rest =>
      have hcut := cut_back (small ++ [w]) (v :: rest)
      have hlength : (small ++ [w]).length = small.length + 1 := List.length_append
      rw [hlength] at hcut
      rwa [if_pos (by simp), List.append_cons]

theorem extractAll_eq_some (mean : Nat) (hands : List (List Nat)) :
    extractAll mean hands
      = some ((hands.map (Bin.ofWeights mean)).map Bin.contents,
          descending (hands.flatMap fun hand => (largeOf mean hand).tail)) := by
  rw [extractAll, mapM_eq_some fun hand _ => extract_eq_some mean hand]
  simp only [Option.bind_eq_bind, Option.bind_some, Option.pure_def, List.map_map,
    List.flatMap_map]
  rfl

theorem removals_eq_some (h : load rest ≤ total) :
    removals accept total rest = some (Balance.removals accept total rest) := by
  induction rest generalizing total with
  | nil => rfl
  | cons w rest ih =>
    rw [load_cons] at h
    rw [removals, Balance.removals]
    split
    · rfl
    · rw [minus_eq_some (by omega)]
      simp only [Option.bind_eq_bind, Option.bind_some]
      rw [ih (by omega)]
      rfl

/-- The plan that a bin calls for. -/
def planOf (mean : Nat) (b : Bin) : Plan := ⟨b.toHalf mean, b.toMean mean, b.large?.isSome⟩

theorem getLast?_contents (h : b.IsParted mean) :
    b.contents.getLast?.any (isLarge mean) = b.large?.isSome := by
  cases hlarge : b.large? with
  | none =>
    rw [Bin.contents, hlarge, Option.toList_none, List.append_nil]
    cases hlast : b.small.getLast? with
    | none => rfl
    | some w => exact h.small w (List.mem_of_getLast? hlast)
  | some w =>
    rw [Bin.contents, hlarge, Option.toList_some, List.getLast?_concat]
    exact h.large w hlarge

theorem plan_eq_some (h : b.IsParted mean) : plan mean b.contents = some (planOf mean b) := by
  have hload : load b.small.reverse = load b.small := by
    rw [load, load, (List.reverse_perm b.small).foldr_eq]
  have hhalf : removals (fun rest => 2 * rest ≤ mean) (load b.small) b.small.reverse
      = some (b.toHalf mean) := removals_eq_some (Nat.le_of_eq hload)
  have hmean : removals (fun rest => rest ≤ mean) (b.large?.getD 0 + load b.small)
      b.small.reverse = some (b.toMean mean) := removals_eq_some (by omega)
  rw [plan, getLast?_contents h, planOf]
  cases hlarge : b.large? with
  | none =>
    simp only [hlarge, Option.getD_none, Nat.zero_add] at hmean
    simp [Bin.contents, hlarge, minus, front, hhalf, hmean]
  | some w =>
    simp only [hlarge, Option.getD_some] at hmean
    simp [Bin.contents, hlarge, minus, front, hhalf, hmean]

theorem planAll_eq_some (h : ∀ b ∈ plain, b.IsParted mean) :
    (plain.map Bin.contents).mapM (plan mean) = some (plain.map (planOf mean)) := by
  rw [List.mapM_map]
  exact mapM_eq_some fun b hb => plan_eq_some (h b hb)

theorem rank_eq_some (mean : Nat) (bins : List Bin) :
    rank (bins.map (planOf mean)) bins.length = some (ranked mean bins) := by
  have hplaced : (List.range bins.length).mapM
      (fun i => ((bins.map (planOf mean))[i]?).map fun p => (p, i))
        = some (bins.zipIdx.map fun e => (planOf mean e.1, e.2)) := by
    rw [mapM_eq_some (g := fun i => (planOf mean (bins.getD i default), i))]
    · refine congrArg some (List.ext_getElem (by simp) fun i hi _ => ?_)
      have hlt : i < bins.length := by simpa using hi
      simp [hlt]
    · intro i hi
      have hlt := List.mem_range.mp hi
      simp [hlt]
  rw [rank, hplaced, ranked]
  simp only [Option.bind_eq_bind, Option.bind_some, Option.pure_def, List.filter_map,
    List.map_map]
  congr 4
  refine List.filter_congr fun e _ => ?_
  simp [planOf]

/-! ## Cutting out and giving back -/

theorem strip_eq_some (mean : Nat) (seeded : Bool) (b : Bin) :
    strip (planOf mean b) seeded b.contents
      = some (b.removed (b.strip mean seeded), b.kept (b.strip mean seeded)) := by
  have hstop : minus b.contents.length (if (planOf mean b).hasLarge then 1 else 0)
      = some b.small.length := by
    cases hlarge : b.large? with
    | none => simp [Bin.contents, planOf, hlarge, minus]
    | some w => simp [Bin.contents, planOf, hlarge, minus]
  have hcount : (if (planOf mean b).hasLarge then max (planOf mean b).toHalf (planOf mean b).toMean
      else if seeded then (planOf mean b).toHalf else (planOf mean b).toMean)
        = b.strip mean seeded := rfl
  rw [strip, hstop, hcount]
  simp only [Option.bind_eq_bind, Option.bind_some]
  rw [minus_eq_some (strip_le_length mean seeded b)]
  exact cut_append b.small b.large?.toList _

theorem stripAll_eq_some (mean : Nat) (chosen : List Nat) (plain : List Bin) :
    stripAll (plain.map (planOf mean)) chosen (plain.map Bin.contents)
      = some
        ((plain.zipIdx.map fun e => (e.1, e.1.strip mean (chosen.contains e.2))).map
            fun e => e.1.kept e.2,
          descending ((plain.zipIdx.map fun e =>
            (e.1, e.1.strip mean (chosen.contains e.2))).flatMap fun e => e.1.removed e.2)) := by
  have hparts : ∀ e ∈ plain.zipIdx, ((plain.map (planOf mean))[e.2]?).bind
      (fun p => strip p (chosen.contains e.2) e.1.contents)
        = some (e.1.removed (e.1.strip mean (chosen.contains e.2)),
            e.1.kept (e.1.strip mean (chosen.contains e.2))) := by
    intro e he
    rw [List.getElem?_map, List.mem_zipIdx_iff_getElem?.mp he]
    exact strip_eq_some mean (chosen.contains e.2) e.1
  rw [stripAll, List.zipIdx_map, List.mapM_map]
  have hall := mapM_eq_some hparts
  simp only [Function.comp_def, Prod.map_fst, Prod.map_snd, id_eq, hall, Option.bind_eq_bind,
    Option.bind_some, Option.pure_def, List.map_map, List.flatMap_map]

theorem seed_eq_some {chosen : List Nat} (h : ∀ i ∈ chosen, i < bins.length) (pool : List Nat) :
    seed bins chosen pool = some (Balance.seed bins chosen pool) := by
  unfold seed Balance.seed
  induction chosen generalizing bins pool with
  | nil => rfl
  | cons i chosen ih =>
    cases pool with
    | nil => rfl
    | cons w pool =>
      obtain ⟨hi, hchosen⟩ := List.forall_mem_cons.mp h
      rw [List.zip_cons_cons, List.foldlM_cons, List.foldl_cons, give_eq_some hi]
      refine ih (fun j hj => ?_) pool
      rw [giveTo, List.length_modify]
      exact hchosen j hj

theorem pourAll_eq_some (hne : bins ≠ []) (weights : List Nat) :
    pourAll bins weights = some (Balance.pourAll bins weights) := by
  unfold pourAll Balance.pourAll
  induction weights generalizing bins with
  | nil => rfl
  | cons w rest ih =>
    rw [List.foldlM_cons, List.foldl_cons, give_eq_some (lightest_lt hne)]
    refine ih ?_
    rw [← List.length_pos_iff, giveTo, List.length_modify]
    exact List.length_pos_iff.mpr hne

/-! ## Sharing out -/

theorem front_eq_some {α : Type} (xs : List α) (count : Nat) :
    front xs (min count xs.length) = some (xs.take count) := by
  rw [front, if_pos (Nat.min_le_right ..), List.take_eq_take_min (i := count)]

/-- Nothing stops the sharing out, and its result is the same. -/
theorem shareOut_eq_some (hm : 0 < m) (weights : List Nat) :
    shareOut weights m = some (Balance.shareOut weights m) := by
  unfold shareOut Balance.shareOut
  have hquotient : quotient (load weights) m = some (load weights / m) :=
    if_neg (Nat.ne_of_gt hm)
  rw [deal_eq_some hm, hquotient]
  generalize load weights / m = mean
  have hlength : ((List.range m).map (dealt weights m)).length = m := by simp
  generalize (List.range m).map (dealt weights m) = hands at hlength
  have hparted : ∀ b ∈ hands.map (Bin.ofWeights mean), b.IsParted mean :=
    List.forall_mem_map.mpr fun hand _ => isParted_ofWeights mean hand
  have hbins : (hands.map (Bin.ofWeights mean)).length = m := by rw [List.length_map, hlength]
  simp only [Option.bind_eq_bind, Option.bind_some, extractAll_eq_some, planAll_eq_some hparted]
  generalize hands.map (Bin.ofWeights mean) = plain at hbins
  generalize descending (hands.flatMap fun hand => (largeOf mean hand).tail) = pool
  have hrank := rank_eq_some mean plain
  rw [hbins] at hrank
  simp only [hrank, Option.bind_some, front_eq_some, stripAll_eq_some]
  generalize hchosen : (ranked mean plain).take pool.length = chosen
  generalize hstrips : plain.zipIdx.map (fun e =>
    (e.1, e.1.strip mean (chosen.contains e.2))) = strips
  have hkept : (strips.map fun e => e.1.kept e.2).length = m := by simp [← hstrips, hbins]
  have hlt : ∀ i ∈ chosen, i < (strips.map fun e => e.1.kept e.2).length := by
    intro i hi
    rw [hkept, ← hbins]
    exact lt_length_of_mem_ranked (List.mem_of_mem_take (hchosen ▸ hi))
  rw [seed_eq_some hlt]
  apply pourAll_eq_some
  rw [← List.length_pos_iff, length_seed, hkept]
  exact hm

/-- For every number of bins, the guarded program ends with the same bins. -/
theorem balance_eq_some (weights : List Nat) (bins : Nat) :
    balance weights bins = some (GraphDependency.balance weights bins) := by
  unfold balance
  split
  · rename_i hzero
    rw [hzero, List.eq_nil_of_length_eq_zero (length_balance weights 0)]
  · rename_i hpos
    cases weights with
    | nil =>
      have hnone : Balance.shareOut [] 0 = [] :=
        List.eq_nil_of_length_eq_zero (length_shareOut [] 0)
      simp [GraphDependency.balance, hnone]
    | cons w rest =>
      have hm : 0 < min bins (w :: rest).length := by
        rw [List.length_cons]
        omega
      rw [if_neg (by simp), shareOut_eq_some hm, minus_eq_some (Nat.min_le_left ..)]
      rfl

end Guarded

end GraphDependency.Balance
