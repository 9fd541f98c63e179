import GraphDependency.Proofs.Balance.Occupied
import GraphDependency.Proofs.Selection

set_option autoImplicit false

/-!
# No bin is overloaded

Before weights are given back, a bin holds at most the mean, or a large weight and nothing
else; and a bin that is to be given a large weight holds at most half the mean.  After
that, a weight goes to the lightest bin.  Since the lightest bin does not exceed the mean
of all bins at that time, and their loads together do not exceed the sum of the weights,
no bin exceeds the final mean by more than one weight.

Main statements: `mul_load_lightest_le`, `load_le_of_mem_pourAll` and
`load_le_of_mem_balance`.
-/

namespace GraphDependency

namespace Balance

variable {mean m i w total heavy : Nat} {accept : Nat → Bool} {b : Bin}
  {bins : List (List Nat)} {weights bin : List Nat}

/-! ## What bins hold before weights are given back -/

/-- What is left is accepted, or nothing is left. -/
theorem accept_or_eq_length (accept : Nat → Bool) (total : Nat) (weights : List Nat) :
    accept (total - load (weights.take (removals accept total weights))) = true
      ∨ removals accept total weights = weights.length := by
  induction weights generalizing total with
  | nil => exact Or.inr rfl
  | cons w rest ih =>
    rw [removals]
    split
    · rename_i haccept
      exact Or.inl haccept
    · rw [List.take_succ_cons, load_cons, ← Nat.sub_sub, List.length_cons]
      exact (ih (total - w)).imp_right (congrArg Nat.succ)

/-- Removing weights from the end of a list takes their load away. -/
theorem load_take_add (weights : List Nat) (count : Nat) :
    load (weights.take (weights.length - count)) + load (weights.reverse.take count)
      = load weights := by
  rw [List.take_reverse, load_reverse, ← load_append, List.take_append_drop]

theorem load_take_le_of_le {count more : Nat} (h : count ≤ more) (weights : List Nat) :
    load (weights.take (weights.length - more))
      ≤ load (weights.take (weights.length - count)) :=
  load_le_of_sublist (List.take_sublist_take_left (by omega))

/-- At most half the mean is left. -/
theorem load_toHalf_le (mean : Nat) (b : Bin) :
    2 * load (b.small.take (b.small.length - b.toHalf mean)) ≤ mean := by
  have hsplit := load_take_add b.small (b.toHalf mean)
  cases accept_or_eq_length (fun rest => 2 * rest ≤ mean) (load b.small) b.small.reverse with
  | inl haccept =>
    have hhalf : 2 * (load b.small - load (b.small.reverse.take (b.toHalf mean))) ≤ mean :=
      of_decide_eq_true haccept
    omega
  | inr hall =>
    rw [List.length_reverse] at hall
    rw [Bin.toHalf, hall, Nat.sub_self]
    exact Nat.zero_le mean

/-- At most the mean is left in the bin, or only its large weight. -/
theorem load_toMean_le (mean : Nat) (b : Bin) :
    b.large?.getD 0 + load (b.small.take (b.small.length - b.toMean mean)) ≤ mean
      ∨ b.toMean mean = b.small.length := by
  have hsplit := load_take_add b.small (b.toMean mean)
  have hspec := accept_or_eq_length (fun rest => rest ≤ mean) (b.large?.getD 0 + load b.small)
    b.small.reverse
  rw [List.length_reverse] at hspec
  refine hspec.imp_left fun haccept => ?_
  have hmean : b.large?.getD 0 + load b.small - load (b.small.reverse.take (b.toMean mean))
      ≤ mean := of_decide_eq_true haccept
  omega

theorem load_kept (b : Bin) (strip : Nat) :
    load (b.kept strip) = load (b.small.take (b.small.length - strip)) + b.large?.getD 0 := by
  rw [Bin.kept, load_append]
  cases b.large? <;> rfl

/-- A bin without a large weight holds at most the mean. -/
theorem load_kept_le_of_none (mean : Nat) (seeded : Bool) (hlarge : b.large? = none) :
    load (b.kept (b.strip mean seeded)) ≤ mean := by
  rw [load_kept, hlarge, Option.getD_none, Nat.add_zero]
  cases seeded with
  | true =>
    have hstrip : b.strip mean true = b.toHalf mean := by simp [Bin.strip, hlarge]
    have hhalf := load_toHalf_le mean b
    rw [hstrip]
    omega
  | false =>
    have hstrip : b.strip mean false = b.toMean mean := by simp [Bin.strip, hlarge]
    rw [hstrip]
    cases load_toMean_le mean b with
    | inl hmean => rwa [hlarge, Option.getD_none, Nat.zero_add] at hmean
    | inr hall =>
      rw [hall, Nat.sub_self]
      exact Nat.zero_le mean

/-- A bin with a large weight holds at most the mean, or nothing else. -/
theorem load_kept_le_of_some (mean : Nat) (seeded : Bool) (hlarge : b.large? = some w) :
    load (b.kept (b.strip mean seeded)) ≤ mean + w := by
  have hstrip : b.toMean mean ≤ b.strip mean seeded := by
    rw [Bin.strip, hlarge, Option.isSome_some, if_pos rfl]
    exact Nat.le_max_right ..
  have hrest := load_take_le_of_le hstrip b.small
  rw [load_kept, hlarge, Option.getD_some]
  cases load_toMean_le mean b with
  | inl hmean => omega
  | inr hall =>
    rw [hall, Nat.sub_self, List.take_zero, load_nil] at hrest
    omega

theorem mem_of_large? (h : (Bin.ofWeights mean weights).large? = some w) : w ∈ weights :=
  (mem_of_mem_largeOf (List.mem_of_head? h)).1

theorem mem_of_mem_pool (h : w ∈ pool weights m) : w ∈ weights := by
  obtain ⟨i, -, hi⟩ := List.mem_flatMap.mp ((perm_descending _).mem_iff.mp h)
  exact (dealt_sublist weights m i).mem (mem_of_mem_largeOf (List.mem_of_mem_tail hi)).1

theorem load_keptAt_le (hheavy : ∀ w ∈ weights, w ≤ heavy) (m i : Nat) :
    load (keptAt weights m i) ≤ load weights / m + heavy := by
  cases hlarge : (binAt weights m i).large? with
  | none =>
    exact Nat.le_trans (load_kept_le_of_none _ _ hlarge) (Nat.le_add_right ..)
  | some w =>
    have hw := hheavy w ((dealt_sublist weights m i).mem (mem_of_large? hlarge))
    exact Nat.le_trans (load_kept_le_of_some _ _ hlarge) (Nat.add_le_add_left hw _)

theorem load_keptAt_le_of_mem_chosen (h : i ∈ chosen weights m) :
    load (keptAt weights m i) ≤ load weights / m :=
  load_kept_le_of_none _ _ (large?_of_mem_chosen h)

/-! ## What one weight more does -/

theorem mem_giveTo (h : bin ∈ giveTo bins i w) :
    bin ∈ bins ∨ ∃ old, bins[i]? = some old ∧ bin = old ++ [w] := by
  obtain ⟨j, hj⟩ := List.mem_iff_getElem?.mp h
  rw [giveTo, List.getElem?_modify] at hj
  obtain ⟨old, hold, heq⟩ := Option.map_eq_some_iff.mp hj
  split at heq
  · rename_i hij
    exact Or.inr ⟨old, hij ▸ hold, heq.symm⟩
  · exact Or.inl (heq ▸ List.mem_of_getElem? hold)

theorem getElem?_giveTo_of_ne {j : Nat} (hne : i ≠ j) (w : Nat) :
    (giveTo bins i w)[j]? = bins[j]? := by
  rw [giveTo, List.getElem?_modify]
  simp [hne]

theorem load_flatten_giveTo (hi : i < bins.length) (w : Nat) :
    load (giveTo bins i w).flatten = w + load bins.flatten := by
  rw [load_eq_of_perm (perm_giveTo hi w), load_cons]

/-- Each chosen bin is given one weight, so none exceeds the limit if those do not that
have room for one. -/
theorem load_le_of_mem_seed {chosen pool : List Nat} {limit : Nat} (hnodup : chosen.Nodup)
    (hpool : ∀ w ∈ pool, w ≤ heavy) (hbins : ∀ bin ∈ bins, load bin ≤ limit)
    (hroom : ∀ i ∈ chosen, ∀ bin, bins[i]? = some bin → load bin + heavy ≤ limit) :
    ∀ bin ∈ seed bins chosen pool, load bin ≤ limit := by
  unfold seed
  induction chosen generalizing bins pool with
  | nil => exact hbins
  | cons i chosen ih =>
    cases pool with
    | nil => exact hbins
    | cons w pool =>
      obtain ⟨hnew, hnodup⟩ := List.nodup_cons.mp hnodup
      obtain ⟨hw, hpool⟩ := List.forall_mem_cons.mp hpool
      obtain ⟨hi, hroom⟩ := List.forall_mem_cons.mp hroom
      refine ih hnodup hpool (fun bin hbin => ?_) fun j hj bin hbin => ?_
      · cases mem_giveTo hbin with
        | inl hmem => exact hbins bin hmem
        | inr hgiven =>
          obtain ⟨old, hold, rfl⟩ := hgiven
          have hlimit := hi old hold
          rw [load_append, load_cons, load_nil]
          omega
      · have hne : i ≠ j := fun heq => hnew (heq ▸ hj)
        exact hroom j hj bin ((getElem?_giveTo_of_ne hne w).symm.trans hbin)

/-! ## The lightest bin -/

theorem exists_lightest (hne : bins ≠ []) :
    ∃ light, bins[lightest bins]? = some light ∧ ∀ bin ∈ bins, load light ≤ load bin := by
  unfold lightest
  cases h : firstBest? (fun a b : Nat × Nat => decide (a.1 < b.1)) (bins.map load).zipIdx with
  | none =>
    rw [firstBest?_eq_none_iff] at h
    exact absurd h (by simpa using hne)
  | some e =>
    have hposition := List.mem_zipIdx_iff_getElem?.mp (mem_of_firstBest? h)
    rw [List.getElem?_map] at hposition
    obtain ⟨light, hlight, hload⟩ := Option.map_eq_some_iff.mp hposition
    refine ⟨light, hlight, fun bin hbin => ?_⟩
    obtain ⟨i, hi⟩ := List.mem_iff_getElem?.mp hbin
    have hmem : (load bin, i) ∈ (bins.map load).zipIdx :=
      List.mem_zipIdx_iff_getElem?.mpr (by rw [List.getElem?_map, hi, Option.map_some])
    rw [hload]
    obtain ⟨-, -, hleast, -⟩ := exists_getElem?_of_firstBest? h
    exact hleast _ hmem

theorem mul_le_load_flatten {least : Nat} (h : ∀ bin ∈ bins, least ≤ load bin) :
    least * bins.length ≤ load bins.flatten := by
  induction bins with
  | nil => exact Nat.le_refl 0
  | cons bin bins ih =>
    obtain ⟨hbin, hbins⟩ := List.forall_mem_cons.mp h
    rw [List.flatten_cons, load_append, List.length_cons, Nat.mul_succ, Nat.add_comm]
    exact Nat.add_le_add hbin (ih hbins)

/-- The lightest bin does not exceed the mean of all bins. -/
theorem mul_load_lightest_le {light : List Nat} (h : bins[lightest bins]? = some light) :
    load light * bins.length ≤ load bins.flatten := by
  obtain ⟨_, hlight, hleast⟩ := exists_lightest (List.ne_nil_of_mem (List.mem_of_getElem? h))
  cases h.symm.trans hlight
  exact mul_le_load_flatten hleast

/-- Filled up from the lightest one on, no bin exceeds the final mean by more than a
weight. -/
theorem load_le_of_mem_pourAll (hne : bins ≠ []) (hheavy : ∀ w ∈ weights, w ≤ heavy)
    (htotal : load bins.flatten + load weights ≤ total)
    (hbins : ∀ bin ∈ bins, load bin ≤ total / bins.length + heavy) :
    ∀ bin ∈ pourAll bins weights, load bin ≤ total / bins.length + heavy := by
  unfold pourAll
  induction weights generalizing bins with
  | nil => exact hbins
  | cons w rest ih =>
    obtain ⟨hw, hheavy⟩ := List.forall_mem_cons.mp hheavy
    rw [load_cons] at htotal
    have hlength : (pour bins w).length = bins.length := List.length_modify ..
    have hflatten : load (pour bins w).flatten = w + load bins.flatten :=
      load_flatten_giveTo (lightest_lt hne) w
    have hne' : pour bins w ≠ [] := by
      rw [← List.length_pos_iff, hlength]
      exact List.length_pos_iff.mpr hne
    rw [← hlength] at hbins ⊢
    refine ih hne' hheavy (by omega) fun bin hbin => ?_
    cases mem_giveTo hbin with
    | inl hmem => exact hbins bin hmem
    | inr hgiven =>
      obtain ⟨light, hlight, rfl⟩ := hgiven
      have hmean : load light ≤ total / (pour bins w).length := by
        rw [hlength, Nat.le_div_iff_mul_le (List.length_pos_iff.mpr hne)]
        exact Nat.le_trans (mul_load_lightest_le hlight) (by omega)
      rw [load_append, load_cons, load_nil]
      omega

/-! ## Sharing out -/

theorem load_le_of_mem_seeded (hheavy : ∀ w ∈ weights, w ≤ heavy)
    (hbin : bin ∈ seeded weights m) : load bin ≤ load weights / m + heavy := by
  refine load_le_of_mem_seed (nodup_chosen weights m) (fun w hw => hheavy w (mem_of_mem_pool hw))
    (fun bin hbin => ?_) (fun i hi bin hbin => ?_) bin hbin
  · obtain ⟨i, -, rfl⟩ := List.mem_map.mp hbin
    exact load_keptAt_le hheavy m i
  · rw [List.getElem?_map, List.getElem?_range (lt_of_mem_chosen hi)] at hbin
    cases hbin
    exact Nat.add_le_add_right (load_keptAt_le_of_mem_chosen hi) heavy

theorem load_le_of_mem_shareOut (hm : 0 < m) (hheavy : ∀ w ∈ weights, w ≤ heavy)
    (hbin : bin ∈ shareOut weights m) : load bin ≤ load weights / m + heavy := by
  have hlength := length_seeded weights m
  have hne : seeded weights m ≠ [] := by
    rw [← List.length_pos_iff, hlength]
    exact hm
  -- What the bins hold and what is given back are the weights.
  have hperm : (seeded weights m).flatten ++ leftover weights m |>.Perm weights := by
    have hall := perm_shareOut hm weights
    rw [shareOut_eq] at hall
    exact (perm_pourAll hne _).symm.trans hall
  have htotal : load (seeded weights m).flatten + load (leftover weights m) ≤ load weights := by
    rw [← load_append]
    exact Nat.le_of_eq (load_eq_of_perm hperm)
  rw [shareOut_eq] at hbin
  have hbound := load_le_of_mem_pourAll hne
    (fun w hw => hheavy w (hperm.mem_iff.mp (List.mem_append_right _ hw))) htotal
    (fun bin hbin => by rw [hlength]; exact load_le_of_mem_seeded hheavy hbin) bin hbin
  rwa [hlength] at hbound

/-! ## As many bins as weights -/

theorem length_le_length_flatten (h : ∀ bin ∈ bins, bin ≠ []) :
    bins.length ≤ bins.flatten.length := by
  induction bins with
  | nil => exact Nat.le_refl 0
  | cons bin bins ih =>
    obtain ⟨hbin, hbins⟩ := List.forall_mem_cons.mp h
    have hpos := List.length_pos_iff.mpr hbin
    have hrest := ih hbins
    rw [List.flatten_cons, List.length_append, List.length_cons]
    omega

/-- Lists that are not empty, and no fewer than their entries, have one entry each. -/
theorem length_eq_one_of_length_flatten_le (h : ∀ bin ∈ bins, bin ≠ [])
    (hle : bins.flatten.length ≤ bins.length) : ∀ bin ∈ bins, bin.length = 1 := by
  induction bins with
  | nil => exact nofun
  | cons bin bins ih =>
    obtain ⟨hbin, hbins⟩ := List.forall_mem_cons.mp h
    have hpos := List.length_pos_iff.mpr hbin
    have hrest := length_le_length_flatten hbins
    rw [List.flatten_cons, List.length_append, List.length_cons] at hle
    exact List.forall_mem_cons.mpr ⟨by omega, ih hbins (by omega)⟩

/-- With as many bins as weights, every bin holds one weight. -/
theorem load_le_of_mem_shareOut_length (hpos : 0 < weights.length)
    (hheavy : ∀ w ∈ weights, w ≤ heavy) (hbin : bin ∈ shareOut weights weights.length) :
    load bin ≤ heavy := by
  have hperm := perm_shareOut hpos weights
  have hone := length_eq_one_of_length_flatten_le
    (fun bin hbin => ne_nil_of_mem_shareOut (Nat.le_refl _) hbin)
    (Nat.le_of_eq (by rw [hperm.length_eq, length_shareOut])) bin hbin
  obtain ⟨w, rfl⟩ := List.length_eq_one_iff.mp hone
  exact hheavy w (hperm.mem_iff.mp (List.mem_flatten_of_mem hbin (List.mem_singleton_self w)))

end Balance

open Balance

/-- No bin exceeds the mean load of the bins, rounded down, by more than the heaviest
weight. -/
theorem load_le_of_mem_balance (weights : List Nat) {bins heavy : Nat} (hbins : 0 < bins)
    (hmax : weights.max? = some heavy) :
    (∀ bin ∈ balance weights bins, load bin ≤ load weights / bins + heavy)
      ∧ ∀ shared, balance? weights bins = some shared →
        ∀ bin ∈ shared, load bin ≤ load weights / bins + heavy := by
  obtain ⟨hmem, hheavy⟩ := List.max?_eq_some_iff.mp hmax
  have hbound : ∀ bin ∈ balance weights bins, load bin ≤ load weights / bins + heavy := by
    intro bin hbin
    cases List.mem_append.mp hbin with
    | inr hpadding =>
      rw [List.eq_of_mem_replicate hpadding]
      exact Nat.zero_le _
    | inl hshared =>
      cases Nat.le_total bins weights.length with
      | inl hle =>
        rw [Nat.min_eq_left hle] at hshared
        exact load_le_of_mem_shareOut hbins hheavy hshared
      | inr hle =>
        rw [Nat.min_eq_right hle] at hshared
        have hone := load_le_of_mem_shareOut_length (List.length_pos_of_mem hmem) hheavy hshared
        exact Nat.le_trans hone (Nat.le_add_left ..)
  refine ⟨hbound, fun shared hshared => ?_⟩
  rw [eq_balance_of_balance? hshared]
  exact hbound

/-- Three large weights and three small ones in three bins, none of which holds more than
nineteen. -/
theorem load_le_of_mem_balance_nineteen :
    0 < 3 ∧ [9, 9, 9, 1, 1, 1].max? = some 9
      ∧ ∀ bin ∈ balance [9, 9, 9, 1, 1, 1] 3, load bin ≤ 19 := by
  have hmax : [9, 9, 9, 1, 1, 1].max? = some 9 := by decide
  exact ⟨by decide, hmax, (load_le_of_mem_balance [9, 9, 9, 1, 1, 1] (by decide) hmax).1⟩

end GraphDependency
