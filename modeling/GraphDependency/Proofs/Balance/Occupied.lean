import GraphDependency.Balance.Bounded
import GraphDependency.Proofs.Balance.Guarded

set_option autoImplicit false

/-!
# No bin stays idle

Where there are as many weights as bins, no bin stays empty.  A bin that keeps a large
weight keeps that one, and a bin that is given one has it.  Any other bin has small
weights only, and removes them until what is left is at most the mean; since a single
small weight is, one of them stays.  Whatever is given to a bin later stays there.

Main statements: `shareOut_eq`, `ne_nil_of_mem_shareOut`, `countP_balance` and
`balance?_exact`.
-/

namespace GraphDependency

namespace Balance

variable {mean m i w : Nat} {accept : Nat → Bool} {b : Bin}
  {bins : List (List Nat)} {weights : List Nat}

/-! ## The stages of sharing out -/

/-- A bin after the large weights beyond the first one are taken out. -/
def binAt (weights : List Nat) (m i : Nat) : Bin :=
  Bin.ofWeights (load weights / m) (dealt weights m i)

/-- The large weights that are taken out, the heaviest first. -/
def pool (weights : List Nat) (m : Nat) : List Nat :=
  descending ((List.range m).flatMap fun i => (largeOf (load weights / m) (dealt weights m i)).tail)

/-- The bins that are given a large weight. -/
def chosen (weights : List Nat) (m : Nat) : List Nat :=
  (ranked (load weights / m) ((List.range m).map (binAt weights m))).take (pool weights m).length

/-- What a bin holds when weights begin to be given back. -/
def keptAt (weights : List Nat) (m i : Nat) : List Nat :=
  (binAt weights m i).kept
    ((binAt weights m i).strip (load weights / m) ((chosen weights m).contains i))

/-- What a bin gives up, one small weight after the other. -/
def removedAt (weights : List Nat) (m i : Nat) : List Nat :=
  (binAt weights m i).removed
    ((binAt weights m i).strip (load weights / m) ((chosen weights m).contains i))

/-- What is given to the lightest bins. -/
def leftover (weights : List Nat) (m : Nat) : List Nat :=
  (pool weights m).drop (chosen weights m).length
    ++ descending ((List.range m).flatMap (removedAt weights m))

/-- The bins before the lightest ones are filled up. -/
def seeded (weights : List Nat) (m : Nat) : List (List Nat) :=
  seed ((List.range m).map (keptAt weights m)) (chosen weights m) (pool weights m)

theorem zipIdx_map_range {α : Type} (f : Nat → α) (m : Nat) :
    ((List.range m).map f).zipIdx = (List.range m).map fun i => (f i, i) := by
  refine List.ext_getElem (by simp) fun i hi _ => ?_
  simp

/-- Weights are shared out in two steps. -/
theorem shareOut_eq (weights : List Nat) (m : Nat) :
    shareOut weights m = pourAll (seeded weights m) (leftover weights m) := by
  have hbins : ((List.range m).map (dealt weights m)).map (Bin.ofWeights (load weights / m))
      = (List.range m).map (binAt weights m) := List.map_map
  unfold shareOut
  simp only [hbins, zipIdx_map_range, List.map_map, List.flatMap_map]
  rfl

theorem length_seeded (weights : List Nat) (m : Nat) : (seeded weights m).length = m := by
  rw [seeded, length_seed, List.length_map, List.length_range]

/-! ## The bins that are chosen -/

theorem nodup_ranked (mean : Nat) (bins : List Bin) : (ranked mean bins).Nodup := by
  have hperm := (List.mergeSort_perm ((bins.zipIdx.filter fun e => e.1.large?.isNone).map
    fun e => (e.1.quality mean, e.2)) fun a b => b.1 ≤ a.1).map Prod.snd
  refine hperm.nodup_iff.mpr ?_
  rw [List.map_map]
  have hall : (bins.zipIdx.map Prod.snd).Nodup := by
    rw [List.zipIdx_map_snd]
    exact List.nodup_range'
  exact hall.sublist (List.filter_sublist.map Prod.snd)

theorem nodup_chosen (weights : List Nat) (m : Nat) : (chosen weights m).Nodup :=
  (nodup_ranked _ _).sublist (List.take_sublist ..)

theorem lt_of_mem_chosen (h : i ∈ chosen weights m) : i < m := by
  have hlt := lt_length_of_mem_ranked (List.mem_of_mem_take h)
  rwa [List.length_map, List.length_range] at hlt

theorem length_chosen_le (weights : List Nat) (m : Nat) :
    (chosen weights m).length ≤ (pool weights m).length := by
  rw [chosen, List.length_take]
  exact Nat.min_le_left ..

theorem large?_of_mem_ranked {bins : List Bin} (h : i ∈ ranked mean bins) :
    ∃ b, bins[i]? = some b ∧ b.large? = none := by
  obtain ⟨⟨quality, j⟩, he, rfl⟩ := List.mem_map.mp h
  rw [List.mem_mergeSort] at he
  obtain ⟨e, hmem, heq⟩ := List.mem_map.mp he
  cases heq
  obtain ⟨hin, hnone⟩ := List.mem_filter.mp hmem
  exact ⟨e.1, List.mem_zipIdx_iff_getElem?.mp hin, Option.isNone_iff_eq_none.mp hnone⟩

/-- A bin is given a large weight only if it has none. -/
theorem large?_of_mem_chosen (h : i ∈ chosen weights m) : (binAt weights m i).large? = none := by
  obtain ⟨b, hb, hnone⟩ := large?_of_mem_ranked (List.mem_of_mem_take h)
  rw [List.getElem?_map, List.getElem?_range (lt_of_mem_chosen h)] at hb
  cases hb
  exact hnone

/-! ## What stays in a bin -/

/-- Not all weights are removed if each of them is accepted alone. -/
theorem removals_lt_length (hne : weights ≠ []) (haccept : ∀ w ∈ weights, accept w = true) :
    removals accept (load weights) weights < weights.length := by
  induction weights with
  | nil => exact absurd rfl hne
  | cons w rest ih =>
    obtain ⟨hw, hrest⟩ := List.forall_mem_cons.mp haccept
    rw [removals, load_cons, List.length_cons]
    split
    · exact Nat.succ_pos _
    · rename_i hrefused
      cases rest with
      | nil => exact absurd hw hrefused
      | cons v rest =>
        rw [Nat.add_sub_cancel_left]
        exact Nat.succ_lt_succ (ih (List.cons_ne_nil v rest) hrest)

theorem load_reverse (weights : List Nat) : load weights.reverse = load weights :=
  load_eq_of_perm (List.reverse_perm weights)

/-- A bin without large weights keeps one if it is not to be given a large one. -/
theorem toMean_lt_length (hparted : b.IsParted mean) (hlarge : b.large? = none)
    (hne : b.small ≠ []) : b.toMean mean < b.small.length := by
  have haccept : ∀ w ∈ b.small.reverse, decide (w ≤ mean) = true := by
    intro w hw
    have hsmall := hparted.small w (List.mem_reverse.mp hw)
    simp only [isLarge, decide_eq_false_iff_not] at hsmall
    apply decide_eq_true
    omega
  have hlt := removals_lt_length (List.reverse_ne_nil_iff.mpr hne) haccept
  rw [load_reverse, List.length_reverse] at hlt
  rwa [Bin.toMean, hlarge, Option.getD_none, Nat.zero_add]

theorem kept_ne_nil (hparted : b.IsParted mean) (hne : b.contents ≠ []) :
    b.kept (b.strip mean false) ≠ [] := by
  cases hlarge : b.large? with
  | some w => simp [Bin.kept, hlarge]
  | none =>
    rw [Bin.contents, hlarge, Option.toList_none, List.append_nil] at hne
    have hlt := toMean_lt_length hparted hlarge hne
    have hstrip : b.strip mean false = b.toMean mean := by simp [Bin.strip, hlarge]
    rw [Bin.kept, hlarge, hstrip, Option.toList_none, List.append_nil, ← List.length_pos_iff,
      List.length_take]
    omega

theorem dealt_ne_nil (hm : m ≤ weights.length) (hi : i < m) : dealt weights m i ≠ [] := by
  have hlt : i < weights.length := Nat.lt_of_lt_of_le hi hm
  have hmem : (weights[i], i) ∈ weights.zipIdx.filter fun e => e.2 % m == i :=
    List.mem_filter.mpr ⟨List.mem_zipIdx_iff_getElem?.mpr (List.getElem?_eq_getElem hlt),
      beq_iff_eq.mpr (Nat.mod_eq_of_lt hi)⟩
  exact List.ne_nil_of_mem (List.mem_map_of_mem hmem)

/-- The smallest weight that is dealt to a bin is not taken out. -/
theorem contents_ne_nil (hne : weights ≠ []) : (Bin.ofWeights mean weights).contents ≠ [] := by
  intro hnil
  have hcontents : (Bin.ofWeights mean weights).small
      ++ (Bin.ofWeights mean weights).large?.toList = [] := hnil
  have hperm := perm_ofWeights mean weights
  rw [hcontents, List.nil_append] at hperm
  have hnone := (List.append_eq_nil_iff.mp hcontents).2
  have hlarge : largeOf mean weights = [] := by
    cases h : largeOf mean weights with
    | nil => rfl
    | cons w rest => simp [Bin.ofWeights, h] at hnone
  rw [hlarge] at hperm
  exact hne hperm.nil_eq.symm

theorem keptAt_ne_nil (hm : m ≤ weights.length) (hi : i < m) (hout : i ∉ chosen weights m) :
    keptAt weights m i ≠ [] := by
  have hseeded : (chosen weights m).contains i = false := by simpa using hout
  rw [keptAt, hseeded]
  exact kept_ne_nil (isParted_ofWeights ..) (contents_ne_nil (dealt_ne_nil hm hi))

/-! ## What is given stays -/

/-- Whichever bin is given a weight, every bin keeps what it has. -/
theorem exists_append_of_giveTo (i w : Nat) {j : Nat} {bin : List Nat} (h : bins[j]? = some bin) :
    ∃ more, (giveTo bins i w)[j]? = some (bin ++ more) ∧ (i = j → more = [w]) := by
  rw [giveTo, List.getElem?_modify, h, Option.map_eq_map, Option.map_some]
  split
  · exact ⟨[w], rfl, fun _ => rfl⟩
  · rename_i hne
    exact ⟨[], by rw [List.append_nil], fun heq => absurd heq hne⟩

theorem exists_append_of_pourAll (weights : List Nat) {bin : List Nat}
    (h : bins[i]? = some bin) : ∃ more, (pourAll bins weights)[i]? = some (bin ++ more) := by
  unfold pourAll
  induction weights generalizing bins bin with
  | nil => exact ⟨[], by rw [List.append_nil, List.foldl_nil, h]⟩
  | cons w rest ih =>
    obtain ⟨given, hgiven, -⟩ := exists_append_of_giveTo (lightest bins) w h
    obtain ⟨more, hmore⟩ := ih hgiven
    exact ⟨given ++ more, by rw [← List.append_assoc]; exact hmore⟩

/-- The chosen bins are given a weight each. -/
theorem exists_append_of_seed {chosen pool : List Nat} (hle : chosen.length ≤ pool.length)
    {bin : List Nat} (h : bins[i]? = some bin) :
    ∃ more, (seed bins chosen pool)[i]? = some (bin ++ more) ∧ (i ∈ chosen → more ≠ []) := by
  unfold seed
  induction chosen generalizing bins bin pool with
  | nil => exact ⟨[], by rw [List.append_nil]; exact h, fun hmem => absurd hmem List.not_mem_nil⟩
  | cons j chosen ih =>
    cases pool with
    | nil => exact absurd hle (by simp)
    | cons w pool =>
      obtain ⟨given, hgiven, hfirst⟩ := exists_append_of_giveTo j w h
      obtain ⟨more, hmore, hrest⟩ := ih (Nat.le_of_succ_le_succ hle) hgiven
      refine ⟨given ++ more, by rw [← List.append_assoc]; exact hmore, fun hmem hnil => ?_⟩
      obtain ⟨hgivenNil, hmoreNil⟩ := List.append_eq_nil_iff.mp hnil
      cases List.mem_cons.mp hmem with
      | inl heq => exact absurd (hfirst heq.symm) (by rw [hgivenNil]; exact nofun)
      | inr hin => exact hrest hin hmoreNil

/-- No bin stays empty if there are as many weights. -/
theorem ne_nil_of_mem_shareOut (hm : m ≤ weights.length) {bin : List Nat}
    (hbin : bin ∈ shareOut weights m) : bin ≠ [] := by
  obtain ⟨i, hi⟩ := List.mem_iff_getElem?.mp hbin
  have hlt : i < m := by
    have := (List.getElem?_eq_some_iff.mp hi).1
    rwa [length_shareOut] at this
  have hkept : ((List.range m).map (keptAt weights m))[i]? = some (keptAt weights m i) := by
    rw [List.getElem?_map, List.getElem?_range hlt, Option.map_some]
  obtain ⟨large, hlarge, hchosen⟩ :=
    exists_append_of_seed (length_chosen_le weights m) hkept
  obtain ⟨more, hmore⟩ := exists_append_of_pourAll (leftover weights m) hlarge
  rw [shareOut_eq, seeded, hmore] at hi
  cases hi
  intro hnil
  obtain ⟨hfront, -⟩ := List.append_eq_nil_iff.mp hnil
  obtain ⟨hkeptNil, hlargeNil⟩ := List.append_eq_nil_iff.mp hfront
  exact keptAt_ne_nil hm hlt (fun hin => hchosen hin hlargeNil) hkeptNil

end Balance

open Balance

/-- As many bins are in use as there can be. -/
theorem countP_balance (weights : List Nat) (bins : Nat) :
    (balance weights bins).countP (fun bin => !bin.isEmpty) = min bins weights.length := by
  have hshared : (shareOut weights (min bins weights.length)).countP (fun bin => !bin.isEmpty)
      = min bins weights.length := by
    rw [List.countP_eq_length.mpr, length_shareOut]
    intro bin hbin
    simpa using ne_nil_of_mem_shareOut (Nat.min_le_right ..) hbin
  have hpadding : (List.replicate (bins - min bins weights.length) ([] : List Nat)).countP
      (fun bin => !bin.isEmpty) = 0 := by
    simp [List.countP_replicate]
  rw [balance, List.countP_append, hshared, hpadding, Nat.add_zero]

theorem eq_balance_of_balance? {weights : List Nat} {bins : Nat} {shared : List (List Nat)}
    (h : balance? weights bins = some shared) : shared = balance weights bins := by
  unfold balance? at h
  split at h
  · rename_i hzero
    cases h
    rw [hzero, List.eq_nil_of_length_eq_zero (length_balance weights 0)]
  · split at h
    · exact (Option.some.inj h).symm
    · cases h

/-- Where all sums and doubles stay in bounds, weights are shared out exactly if there is
room for the bins.  There are as many bins as asked for, together they hold the weights,
each as often as it was given, and as many of them are in use as there can be.  No
position, range or difference on the way is out of range, whether there is room or not. -/
theorem balance?_exact (weights : List Nat) {bins : Nat} (hbins : 0 < bins)
    (hbounds : inBounds weights (min bins weights.length) = true) :
    (Capacity.fits Capacity.listBytes bins = true →
        balance? weights bins = some (balance weights bins))
      ∧ (Capacity.fits Capacity.listBytes bins = false → balance? weights bins = none)
      ∧ Guarded.balance weights bins = some (balance weights bins)
      ∧ (balance weights bins).length = bins
      ∧ (balance weights bins).flatten.Perm weights
      ∧ (balance weights bins).countP (fun bin => !bin.isEmpty) = min bins weights.length := by
  have hanswer : balance? weights bins
      = if Capacity.fits Capacity.listBytes bins then some (balance weights bins) else none := by
    rw [balance?, if_neg (Nat.ne_of_gt hbins), hbounds, Bool.true_and]
  refine ⟨fun hfits => ?_, fun hfits => ?_, Guarded.balance_eq_some weights bins,
    length_balance weights bins, perm_balance weights hbins, countP_balance weights bins⟩
  · rw [hanswer, if_pos hfits]
  · rw [hanswer, hfits, if_neg Bool.false_ne_true]

/-- Four of five bins are in use for four weights. -/
theorem balance?_exact_five :
    0 < 5 ∧ inBounds [3, 0, 3, 1] (min 5 [3, 0, 3, 1].length) = true
      ∧ Capacity.fits Capacity.listBytes 5 = true
      ∧ balance? [3, 0, 3, 1] 5 = some (balance [3, 0, 3, 1] 5)
      ∧ (balance [3, 0, 3, 1] 5).countP (fun bin => !bin.isEmpty) = 4 := by
  have hbounds : inBounds [3, 0, 3, 1] (min 5 [3, 0, 3, 1].length) = true :=
    inBounds_of_load _ (by decide)
  have hfits : Capacity.fits Capacity.listBytes 5 = true := by decide
  obtain ⟨hroom, -, -, -, -, hcount⟩ := balance?_exact [3, 0, 3, 1] (Nat.succ_pos 4) hbounds
  exact ⟨by decide, hbounds, hfits, hroom hfits, hcount⟩

/-- Two weights are not shared out between so many bins that there is no room for them. -/
theorem balance?_crowded :
    let bins := 18446744073709551615
    0 < bins ∧ inBounds [5, 7] (min bins [5, 7].length) = true
      ∧ ¬ ∃ shared, balance? [5, 7] bins = some shared ∧ shared.length = bins := by
  intro bins
  have hfits : Capacity.fits Capacity.listBytes bins = false := by decide
  have hnone : balance? [5, 7] bins = none := by
    rw [balance?, if_neg (by decide), hfits, Bool.and_false, if_neg Bool.false_ne_true]
  refine ⟨by decide, inBounds_of_load _ (by decide), ?_⟩
  rintro ⟨shared, h, -⟩
  rw [hnone] at h
  cases h

end GraphDependency
