import GraphDependency.Balance
import GraphDependency.Validation.Distributed
import Mathlib.Data.List.Count
import Mathlib.Data.List.Perm.Basic

set_option autoImplicit false

/-!
# Queues by weight are a stable sort

All messages that wait in queues stand in ascending order of their weights, those of a weight in
the order in which they were filed.  That is the order of a stable sort, so the queues of
several workers that are put together are the sort of what the workers have filed, one worker
after the other.  Whoever takes messages out by their weights, as often as there are messages of
a weight, takes all of them.

Main statements: `filter_listed`, `listed_eq_mergeSort` and `exists_picked`.
-/

namespace GraphDependency.Validation

variable {weight : Nat} {msg : Message}

/-! ## Sorted lists -/

/-- Two lists in ascending order of their weights are the same if they are for each weight. -/
theorem eq_of_filter_eq {α : Type} {xs ys : List (Nat × α)}
    (hxs : xs.Pairwise fun a b => a.1 ≤ b.1) (hys : ys.Pairwise fun a b => a.1 ≤ b.1)
    (h : ∀ weight, (xs.filter fun e => e.1 = weight) = ys.filter fun e => e.1 = weight) :
    xs = ys := by
  induction xs generalizing ys with
  | nil =>
    cases ys with
    | nil => rfl
    | cons y ys => simpa using h y.1
  | cons x xs ih =>
    cases ys with
    | nil => simpa using h x.1
    | cons y ys =>
      obtain ⟨hx, hxs⟩ := List.pairwise_cons.mp hxs
      obtain ⟨hy, hys⟩ := List.pairwise_cons.mp hys
      -- The first weights are the least ones of both lists.
      have hmem : ∀ e, e ∈ x :: xs ↔ e ∈ y :: ys := fun e => by
        have he := congrArg (e ∈ ·) (h e.1)
        simpa only [List.mem_filter, decide_true, and_true, eq_iff_iff] using he
      have hle : x.1 ≤ y.1 := by
        rcases List.mem_cons.mp ((hmem y).mpr List.mem_cons_self) with rfl | hmem
        · exact Nat.le_refl _
        · exact hx y hmem
      have hge : y.1 ≤ x.1 := by
        rcases List.mem_cons.mp ((hmem x).mp List.mem_cons_self) with rfl | hmem
        · exact Nat.le_refl _
        · exact hy x hmem
      have hweight : y.1 = x.1 := Nat.le_antisymm hge hle
      have hhead := h x.1
      simp only [List.filter_cons, hweight, decide_true, if_true] at hhead
      obtain ⟨rfl, -⟩ := List.cons.inj hhead
      refine congrArg (List.cons x) (ih hxs (by assumption) fun weight => ?_)
      have htail := h weight
      rw [List.filter_cons, List.filter_cons] at htail
      split at htail
      · exact (List.cons.inj htail).2
      · exact htail

theorem weight_le_trans {α : Type} (a b c : Nat × α) (hab : decide (a.1 ≤ b.1) = true)
    (hbc : decide (b.1 ≤ c.1) = true) : decide (a.1 ≤ c.1) = true :=
  decide_eq_true (Nat.le_trans (of_decide_eq_true hab) (of_decide_eq_true hbc))

theorem weight_le_total {α : Type} (a b : Nat × α) :
    (decide (a.1 ≤ b.1) || decide (b.1 ≤ a.1)) = true := by
  rw [Bool.or_eq_true, decide_eq_true_eq, decide_eq_true_eq]
  exact Nat.le_total a.1 b.1

theorem pairwise_mergeSort_weight {α : Type} (xs : List (Nat × α)) :
    (xs.mergeSort fun a b => a.1 ≤ b.1).Pairwise fun a b => a.1 ≤ b.1 :=
  (List.pairwise_mergeSort weight_le_trans weight_le_total xs).imp of_decide_eq_true

/-- A stable sort by weight keeps the order of equal weights. -/
theorem filter_mergeSort {α : Type} (xs : List (Nat × α)) (weight : Nat) :
    ((xs.mergeSort fun a b => a.1 ≤ b.1).filter fun e => e.1 = weight)
      = xs.filter fun e => e.1 = weight := by
  have hperm := (List.mergeSort_perm xs fun a b => decide (a.1 ≤ b.1)).filter
    fun e => decide (e.1 = weight)
  have hsub : (xs.filter fun e => decide (e.1 = weight)).Sublist
      (xs.mergeSort fun a b => a.1 ≤ b.1) := by
    refine List.sublist_mergeSort weight_le_trans weight_le_total ?_ List.filter_sublist
    refine List.pairwise_filter.mpr (List.pairwise_of_forall fun a b ha hb => ?_)
    rw [decide_eq_true_eq] at ha hb ⊢
    exact Nat.le_of_eq (ha.trans hb.symm)
  have hfilter := hsub.filter fun e => decide (e.1 = weight)
  simp only [List.filter_filter, Bool.and_self] at hfilter
  exact (hfilter.eq_of_length hperm.length_eq.symm).symm

namespace Queues

/-! ## All messages of the queues -/

/-- The messages of a weight, in the order in which they were filed. -/
theorem filter_listed (q : Queues) (weight : Nat) :
    (q.listed.filter fun e => e.1 = weight) = (q.under weight).map fun msg => (weight, msg) := by
  rw [listed, under_eq_flatMap, List.filter_flatMap, List.map_flatMap]
  refine List.flatMap_congr fun e _ => ?_
  rw [List.filter_map]
  by_cases h : e.1 = weight
  · have hall : e.2.filter ((fun e => decide (e.1 = weight)) ∘ fun msg => (e.1, msg)) = e.2 :=
      List.filter_eq_self.mpr fun _ _ => decide_eq_true h
    rw [hall, if_pos h, h]
  · have hnone : e.2.filter ((fun e => decide (e.1 = weight)) ∘ fun msg => (e.1, msg)) = [] :=
      List.filter_eq_nil_iff.mpr fun _ _ => by simp [h]
    rw [hnone, if_neg h]
    rfl

theorem mem_listed_iff {q : Queues} : (weight, msg) ∈ q.listed ↔ msg ∈ q.under weight := by
  have h := congrArg ((weight, msg) ∈ ·) (q.filter_listed weight)
  simpa [List.mem_filter] using h

theorem count_listed (q : Queues) (weight : Nat) (msg : Message) :
    q.listed.count (weight, msg) = (q.under weight).count msg := by
  have hfilter : (q.listed.filter fun e => e.1 = weight).count (weight, msg)
      = q.listed.count (weight, msg) := List.count_filter (decide_eq_true rfl)
  rw [← hfilter, filter_listed]
  exact List.count_map_of_injective _ _ (fun _ _ h => (Prod.mk.inj h).2) msg

theorem pairwise_listed (q : Queues) : q.listed.Pairwise fun a b => a.1 ≤ b.1 := by
  obtain ⟨es, ascending⟩ := q
  rw [listed]
  refine List.pairwise_flatMap.mpr ⟨fun e _ => ?_, ?_⟩
  · exact List.pairwise_map.mpr (List.pairwise_of_forall fun _ _ => Nat.le_refl _)
  · refine (List.pairwise_map.mp ascending).imp fun {e e'} hlt a ha b hb => ?_
    obtain ⟨_, -, rfl⟩ := List.mem_map.mp ha
    obtain ⟨_, -, rfl⟩ := List.mem_map.mp hb
    exact Nat.le_of_lt hlt

/-- Queues that hold for each weight what a list has, in order, are the stable sort of it. -/
theorem listed_eq_mergeSort {q : Queues} {xs : List (Nat × Message)}
    (h : ∀ weight, q.under weight = (xs.filter fun e => e.1 = weight).map Prod.snd) :
    q.listed = xs.mergeSort fun a b => a.1 ≤ b.1 := by
  refine eq_of_filter_eq q.pairwise_listed (pairwise_mergeSort_weight xs) fun weight => ?_
  have hsame : ∀ e ∈ xs.filter (fun e => e.1 = weight),
      ((fun msg => (weight, msg)) ∘ Prod.snd) e = id e := fun e he =>
    Prod.ext (of_decide_eq_true (List.mem_filter.mp he).2).symm rfl
  rw [filter_listed, h, filter_mergeSort, List.map_map, List.map_congr_left hsame, List.map_id]

end Queues

/-! ## The way through the queues -/

section Picked

variable {bin more : List Nat} {bins : List (List Nat)} {q : Queues} {w : Nat}

/-- A weight that stands in the queues takes one of its messages out. -/
theorem pop?_of_mem (h : w ∈ q.listed.map Prod.fst) :
    ∃ msg q', q.pop? w = some (msg, q') ∧ q.listed.Perm ((w, msg) :: q'.listed) := by
  obtain ⟨⟨_, first⟩, hfirst, rfl⟩ := List.mem_map.mp h
  have hunder := Queues.mem_listed_iff.mp hfirst
  rename_i w
  cases hmsgs : q.under w with
  | nil => simp [hmsgs] at hunder
  | cons msg msgs =>
    have hpop : q.pop? w = some (msg, q.set w msgs) := by rw [Queues.pop?, hmsgs]
    refine ⟨msg, _, hpop, List.perm_iff_count.mpr fun e => ?_⟩
    obtain ⟨other, msg'⟩ := e
    rw [List.count_cons, Queues.count_listed, Queues.count_listed, Queues.under_pop? hpop]
    by_cases hw : w = other
    · rw [if_pos hw, List.count_cons]
      simp [hw]
    · rw [if_neg hw]
      simp [hw]

/-- A bin whose weights stand in the queues takes out a message of each of them. -/
theorem exists_picked_bin (h : (bin ++ more).Perm (q.listed.map Prod.fst)) :
    ∃ picked, picked.map Prod.fst = bin ∧ picked.map Prod.snd = (fillBin bin q).1
      ∧ (picked ++ (fillBin bin q).2.listed).Perm q.listed := by
  induction bin generalizing q with
  | nil => exact ⟨[], rfl, rfl, List.Perm.refl _⟩
  | cons w bin ih =>
    obtain ⟨msg, q', hpop, hperm⟩ := pop?_of_mem (h.subset List.mem_cons_self)
    have hrest : (bin ++ more).Perm (q'.listed.map Prod.fst) :=
      List.Perm.cons_inv (h.trans (hperm.map Prod.fst))
    obtain ⟨picked, hweights, hmessages, hpicked⟩ := ih hrest
    rw [fillBin, hpop]
    refine ⟨(w, msg) :: picked, ?_, ?_, (hpicked.cons (w, msg)).trans hperm.symm⟩
    · rw [List.map_cons, hweights]
    · rw [List.map_cons, hmessages]

/-- Bins that together hold the weights of the queues take out all of the messages, a message
of its weight for each of their weights. -/
theorem exists_picked (h : bins.flatten.Perm (q.listed.map Prod.fst)) :
    ∃ picked : List (List (Nat × Message)), picked.map (List.map Prod.fst) = bins
      ∧ picked.map (List.map Prod.snd) = fillBins bins q ∧ picked.flatten.Perm q.listed := by
  induction bins generalizing q with
  | nil =>
    have hnil : q.listed = [] := List.map_eq_nil_iff.mp (List.nil_perm.mp h)
    rw [hnil]
    exact ⟨[], rfl, rfl, List.Perm.refl _⟩
  | cons bin bins ih =>
    obtain ⟨first, hweights, hmessages, hfirst⟩ := exists_picked_bin h
    -- The weights that are left are those of the messages that are left.
    have hrest : bins.flatten.Perm ((fillBin bin q).2.listed.map Prod.fst) := by
      have hall := h.trans (hfirst.map Prod.fst).symm
      rw [List.flatten_cons, List.map_append, hweights] at hall
      exact (List.perm_append_left_iff bin).mp hall
    obtain ⟨picked, hbins, hlists, hpicked⟩ := ih hrest
    refine ⟨first :: picked, ?_, ?_, (hpicked.append_left first).trans hfirst⟩
    · rw [List.map_cons, hweights, hbins]
    · rw [List.map_cons, hmessages, hlists, fillBins]

end Picked

end GraphDependency.Validation
