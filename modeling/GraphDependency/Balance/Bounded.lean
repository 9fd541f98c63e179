import GraphDependency.Balance
import GraphDependency.Capacity
import GraphDependency.Text.Numeral

set_option autoImplicit false

/-!
# Balancing in 64 binary digits

Weights, their sum and the doubles that are compared with the mean load are numbers
of 64 binary digits.  Where one of them has no such number, the weights are not
shared out.

To find the first large weight of a bin, its weights are looked at in the way of a
search by halves.  So the heaviest one of three or more is not looked at, and not
doubled, if there is another large one before it.

Main statement: `balance?_eq_some`, weights are shared out if twice their sum is a
number of 64 binary digits and there is room for the bins.
-/

namespace GraphDependency

namespace Balance

/-- The heaviest of the weights, zero if there is none. -/
def heaviest (weights : List Nat) : Nat := weights.foldr max 0

/-- The heaviest weight of a bin is looked at. -/
def seesHeaviest (mean : Nat) (weights : List Nat) : Bool :=
  weights.length ≤ 2 || (largeOf mean weights).length ≤ 1

/-- What is doubled in a bin: of single weights the heaviest one, and the load of
the small ones. -/
def doubled (mean : Nat) (weights : List Nat) : List Nat :=
  let small := (Bin.ofWeights mean weights).small
  (if seesHeaviest mean weights then [heaviest weights] else [])
    ++ (if small.isEmpty then [] else [load small])

/-- The sum and all doubles are numbers of 64 binary digits. -/
def inBounds (weights : List Nat) (m : Nat) : Bool :=
  load weights ≤ Text.max64
    && (List.range m).all fun i =>
      (doubled (load weights / m) (dealt weights m i)).all fun n => 2 * n ≤ Text.max64

/-! ## Doubles are at most twice the sum -/

theorem load_le_of_sublist {xs ys : List Nat} (h : xs.Sublist ys) : load xs ≤ load ys := by
  induction h with
  | slnil => exact Nat.le_refl _
  | cons w _ ih => rw [load_cons]; omega
  | cons_cons w _ ih => rw [load_cons, load_cons]; omega

theorem load_eq_of_perm {xs ys : List Nat} (h : xs.Perm ys) : load xs = load ys := by
  induction h with
  | nil => rfl
  | cons w _ ih => rw [load_cons, load_cons, ih]
  | swap v w rest => simp only [load_cons]; omega
  | trans _ _ ih₁ ih₂ => exact ih₁.trans ih₂

theorem heaviest_le_load (weights : List Nat) : heaviest weights ≤ load weights := by
  induction weights with
  | nil => exact Nat.le_refl _
  | cons w rest ih =>
    rw [load_cons, heaviest, List.foldr_cons]
    rw [heaviest] at ih
    omega

theorem dealt_sublist (weights : List Nat) (m i : Nat) :
    (dealt weights m i).Sublist weights := by
  have h := (List.filter_sublist (p := fun e : Nat × Nat => e.2 % m == i)
    (l := weights.zipIdx)).map Prod.fst
  rwa [List.zipIdx_map_fst] at h

theorem load_small_le (mean : Nat) (weights : List Nat) :
    load (Bin.ofWeights mean weights).small ≤ load weights := by
  rw [Bin.ofWeights, ascending, load_eq_of_perm (List.mergeSort_perm ..)]
  exact load_le_of_sublist List.filter_sublist

/-- What is doubled is at most the load of the bin. -/
theorem le_load_of_mem_doubled {mean n : Nat} {weights : List Nat}
    (h : n ∈ doubled mean weights) : n ≤ load weights := by
  rw [doubled, List.mem_append] at h
  rcases h with h | h
  · split at h
    · rw [List.mem_singleton.mp h]
      exact heaviest_le_load weights
    · simp at h
  · split at h
    · simp at h
    · rw [List.mem_singleton.mp h]
      exact load_small_le mean weights

/-- Nothing gets out of bounds if twice the sum does not. -/
theorem inBounds_of_load {weights : List Nat} (m : Nat)
    (h : 2 * load weights ≤ Text.max64) : inBounds weights m = true := by
  simp only [inBounds, Bool.and_eq_true, decide_eq_true_eq, List.all_eq_true]
  refine ⟨by omega, fun i _ n hn => ?_⟩
  have h₁ := le_load_of_mem_doubled hn
  have h₂ := load_le_of_sublist (dealt_sublist weights m i)
  omega

end Balance

/-- Shares weights out between a number of bins, if all numbers stay in bounds and
there is room for the bins. -/
def balance? (weights : List Nat) (bins : Nat) : Option (List (List Nat)) :=
  if bins = 0 then some []
  else if Balance.inBounds weights (min bins weights.length)
      && Capacity.fits Capacity.listBytes bins then
    some (balance weights bins)
  else none

/-- Weights are shared out if twice their sum is in bounds and there is room for the
bins. -/
theorem balance?_eq_some {weights : List Nat} {bins : Nat}
    (h : 2 * Balance.load weights ≤ Text.max64)
    (hfits : Capacity.fits Capacity.listBytes bins = true) :
    balance? weights bins = some (balance weights bins) := by
  rw [balance?]
  split
  · rename_i hzero
    rw [hzero, List.eq_nil_of_length_eq_zero (length_balance weights 0)]
  · rw [if_pos (by rw [Balance.inBounds_of_load _ h, hfits, Bool.and_self])]

end GraphDependency
