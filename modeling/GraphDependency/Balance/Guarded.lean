import GraphDependency.Balance

set_option autoImplicit false

/-!
# Balancing with guarded access

The same sharing out with one ascending list for every bin, its large weight behind
the small ones.  What a bin gives up is planned before anything is given up, by the
number of weights, and cut out by their positions afterwards.

Every position in a list, every range of a list and every difference is guarded:
where a list has no such position or range, or the difference would be negative,
nothing is shared out.  So is a division by zero.

Main statements: `cut_append` and `cut_back`, what is cut out where two lists meet.
-/

namespace GraphDependency.Balance.Guarded

/-- The difference of two numbers, unless it is negative. -/
def minus (a b : Nat) : Option Nat := if b ≤ a then some (a - b) else none

/-- The quotient of two numbers, unless the second one is zero. -/
def quotient (a b : Nat) : Option Nat := if b = 0 then none else some (a / b)

/-- The remainder of a division, unless it is by zero. -/
def remainder (a b : Nat) : Option Nat := if b = 0 then none else some (a % b)

/-- The front of a list up to a position, if the list is that long. -/
def front {α : Type} (xs : List α) (stop : Nat) : Option (List α) :=
  if stop ≤ xs.length then some (xs.take stop) else none

/-- Cuts a range out of a list, if the list has it: the range and what is left. -/
def cut {α : Type} (xs : List α) (start stop : Nat) : Option (List α × List α) :=
  if start ≤ stop ∧ stop ≤ xs.length then
    some ((xs.take stop).drop start, xs.take start ++ xs.drop stop)
  else none

/-- The last entries in front of another list. -/
theorem cut_append {α : Type} (xs ys : List α) (count : Nat) :
    cut (xs ++ ys) (xs.length - count) xs.length
      = some (xs.drop (xs.length - count), xs.take (xs.length - count) ++ ys) := by
  rw [cut, if_pos ⟨Nat.sub_le .., by rw [List.length_append]; exact Nat.le_add_right ..⟩,
    List.take_left, List.drop_left, List.take_append_of_le_length (Nat.sub_le ..)]

/-- Everything behind a position. -/
theorem cut_back {α : Type} (xs ys : List α) :
    cut (xs ++ ys) xs.length (xs ++ ys).length = some (ys, xs) := by
  rw [cut, if_pos ⟨by rw [List.length_append]; exact Nat.le_add_right .., Nat.le_refl _⟩,
    List.take_length, List.drop_length, List.drop_left, List.take_left, List.append_nil]

/-- Gives a weight to the bin at a position, if there is one. -/
def give (bins : List (List Nat)) (i w : Nat) : Option (List (List Nat)) :=
  if i < bins.length then some (giveTo bins i w) else none

/-- Deals weights to `m` bins in turn. -/
def deal (weights : List Nat) (m : Nat) : Option (List (List Nat)) :=
  weights.zipIdx.foldlM (fun bins e => do give bins (← remainder e.2 m) e.1)
    (List.replicate m [])

/-- Sorts the weights of a bin and takes out the large ones but the smallest of them:
what is taken out and what is left. -/
def extract (mean : Nat) (weights : List Nat) : Option (List Nat × List Nat) :=
  let bin := ascending weights
  let first := (bin.takeWhile fun w => !isLarge mean w).length
  if first + 1 < bin.length then cut bin (first + 1) bin.length else some ([], bin)

/-- Takes the large weights out of all bins: the bins and what is taken out, the
heaviest first. -/
def extractAll (mean : Nat) (hands : List (List Nat)) :
    Option (List (List Nat) × List Nat) := do
  let parts ← hands.mapM (extract mean)
  return (parts.map Prod.snd, descending (parts.flatMap Prod.fst))

/-- The number of weights to remove, from the front of a list, until what is left of
the load is accepted. -/
def removals (accept : Nat → Bool) : Nat → List Nat → Option Nat
  | _, [] => some 0
  | load, w :: rest =>
    if accept load then some 0
    else do
      let left ← minus load w
      let count ← removals accept left rest
      return count + 1

/-- What is planned for a bin. -/
structure Plan where
  /-- The small weights to remove until the others fill at most half the mean. -/
  toHalf : Nat
  /-- The small weights to remove until the bin holds at most the mean. -/
  toMean : Nat
  hasLarge : Bool
  deriving DecidableEq, Repr, Inhabited

/-- How many more weights have to go for a large one to fit. -/
def Plan.quality (p : Plan) : Int := (p.toHalf : Int) - (p.toMean : Int)

/-- The plan for a bin whose last weight is the only one that may be large. -/
def plan (mean : Nat) (bin : List Nat) : Option Plan := do
  let hasLarge := bin.getLast?.any (isLarge mean)
  let last ← minus bin.length (if hasLarge then 1 else 0)
  let small ← front bin last
  let large ← if hasLarge then bin[last]? else some 0
  let toHalf ← removals (fun rest => 2 * rest ≤ mean) (load small) small.reverse
  let toMean ← removals (fun rest => rest ≤ mean) (large + load small) small.reverse
  return ⟨toHalf, toMean, hasLarge⟩

/-- The bins without a large weight among the first `m`, those of the highest quality
first; equal ones in order. -/
def rank (plans : List Plan) (m : Nat) : Option (List Nat) := do
  let placed ← (List.range m).mapM fun i => (plans[i]?).map fun p => (p, i)
  return (((placed.filter fun e => !e.1.hasLarge).map fun e =>
    (e.1.quality, e.2)).mergeSort fun a b => b.1 ≤ a.1).map Prod.snd

/-- Cuts out of a bin what it gives up: what goes and what stays. -/
def strip (p : Plan) (seeded : Bool) (bin : List Nat) : Option (List Nat × List Nat) := do
  let count :=
    if p.hasLarge then max p.toHalf p.toMean else if seeded then p.toHalf else p.toMean
  let stop ← minus bin.length (if p.hasLarge then 1 else 0)
  let start ← minus stop count
  cut bin start stop

/-- Cuts out of every bin what it gives up: what stays in the bins, and what goes, the
heaviest first. -/
def stripAll (plans : List Plan) (chosen : List Nat) (bins : List (List Nat)) :
    Option (List (List Nat) × List Nat) := do
  let parts ← bins.zipIdx.mapM fun e =>
    (plans[e.2]?).bind fun p => strip p (chosen.contains e.2) e.1
  return (parts.map Prod.snd, descending (parts.flatMap Prod.fst))

/-- Gives one large weight to each of the chosen bins. -/
def seed (bins : List (List Nat)) (chosen pool : List Nat) : Option (List (List Nat)) :=
  (chosen.zip pool).foldlM (fun bins e => give bins e.1 e.2) bins

/-- Gives weights to the lightest bins, one after the other. -/
def pourAll (bins : List (List Nat)) (weights : List Nat) : Option (List (List Nat)) :=
  weights.foldlM (fun bins w => give bins (lightest bins) w) bins

/-- Shares weights out between `m` bins. -/
def shareOut (weights : List Nat) (m : Nat) : Option (List (List Nat)) := do
  let hands ← deal weights m
  let mean ← quotient (load weights) m
  let (bins, pool) ← extractAll mean hands
  let plans ← bins.mapM (plan mean)
  let order ← rank plans m
  let chosen ← front order (min pool.length order.length)
  let (kept, removed) ← stripAll plans chosen bins
  let seeded ← seed kept chosen pool
  pourAll seeded (pool.drop chosen.length ++ removed)

/-- Shares weights out between a number of bins.  Bins beyond the number of weights
stay empty. -/
def balance (weights : List Nat) (bins : Nat) : Option (List (List Nat)) :=
  if bins = 0 then some []
  else if weights.isEmpty then some (List.replicate bins [])
  else do
    let shared ← shareOut weights (min bins weights.length)
    let more ← minus bins (min bins weights.length)
    return shared ++ List.replicate more []

end GraphDependency.Balance.Guarded
