import GraphDependency.Selection

set_option autoImplicit false

/-!
# Balancing loads

Weights are shared out between bins so that the sums of the bins are close to
each other.  The weights are dealt out in turn; a weight above half the mean load
of a bin is large, and a bin keeps at most one large weight.  Bins that hold too
much give up their largest small weights.  What was taken away is given back,
large weights first: one to each of the bins that can take one at the least cost,
and everything else, heaviest first, to the lightest bin.

Main statements: `length_balance`, there are as many bins as asked for, and
`length_pourAll`, pouring changes no number of bins.
-/

namespace GraphDependency

namespace Balance

/-- The load of a bin: the sum of its weights. -/
def load (weights : List Nat) : Nat := weights.foldr (· + ·) 0

@[simp] theorem load_nil : load [] = 0 := rfl

@[simp] theorem load_cons (w : Nat) (rest : List Nat) : load (w :: rest) = w + load rest := rfl

@[simp] theorem load_append (xs ys : List Nat) : load (xs ++ ys) = load xs + load ys := by
  induction xs with
  | nil => simp
  | cons w rest ih => simp [ih, Nat.add_assoc]

/-- A bin before weights are given back: its small weights, ascending, and the
large weight that it keeps. -/
structure Bin where
  small : List Nat
  large? : Option Nat
  deriving DecidableEq, Repr, Inhabited

/-- The weights at the positions of one bin, when they are dealt to `m` bins in
turn. -/
def dealt (weights : List Nat) (m i : Nat) : List Nat :=
  (weights.zipIdx.filter fun e => e.2 % m == i).map Prod.fst

/-- Ascending order. -/
def ascending (weights : List Nat) : List Nat := weights.mergeSort fun a b => a ≤ b

/-- Descending order. -/
def descending (weights : List Nat) : List Nat := weights.mergeSort fun a b => b ≤ a

/-- A weight is large if it exceeds half the mean load. -/
def isLarge (mean w : Nat) : Bool := mean < 2 * w

/-- The large weights of a bin, ascending. -/
def largeOf (mean : Nat) (weights : List Nat) : List Nat :=
  ascending (weights.filter (isLarge mean))

/-- The bin that keeps the smallest of its large weights. -/
def Bin.ofWeights (mean : Nat) (weights : List Nat) : Bin :=
  ⟨ascending (weights.filter fun w => !isLarge mean w), (largeOf mean weights).head?⟩

/-- The number of weights to remove, from the front of a list, until what is left
of the load is accepted. -/
def removals (accept : Nat → Bool) : Nat → List Nat → Nat
  | _, [] => 0
  | load, w :: rest => if accept load then 0 else removals accept (load - w) rest + 1

/-- The small weights to remove until the others fill at most half the mean. -/
def Bin.toHalf (mean : Nat) (b : Bin) : Nat :=
  removals (fun rest => 2 * rest ≤ mean) (load b.small) b.small.reverse

/-- The small weights to remove until the bin holds at most the mean. -/
def Bin.toMean (mean : Nat) (b : Bin) : Nat :=
  removals (fun rest => rest ≤ mean) (b.large?.getD 0 + load b.small) b.small.reverse

/-- How many more weights have to go for a large one to fit. -/
def Bin.quality (mean : Nat) (b : Bin) : Int := (b.toHalf mean : Int) - (b.toMean mean : Int)

/-- The bins without a large weight, those of the highest quality first; equal
ones in order. -/
def ranked (mean : Nat) (bins : List Bin) : List Nat :=
  (((bins.zipIdx.filter fun e => e.1.large?.isNone).map fun e =>
    (e.1.quality mean, e.2)).mergeSort fun a b => b.1 ≤ a.1).map Prod.snd

/-- The number of small weights that a bin gives up; `seeded` says that it will
be given a large one. -/
def Bin.strip (mean : Nat) (seeded : Bool) (b : Bin) : Nat :=
  if b.large?.isSome then max (b.toHalf mean) (b.toMean mean)
  else if seeded then b.toHalf mean
  else b.toMean mean

/-- The weights that stay. -/
def Bin.kept (b : Bin) (strip : Nat) : List Nat :=
  b.small.take (b.small.length - strip) ++ b.large?.toList

/-- The weights that go. -/
def Bin.removed (b : Bin) (strip : Nat) : List Nat :=
  b.small.drop (b.small.length - strip)

/-- The first of the lightest bins. -/
def lightest (bins : List (List Nat)) : Nat :=
  ((firstBest? (fun a b => a.1 < b.1)
    ((bins.map load).zipIdx)).map Prod.snd).getD 0

/-- Gives a weight to the bin at a position. -/
def giveTo (bins : List (List Nat)) (i w : Nat) : List (List Nat) :=
  bins.modify i fun bin => bin ++ [w]

/-- Gives a weight to the lightest bin. -/
def pour (bins : List (List Nat)) (w : Nat) : List (List Nat) := giveTo bins (lightest bins) w

/-- Gives weights to the lightest bins, one after the other. -/
def pourAll (bins : List (List Nat)) (weights : List Nat) : List (List Nat) :=
  weights.foldl pour bins

/-- Gives one large weight to each of the chosen bins. -/
def seed (bins : List (List Nat)) (chosen pool : List Nat) : List (List Nat) :=
  (chosen.zip pool).foldl (fun bins e => giveTo bins e.1 e.2) bins

/-- Shares weights out between `m` bins, none of which stays empty if there are
as many weights. -/
def shareOut (weights : List Nat) (m : Nat) : List (List Nat) :=
  let mean := load weights / m
  let hands := (List.range m).map (dealt weights m)
  let bins := hands.map (Bin.ofWeights mean)
  let pool := descending (hands.flatMap fun hand => (largeOf mean hand).tail)
  let chosen := (ranked mean bins).take pool.length
  let strips := bins.zipIdx.map fun e => (e.1, e.1.strip mean (chosen.contains e.2))
  let kept := strips.map fun e => e.1.kept e.2
  let removed := descending (strips.flatMap fun e => e.1.removed e.2)
  pourAll (seed kept chosen pool) (pool.drop chosen.length ++ removed)

theorem length_pourAll (bins : List (List Nat)) (weights : List Nat) :
    (pourAll bins weights).length = bins.length := by
  unfold pourAll
  induction weights generalizing bins with
  | nil => rfl
  | cons w rest ih => rw [List.foldl_cons, ih]; simp [pour, giveTo]

theorem length_seed (bins : List (List Nat)) (chosen pool : List Nat) :
    (seed bins chosen pool).length = bins.length := by
  unfold seed
  induction chosen.zip pool generalizing bins with
  | nil => rfl
  | cons e rest ih => rw [List.foldl_cons, ih]; simp [giveTo]

theorem length_shareOut (weights : List Nat) (m : Nat) : (shareOut weights m).length = m := by
  simp [shareOut, length_pourAll, length_seed]

end Balance

/-- Shares weights out between a number of bins.  Bins beyond the number of
weights stay empty. -/
def balance (weights : List Nat) (bins : Nat) : List (List Nat) :=
  let m := min bins weights.length
  Balance.shareOut weights m ++ List.replicate (bins - m) []

/-- There are as many bins as asked for. -/
theorem length_balance (weights : List Nat) (bins : Nat) :
    (balance weights bins).length = bins := by
  simp only [balance, List.length_append, Balance.length_shareOut, List.length_replicate]
  omega

end GraphDependency
