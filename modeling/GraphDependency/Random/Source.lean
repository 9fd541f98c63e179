import GraphDependency.Binary64
import GraphDependency.Random.ChaCha

set_option autoImplicit false

/-!
# Random choices

A source of random choices draws numbers below a bound and answers whether
something of a given probability happens.  All that is promised of it is that
drawn numbers are below their bound.

A stream of words is such a source.  The product of a word with the bound,
divided by the number of words, is below the bound; words whose remainder is too
large to leave all results equally likely are passed over.

Main statements: `choose_mem` and `choose_eq_none_iff`, choosing from a list
yields one of its elements, if it has any.
-/

namespace GraphDependency.Random

/-- A source of random choices with states of type `σ`. -/
structure Source (σ : Type) where
  /-- A number below the bound, from words of 64 binary digits. -/
  wide : Nat → StateM σ Nat
  /-- A number below the bound, from words of 32 binary digits. -/
  narrow : Nat → StateM σ Nat
  /-- Whether something of this probability happens. -/
  coin : Binary64 → StateM σ Bool
  wide_lt : ∀ (bound : Nat) (s : σ), 0 < bound → (wide bound s).1 < bound
  narrow_lt : ∀ (bound : Nat) (s : σ), 0 < bound → (narrow bound s).1 < bound

namespace Source

variable {σ : Type}

/-- An element of a list, if it has any. -/
def choose {α : Type} (source : Source σ) (xs : List α) : StateM σ (Option α) :=
  if xs.isEmpty then pure none else do return xs[← source.narrow xs.length]?

/-- What is chosen is an element. -/
theorem choose_mem {α : Type} {source : Source σ} {xs : List α} {s : σ} {x : α}
    (h : (source.choose xs s).1 = some x) : x ∈ xs := by
  unfold choose at h
  split at h
  · change none = some x at h
    simp at h
  · exact List.mem_of_getElem? h

/-- Nothing is chosen from the empty list only. -/
theorem choose_eq_none_iff {α : Type} {source : Source σ} {xs : List α} {s : σ} :
    (source.choose xs s).1 = none ↔ xs = [] := by
  unfold choose
  split
  · rename_i h
    change none = none ↔ xs = []
    simp [List.isEmpty_iff.mp h]
  · rename_i h
    have hp : 0 < xs.length := List.length_pos_iff.mpr fun he => h (by simp [he])
    have hl := source.narrow_lt xs.length s hp
    change xs[(source.narrow xs.length s).1]? = none ↔ xs = []
    rw [List.getElem?_eq_none_iff]
    constructor
    · intro h'; omega
    · intro h'; simp [h'] at hp

end Source

/-! ## Streams as sources -/

/-- The number of words of the given number of binary digits. -/
def wordCount (digits : Nat) : Nat := 1 <<< digits

/-- The product of a word with the bound. -/
def product (digits bound w : Nat) : Nat := w % wordCount digits * bound

/-- The largest remainder that leaves all results below the bound equally likely,
for words of the given number of binary digits. -/
def acceptedRemainder (digits bound : Nat) : Nat := bound <<< (digits - 1 - bound.log2) - 1

/-- How many words are tried for one number.  The last one is taken as it is;
each is passed over with a probability below one half. -/
def trials : Nat := 512

/-- A number below the bound from the next word that can be accepted. -/
def drawBelow (digits : Nat) (word : StateM Stream Nat) (bound : Nat) :
    Nat → StateM Stream Nat
  | 0 => do
    let w ← word
    return product digits bound w / wordCount digits
  | tries + 1 => do
    let w ← word
    if product digits bound w % wordCount digits ≤ acceptedRemainder digits bound then
      return product digits bound w / wordCount digits
    else drawBelow digits word bound tries

/-- Two words as one, the low half first. -/
def nextWide : StateM Stream Nat := do
  let low ← Stream.next
  let high ← Stream.next
  return low + high <<< 32

theorem wordCount_pos (digits : Nat) : 0 < wordCount digits := by
  rw [wordCount, Nat.one_shiftLeft]
  exact Nat.two_pow_pos _

/-- Every word stands for a number below the bound. -/
theorem product_div_lt {bound : Nat} (digits w : Nat) (h : 0 < bound) :
    product digits bound w / wordCount digits < bound := by
  rw [product, Nat.div_lt_iff_lt_mul (wordCount_pos digits), Nat.mul_comm bound]
  exact Nat.mul_lt_mul_of_pos_right (Nat.mod_lt _ (wordCount_pos digits)) h

theorem drawBelow_lt {digits bound : Nat} {word : StateM Stream Nat} (h : 0 < bound)
    (tries : Nat) (s : Stream) : (drawBelow digits word bound tries s).1 < bound := by
  induction tries generalizing s with
  | zero => exact product_div_lt digits _ h
  | succ tries ih =>
    unfold drawBelow
    change ((if product digits bound (word s).1 % wordCount digits
          ≤ acceptedRemainder digits bound then
        (pure (product digits bound (word s).1 / wordCount digits) : StateM Stream Nat)
      else drawBelow digits word bound tries) (word s).2).1 < bound
    split
    · exact product_div_lt digits _ h
    · exact ih _

/-- A stream of words as a source of choices. -/
def chacha : Source Stream where
  wide bound := drawBelow 64 nextWide bound trials
  narrow bound := drawBelow 32 Stream.next bound trials
  coin p :=
    if p.isOne then pure true
    else do return (← nextWide) < p.scaled 64
  wide_lt _ s h := drawBelow_lt h trials s
  narrow_lt _ s h := drawBelow_lt h trials s

end GraphDependency.Random
