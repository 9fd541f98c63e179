set_option autoImplicit false

/-!
# A stream of pseudo-random words

The ChaCha stream with eight rounds.  A key of eight words, a counter of blocks
and a constant make a table of four rows of words; rounds of additions,
exclusive ors and rotations, first down the columns and then along the diagonals,
mix it, and the sum of both tables is one block of sixteen words.  The blocks, in
order, are the stream.

Main statement: `length_block`, a block has sixteen words.
-/

namespace GraphDependency.Random

/-- Four words side by side. -/
structure Row where
  first : UInt32
  second : UInt32
  third : UInt32
  fourth : UInt32
  deriving DecidableEq, Repr, Inhabited

namespace Row

/-- Combines two rows word by word. -/
def zip (f : UInt32 → UInt32 → UInt32) (a b : Row) : Row :=
  ⟨f a.first b.first, f a.second b.second, f a.third b.third, f a.fourth b.fourth⟩

/-- Adds two rows. -/
def add (a b : Row) : Row := zip (· + ·) a b

/-- Adds two rows without carry, and rotates every word to the left. -/
def mix (amount : UInt32) (a b : Row) : Row :=
  zip (fun x y => (x ^^^ y) <<< amount ||| (x ^^^ y) >>> (32 - amount)) a b

/-- Moves every word one place to the front; the first one goes last. -/
def turn (a : Row) : Row := ⟨a.second, a.third, a.fourth, a.first⟩

/-- The words in order. -/
def toList (a : Row) : List UInt32 := [a.first, a.second, a.third, a.fourth]

end Row

/-- Four rows of words. -/
structure Table where
  a : Row
  b : Row
  c : Row
  d : Row
  deriving DecidableEq, Repr, Inhabited

namespace Table

/-- Mixes every column. -/
def mixColumns (t : Table) : Table :=
  let a := t.a.add t.b
  let d := Row.mix 16 t.d a
  let c := t.c.add d
  let b := Row.mix 12 t.b c
  let a := a.add b
  let d := Row.mix 8 d a
  let c := c.add d
  let b := Row.mix 7 b c
  ⟨a, b, c, d⟩

/-- Moves the diagonals into the columns. -/
def skew (t : Table) : Table := ⟨t.a, t.b.turn, t.c.turn.turn, t.d.turn.turn.turn⟩

/-- Moves the columns back into the diagonals. -/
def unskew (t : Table) : Table := ⟨t.a, t.b.turn.turn.turn, t.c.turn.turn, t.d.turn⟩

/-- Two rounds: the columns, then the diagonals. -/
def twoRounds (t : Table) : Table := t.mixColumns.skew.mixColumns.unskew

/-- Eight rounds. -/
def eightRounds (t : Table) : Table := t.twoRounds.twoRounds.twoRounds.twoRounds

/-- Adds two tables. -/
def add (s t : Table) : Table := ⟨s.a.add t.a, s.b.add t.b, s.c.add t.c, s.d.add t.d⟩

/-- The words, row by row. -/
def toList (t : Table) : List UInt32 := t.a.toList ++ t.b.toList ++ t.c.toList ++ t.d.toList

end Table

/-- Two rows of words that select a stream. -/
structure Key where
  upper : Row
  lower : Row
  deriving DecidableEq, Repr, Inhabited

/-- The constant in the first row. -/
def constants : Row := ⟨0x61707865, 0x3320646e, 0x79622d32, 0x6b206574⟩

/-- The table before the rounds. -/
def initialTable (key : Key) (counter : Nat) : Table :=
  ⟨constants, key.upper, key.lower,
    ⟨UInt32.ofNat counter, UInt32.ofNat (counter >>> 32), 0, 0⟩⟩

/-- One block of the stream. -/
def block (key : Key) (counter : Nat) : List UInt32 :=
  let t := initialTable key counter
  (t.eightRounds.add t).toList

/-- A block has sixteen words. -/
theorem length_block (key : Key) (counter : Nat) : (block key counter).length = 16 := rfl

/-- A position in a stream: the block that comes next, and the words left before
it. -/
structure Stream where
  key : Key
  counter : Nat
  left : List UInt32
  deriving Repr, Inhabited

namespace Stream

/-- The start of the stream of a key. -/
def start (key : Key) : Stream := ⟨key, 0, []⟩

/-- The next word. -/
def next : StateM Stream Nat := fun s =>
  match s.left with
  | w :: left => (w.toNat, { s with left := left })
  | [] =>
    match block s.key s.counter with
    | w :: left => (w.toNat, ⟨s.key, s.counter + 1, left⟩)
    | [] => (0, s)

end Stream

/-! ## Keys from seeds -/

/-- The next state of the generator that expands a seed. -/
def nextSeed (seed : UInt64) : UInt64 := seed * 6364136223846793005 + 11634580027462260723

/-- The word that a state of that generator stands for. -/
def seedWord (seed : UInt64) : UInt32 :=
  let x := (((seed >>> 18) ^^^ seed) >>> 27).toUInt32
  let amount := (seed >>> 59).toUInt32
  x >>> amount ||| x <<< ((32 - amount) % 32)

/-- The row of the four words after a state, and the state after them. -/
def seedRow (s0 : UInt64) : Row × UInt64 :=
  let s1 := nextSeed s0
  let s2 := nextSeed s1
  let s3 := nextSeed s2
  let s4 := nextSeed s3
  (⟨seedWord s1, seedWord s2, seedWord s3, seedWord s4⟩, s4)

/-- The key of a seed. -/
def Key.ofSeed (seed : UInt64) : Key :=
  let (upper, seed) := seedRow seed
  ⟨upper, (seedRow seed).1⟩

end GraphDependency.Random
