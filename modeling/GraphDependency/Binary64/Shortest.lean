import GraphDependency.Binary64

set_option autoImplicit false

/-!
# The shortest decimal of a binary number

The text of a binary number has the fewest decimal digits that read back to it.
Of several such decimals with equally many digits it is the one next to the
number, and of two equally near ones the larger.  A decimal reads back to a
number if it lies between the middles to the two neighbors of the number, where
a middle itself goes to the neighbor with the even mantissa.  Digits are written
in their places, with zeros as needed, and without an exponent.

Main statement: `shortest?_readsBack`, what is found reads back.
-/

namespace GraphDependency.Binary64

/-- A decimal: digits, and the place of the last of them as a power of ten. -/
structure Decimal where
  digits : Nat
  place : Int
  deriving DecidableEq, Repr, Inhabited

/-- The numerator and the denominator of a number of units `2 ^ exponent`,
counted in units `10 ^ place`. -/
def unitRatio (exponent place : Int) : Nat × Nat :=
  (Nat.pow 10 (-place).toNat <<< exponent.toNat, Nat.pow 10 place.toNat <<< (-exponent).toNat)

/-- The distance to the lower neighbor is half of that to the upper one: the
mantissa is the least of its exponent, and the exponent is not the least. -/
def narrowBelow (x : Binary64) : Bool := x.mantissa == leadingOne && -1074 < x.exponent

/-- The decimal lies where everything is rounded to the number. -/
def readsBack (x : Binary64) (d : Decimal) : Bool :=
  let r := unitRatio x.exponent d.place
  let low := (4 * x.mantissa - if x.narrowBelow then 1 else 2) * r.1
  let high := (4 * x.mantissa + 2) * r.1
  let value := 4 * d.digits * r.2
  if x.mantissa % 2 = 0 then low ≤ value && value ≤ high else low < value && value < high

/-- The decimal at a place that does not exceed the number, and the next one, the
nearer of the two first; of two equally near ones the larger. -/
def neighbors (x : Binary64) (place : Int) : List Decimal :=
  let r := unitRatio x.exponent place
  let below : Decimal := ⟨x.mantissa * r.1 / r.2, place⟩
  let above : Decimal := ⟨x.mantissa * r.1 / r.2 + 1, place⟩
  if 2 * (x.mantissa * r.1 % r.2) < r.2 then [below, above] else [above, below]

/-- The decimal next to the number at the first place that has one which reads
back, going down from the given place. -/
def search? (x : Binary64) : Nat → Int → Option Decimal
  | 0, _ => none
  | steps + 1, place =>
    match (x.neighbors place).find? x.readsBack with
    | some d => some d
    | none => search? x steps (place - 1)

/-- The shortest decimal of a number.  Its last digit stands at a place between
`10 ^ 309` and `10 ^ -324`. -/
def shortest? (x : Binary64) : Option Decimal := search? x 634 309

theorem search?_readsBack {x : Binary64} {d : Decimal} {steps : Nat} {place : Int}
    (h : search? x steps place = some d) : x.readsBack d = true := by
  induction steps generalizing place with
  | zero => simp [search?] at h
  | succ steps ih =>
    rw [search?] at h
    split at h
    · rename_i hf
      simp only [Option.some.injEq] at h
      exact h ▸ List.find?_some hf
    · exact ih h

/-- What is found reads back. -/
theorem shortest?_readsBack {x : Binary64} {d : Decimal} (h : x.shortest? = some d) :
    x.readsBack d = true :=
  search?_readsBack h

/-- The digits of a decimal in their places. -/
def Decimal.text (d : Decimal) : String :=
  let digits := Nat.toDigits 10 d.digits
  if 0 ≤ d.place then String.ofList (digits ++ List.replicate d.place.toNat '0')
  else
    let places := (-d.place).toNat
    let padded := List.replicate (places + 1 - digits.length) '0' ++ digits
    let whole := padded.length - places
    String.ofList (padded.take whole ++ '.' :: padded.drop whole)

/-- The text of a number. -/
def text (x : Binary64) : String :=
  (if x.negative then "-" else "") ++
    if x.mantissa = 0 then "0" else ((x.shortest?).map Decimal.text).getD ""

end GraphDependency.Binary64
