set_option autoImplicit false

/-!
# Numbers of the 64-bit binary format

Finite numbers with 53 significant binary digits, given exactly: a mantissa, and
the place of its last digit as a power of two.  Everything asked of them here is
decided in natural numbers.

Main statement: `scaled_lt`, a number below one stays below the scale.
-/

namespace GraphDependency

/-- The number `mantissa · 2 ^ exponent`, or its negative.  The exponent is the
place of the last digit that the format keeps. -/
structure Binary64 where
  negative : Bool
  mantissa : Nat
  exponent : Int
  deriving DecidableEq, Repr, Inhabited

namespace Binary64

/-- The place value of the leading one of a mantissa, which 52 digits follow. -/
def leadingOne : Nat := 0x10000000000000

/-- The finite number of 64 bits: a sign, eleven digits of exponent and 52 digits
of mantissa, to which a leading one belongs unless the exponent is least. -/
def ofBits? (bits : Nat) : Option Binary64 :=
  let negative := 0x8000000000000000 ≤ bits
  let place : Nat := bits / leadingOne % 0x800
  let fraction : Nat := bits % leadingOne
  if place = 0x7FF then none
  else if place = 0 then some ⟨negative, fraction, -1074⟩
  else some ⟨negative, leadingOne + fraction, (place : Int) - 1075⟩

/-- One half. -/
def half : Binary64 := ⟨false, leadingOne, -53⟩

/-- The numerator and the denominator of the absolute value times `2 ^ shift`. -/
def ratio (x : Binary64) (shift : Nat) : Nat × Nat :=
  (x.mantissa <<< (x.exponent + shift).toNat, 1 <<< (-(x.exponent + shift)).toNat)

/-- The number is zero or positive, and not above one. -/
def inUnit (x : Binary64) : Bool :=
  x.mantissa == 0 || (!x.negative && (x.ratio 0).1 ≤ (x.ratio 0).2)

/-- The number is one. -/
def isOne (x : Binary64) : Bool := !x.negative && (x.ratio 0).1 == (x.ratio 0).2

/-- The absolute value times `2 ^ shift`, without its fraction. -/
def scaled (x : Binary64) (shift : Nat) : Nat := (x.ratio shift).1 / (x.ratio shift).2

/-- A number below one, scaled, stays below the scale. -/
theorem scaled_lt {x : Binary64} (shift : Nat) (h : (x.ratio 0).1 < (x.ratio 0).2) :
    x.scaled shift < 1 <<< shift := by
  have hd : 0 < (x.ratio shift).2 := by
    simp only [ratio, Nat.one_shiftLeft]
    exact Nat.two_pow_pos _
  rw [scaled, Nat.div_lt_iff_lt_mul hd]
  simp only [ratio, Nat.shiftLeft_eq, Nat.one_mul, Int.add_zero, Int.ofNat_zero] at h ⊢
  have key : ∀ e : Int, x.mantissa * 2 ^ e.toNat < 2 ^ (-e).toNat →
      x.mantissa * 2 ^ (e + shift).toNat < 2 ^ shift * 2 ^ (-(e + shift)).toNat := by
    intro e he
    rw [← Nat.pow_add]
    rcases Int.le_total 0 e with h0 | h0
    · have h1 : (-e).toNat = 0 := by omega
      rw [h1, Nat.pow_zero, Nat.lt_one_iff, Nat.mul_eq_zero] at he
      have hm : x.mantissa = 0 := by
        rcases he with he | he
        · exact he
        · exact absurd he (by simp)
      rw [hm, Nat.zero_mul]
      exact Nat.two_pow_pos _
    · have h1 : e.toNat = 0 := by omega
      rw [h1, Nat.pow_zero, Nat.mul_one] at he
      calc x.mantissa * 2 ^ (e + shift).toNat
          < 2 ^ (-e).toNat * 2 ^ (e + shift).toNat :=
            Nat.mul_lt_mul_of_pos_right he (Nat.two_pow_pos _)
        _ = 2 ^ ((-e).toNat + (e + shift).toNat) := (Nat.pow_add ..).symm
        _ = 2 ^ (shift + (-(e + shift)).toNat) := by congr 1; omega
  exact key x.exponent h

end Binary64

end GraphDependency
