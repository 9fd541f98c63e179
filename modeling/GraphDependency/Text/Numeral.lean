set_option autoImplicit false

/-!
# Unsigned numbers in decimal

Reading an unsigned number of bounded size from text.  One leading plus sign is
allowed, leading zeros are too.  The text is read from the left, so the first
fault met is the one reported.

Main statement: `readDigits_le`, what is read does not exceed the bound.
-/

namespace GraphDependency.Text

/-- Why a text is no unsigned number. -/
inductive NumeralFault where
  /-- there is nothing to read -/
  | empty
  /-- a character is no digit -/
  | digit
  /-- the number exceeds the bound -/
  | tooLarge
  deriving DecidableEq, Repr, Inhabited

/-- The wording of a fault. -/
def NumeralFault.message : NumeralFault → String
  | .empty => "cannot parse integer from empty string"
  | .digit => "invalid digit found in string"
  | .tooLarge => "number too large to fit in target type"

/-- The largest number of 64 binary digits. -/
def max64 : Nat := 0xFFFFFFFFFFFFFFFF

/-- The value of a decimal digit. -/
def digitValue? (c : Char) : Option Nat :=
  if '0' ≤ c ∧ c ≤ '9' then some (c.toNat - '0'.toNat) else none

/-- Reads digits onto the value read so far. -/
def readDigits (limit : Nat) : Nat → List Char → Except NumeralFault Nat
  | value, [] => .ok value
  | value, c :: cs =>
    match digitValue? c with
    | none => .error .digit
    | some d =>
      if value * 10 + d ≤ limit then readDigits limit (value * 10 + d) cs
      else .error .tooLarge

/-- Reads an unsigned number not above the limit. -/
def readUnsigned (limit : Nat) : List Char → Except NumeralFault Nat
  | [] => .error .empty
  | ['+'] => .error .digit
  | '+' :: cs => readDigits limit 0 cs
  | cs => readDigits limit 0 cs

/-- Reads an unsigned number of 64 binary digits. -/
def readNumber64 (text : String) : Except NumeralFault Nat :=
  readUnsigned max64 text.toList

theorem readDigits_le {limit value n : Nat} {cs : List Char} (hv : value ≤ limit)
    (h : readDigits limit value cs = .ok n) : n ≤ limit := by
  induction cs generalizing value with
  | nil => simp only [readDigits, Except.ok.injEq] at h; omega
  | cons c cs ih =>
    rw [readDigits] at h
    split at h
    · simp at h
    · split at h
      · exact ih (by assumption) h
      · simp at h

end GraphDependency.Text
