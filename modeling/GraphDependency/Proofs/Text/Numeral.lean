import GraphDependency.Text.Numeral

set_option autoImplicit false

/-!
# Written numbers

A text is read as a number if it is digits of the number, with a plus sign in front or none,
and the number is not above the limit of the reader.  The digits that are written for a number
are such a text.

Main statements: `isDigit_of_mem_toString`, `toString_injective`, `isNumeral_toString` and
`readUnsigned_eq_ok_iff`, exactly which texts are read.
-/

namespace GraphDependency.Text

variable {c : Char} {cs : List Char} {limit value n : Nat}

theorem toNat_le_iff {a b : Char} : a ≤ b ↔ a.toNat ≤ b.toNat := by
  rw [Char.le_def, UInt32.le_iff_toNat_le]
  rfl

theorem isDigit_iff : c.isDigit = true ↔ 0x30 ≤ c.toNat ∧ c.toNat ≤ 0x39 := by
  simp only [Char.isDigit, Bool.and_eq_true, decide_eq_true_eq]
  rfl

/-! ## Digits of a number -/

theorem isDigit_of_mem_toString (h : c ∈ (toString n).toList) : c.isDigit = true := by
  rw [Nat.toString_eq_repr, Nat.toList_repr] at h
  exact Nat.isDigit_of_mem_toDigits (by decide) (by decide) h

theorem toList_toString_ne_nil (n : Nat) : (toString n).toList ≠ [] := by
  rw [Nat.toString_eq_repr, Nat.toList_repr]
  exact Nat.toDigits_ne_nil

theorem ofDigitChars_toString (n : Nat) : Nat.ofDigitChars 10 (toString n).toList 0 = n := by
  rw [Nat.toString_eq_repr, Nat.toList_repr, Nat.ofDigitChars_ten_toDigits]

theorem toString_injective {m n : Nat} (h : toString m = toString n) : m = n := by
  rw [← ofDigitChars_toString m, h, ofDigitChars_toString]

/-! ## Reading digits -/

theorem digitValue?_of_isDigit (h : c.isDigit = true) :
    digitValue? c = some (c.toNat - '0'.toNat) := by
  rw [isDigit_iff] at h
  exact if_pos ⟨toNat_le_iff.mpr h.1, toNat_le_iff.mpr h.2⟩

theorem le_ofDigitChars (cs : List Char) (value : Nat) : value ≤ Nat.ofDigitChars 10 cs value := by
  rw [Nat.ofDigitChars_eq_ofDigitChars_zero]
  exact Nat.le_add_right_of_le (Nat.le_mul_of_pos_left value (Nat.pow_pos (by decide)))

/-- Digits are read to their end if their number is not above the limit, since no number on
the way is larger. -/
theorem readDigits_eq_ok (hcs : ∀ c ∈ cs, c.isDigit = true)
    (hle : Nat.ofDigitChars 10 cs value ≤ limit) :
    readDigits limit value cs = .ok (Nat.ofDigitChars 10 cs value) := by
  induction cs generalizing value with
  | nil => simp [readDigits]
  | cons c cs ih =>
    obtain ⟨hc, hcs⟩ := List.forall_mem_cons.mp hcs
    rw [Nat.ofDigitChars_cons, Nat.mul_comm] at hle ⊢
    have hstep := Nat.le_trans (le_ofDigitChars cs _) hle
    rw [readDigits, digitValue?_of_isDigit hc]
    simp only [if_pos hstep]
    exact ih hcs hle

theorem isDigit_of_digitValue? {d : Nat} (h : digitValue? c = some d) : c.isDigit = true := by
  unfold digitValue? at h
  split at h
  · rename_i hc
    exact isDigit_iff.mpr ⟨toNat_le_iff.mp hc.1, toNat_le_iff.mp hc.2⟩
  · cases h

/-- What is read to its end is digits, of the number that was read. -/
theorem ofDigitChars_of_readDigits (h : readDigits limit value cs = .ok n) :
    (∀ c ∈ cs, c.isDigit = true) ∧ Nat.ofDigitChars 10 cs value = n := by
  induction cs generalizing value with
  | nil =>
    cases h
    exact ⟨nofun, Nat.ofDigitChars_nil⟩
  | cons c cs ih =>
    rw [readDigits] at h
    split at h
    · cases h
    · rename_i d hd
      split at h
      · have hc := isDigit_of_digitValue? hd
        obtain ⟨hcs, hvalue⟩ := ih h
        rw [digitValue?_of_isDigit hc, Option.some.injEq] at hd
        rw [Nat.ofDigitChars_cons, hd, Nat.mul_comm]
        exact ⟨List.forall_mem_cons.mpr ⟨hc, hcs⟩, hvalue⟩
      · cases h

/-- A plus sign in front of something is passed over. -/
theorem readUnsigned_plus (h : cs ≠ []) :
    readUnsigned limit ('+' :: cs) = readDigits limit 0 cs := by
  cases cs with
  | nil => exact absurd rfl h
  | cons c cs => rfl

/-- Without a plus sign in front, all that is there is read. -/
theorem readUnsigned_cons {c : Char} (h : c ≠ '+') :
    readUnsigned limit (c :: cs) = readDigits limit 0 (c :: cs) := by
  unfold readUnsigned
  split
  · rename_i hnil
    cases hnil
  · rename_i hplus
    exact absurd (List.cons.inj hplus).1 h
  · rename_i hplus
    exact absurd (List.cons.inj hplus).1 h
  · rfl

theorem readUnsigned_of_isDigit (h : cs ≠ []) (hcs : ∀ c ∈ cs, c.isDigit = true) :
    readUnsigned limit cs = readDigits limit 0 cs := by
  cases cs with
  | nil => exact absurd rfl h
  | cons c cs =>
    apply readUnsigned_cons
    rintro rfl
    exact absurd (hcs '+' List.mem_cons_self) (by decide)

/-- The text is digits of the number, with a plus sign in front or none. -/
def IsNumeral (n : Nat) (cs : List Char) : Prop :=
  ∃ digits, (cs = digits ∨ cs = '+' :: digits) ∧ digits ≠ []
    ∧ (∀ c ∈ digits, c.isDigit = true) ∧ Nat.ofDigitChars 10 digits 0 = n

theorem IsNumeral.point_notMem (h : IsNumeral n cs) : '.' ∉ cs := by
  obtain ⟨digits, hcs, -, hdigits, -⟩ := h
  have hpoint : '.' ∉ digits := fun hmem => absurd (hdigits '.' hmem) (by decide)
  cases hcs with
  | inl hplain => exact hplain ▸ hpoint
  | inr hplus => exact hplus ▸ List.not_mem_cons_of_ne_of_not_mem (by decide) hpoint

/-- Exactly which texts are read as a number. -/
theorem readUnsigned_eq_ok_iff :
    readUnsigned limit cs = .ok n ↔ IsNumeral n cs ∧ n ≤ limit := by
  constructor
  · intro h
    cases cs with
    | nil => cases h
    | cons c cs =>
      by_cases hplus : c = '+'
      · subst hplus
        have hne : cs ≠ [] := by
          rintro rfl
          cases h
        rw [readUnsigned_plus hne] at h
        exact ⟨⟨cs, .inr rfl, hne, ofDigitChars_of_readDigits h⟩, readDigits_le limit.zero_le h⟩
      · rw [readUnsigned_cons hplus] at h
        exact ⟨⟨c :: cs, .inl rfl, List.cons_ne_nil c cs, ofDigitChars_of_readDigits h⟩,
          readDigits_le limit.zero_le h⟩
  · intro ⟨⟨digits, hcs, hne, hdigits, hvalue⟩, hle⟩
    subst hvalue
    rw [← readDigits_eq_ok hdigits hle]
    cases hcs with
    | inl hplain => rw [hplain, readUnsigned_of_isDigit hne hdigits]
    | inr hplus => rw [hplus, readUnsigned_plus hne]

theorem isNumeral_toString (n : Nat) : IsNumeral n (toString n).toList :=
  ⟨_, .inl rfl, toList_toString_ne_nil n, fun _ => isDigit_of_mem_toString, ofDigitChars_toString n⟩

end GraphDependency.Text
