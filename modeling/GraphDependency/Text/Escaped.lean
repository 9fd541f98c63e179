import GraphDependency.Text.Visible

set_option autoImplicit false

/-!
# Text quoted inside a message

A message shows a piece of text between double quotes.  Quotes and backslashes
are escaped, the usual control characters have their short escapes, and hidden
characters are given by their code point.

Main statement: `escape_plain`, visible text without quotes and backslashes
stands for itself.
-/

namespace GraphDependency.Text

/-- Lowercase hexadecimal digits, without leading zeros. -/
def hexDigits (n : Nat) : List Char := Nat.toDigits 16 n

/-- What stands for a character inside the quotes. -/
def escapeChar (c : Char) : List Char :=
  if c = '"' then ['\\', '"']
  else if c = '\\' then ['\\', '\\']
  else if c = '\n' then ['\\', 'n']
  else if c = '\r' then ['\\', 'r']
  else if c = '\t' then ['\\', 't']
  else if c = '\x00' then ['\\', '0']
  else if isHidden c then ['\\', 'u', '{'] ++ hexDigits c.toNat ++ ['}']
  else [c]

/-- The text between quotes. -/
def escape (text : String) : String :=
  String.ofList ('"' :: text.toList.flatMap escapeChar ++ ['"'])

/-- Visible text without quotes and backslashes stands for itself. -/
theorem escape_plain {cs : List Char}
    (h : ∀ c ∈ cs, c ≠ '"' ∧ c ≠ '\\' ∧ 0x20 ≤ c.toNat ∧ isHidden c = false) :
    escape (String.ofList cs) = String.ofList ('"' :: cs ++ ['"']) := by
  have hc : cs.flatMap escapeChar = cs := by
    induction cs with
    | nil => rfl
    | cons c cs ih =>
      obtain ⟨h1, h2, h3, h4⟩ := h c (by simp)
      have hn : c ≠ '\n' := by rintro rfl; exact absurd h3 (by decide)
      have hr : c ≠ '\r' := by rintro rfl; exact absurd h3 (by decide)
      have ht : c ≠ '\t' := by rintro rfl; exact absurd h3 (by decide)
      have hz : c ≠ '\x00' := by rintro rfl; exact absurd h3 (by decide)
      rw [List.flatMap_cons, ih fun c' h' => h c' (by simp [h'])]
      simp [escapeChar, h1, h2, hn, hr, ht, hz, h4]
  simp [escape, hc]

end GraphDependency.Text
