set_option autoImplicit false

/-!
# Blank characters

The characters that separate words: those with the Unicode property White_Space.
This module cuts text at them.

Main statements: `isBlank_of_isWhitespace` (the class contains the ASCII one),
`not_isBlank_of_ascii` (no visible ASCII character is in it),
`not_isBlank_of_mem_words` and `words_ne_nil` (words are not empty and
have no blanks).
-/

namespace GraphDependency.Text

/-- The character has the property White_Space. -/
def isBlank (c : Char) : Bool :=
  let n := c.toNat
  (9 ≤ n && n ≤ 13) || n == 0x20 || n == 0x85 || n == 0xA0 || n == 0x1680
    || (0x2000 ≤ n && n ≤ 0x200A) || n == 0x2028 || n == 0x2029 || n == 0x202F
    || n == 0x205F || n == 0x3000

/-- Every ASCII white space character is blank. -/
theorem isBlank_of_isWhitespace {c : Char} (h : c.isWhitespace = true) : isBlank c = true := by
  simp only [Char.isWhitespace, Bool.or_eq_true, decide_eq_true_eq] at h
  rcases h with ((rfl | rfl) | rfl) | rfl <;> decide

/-- No visible ASCII character is blank. -/
theorem not_isBlank_of_ascii {c : Char} (hlow : 0x20 < c.toNat) (hhigh : c.toNat < 0x7F) :
    isBlank c = false := by
  simp only [isBlank, Bool.or_eq_false_iff, Bool.and_eq_false_iff, decide_eq_false_iff_not,
    beq_eq_false_iff_ne]
  omega

/-- The words: the maximal runs of characters that are not blank. -/
def words : List Char → List (List Char)
  | [] => []
  | c :: cs =>
    if isBlank c then words cs
    else (c :: cs.takeWhile fun d => !isBlank d) :: words (cs.dropWhile fun d => !isBlank d)
termination_by cs => cs.length
decreasing_by
  · simp
  · have := (List.dropWhile_suffix (l := cs) fun d => !isBlank d).length_le
    simp only [List.length_cons]
    omega

/-- Drops blank characters at both ends. -/
def trimChars (cs : List Char) : List Char :=
  ((cs.dropWhile isBlank).reverse.dropWhile isBlank).reverse

/-- The text without the blank characters at both ends. -/
def trim (text : String) : String := String.ofList (trimChars text.toList)

theorem words_ne_nil {cs w : List Char} (h : w ∈ words cs) : w ≠ [] := by
  fun_induction words cs with
  | case1 => simp at h
  | case2 c cs _ ih => exact ih h
  | case3 c cs _ ih =>
    rcases List.mem_cons.mp h with rfl | h
    · simp
    · exact ih h

theorem not_isBlank_of_mem_words {cs w : List Char} (h : w ∈ words cs) {c : Char}
    (hc : c ∈ w) : isBlank c = false := by
  fun_induction words cs with
  | case1 => simp at h
  | case2 c cs _ ih => exact ih h
  | case3 c' cs hb ih =>
    rcases List.mem_cons.mp h with rfl | h
    · rcases List.mem_cons.mp hc with rfl | hc
      · simpa using hb
      · simpa using List.all_eq_true.mp List.all_takeWhile c hc
    · exact ih h

end GraphDependency.Text
