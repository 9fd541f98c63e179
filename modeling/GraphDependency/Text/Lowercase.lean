set_option autoImplicit false

/-!
# Small letters

Names that may be written in any case are compared in small letters.  Only the
capitals of ASCII have a small letter here; all other characters stand for
themselves.

Main statements: `lowercase_append`, a text is put into small letters piece by
piece, and `length_lowercase`, it keeps its length.
-/

namespace GraphDependency.Text

/-- The text with small letters for the capitals of ASCII. -/
def lowercase (text : String) : String := String.ofList (text.toList.map Char.toLower)

@[simp] theorem toList_lowercase (text : String) :
    (lowercase text).toList = text.toList.map Char.toLower := by
  simp [lowercase]

/-- A text is put into small letters piece by piece. -/
theorem lowercase_append (s t : String) : lowercase (s ++ t) = lowercase s ++ lowercase t :=
  String.toList_inj.mp (by simp)

/-- A text keeps its length in small letters. -/
theorem length_lowercase (text : String) : (lowercase text).length = text.length := by
  rw [← String.length_toList, toList_lowercase, List.length_map, String.length_toList]

end GraphDependency.Text
