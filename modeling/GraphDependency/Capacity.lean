set_option autoImplicit false

/-!
# Capacity

Entries that are kept side by side share one block of memory, and the size of a
block is a signed number of 64 bits.  So a number of entries can be refused before
any of them is made.  The vertices of a data graph, and its edges, are named by
numbers of 32 bits, the last of which names none of them; an entry without a name is
refused when it is appended.

Main statements: `push?_of_lt` and `push?_of_le`, what can be appended.
-/

namespace GraphDependency.Capacity

/-- The bytes of the largest block. -/
def blockBytes : Nat := 9223372036854775807

/-- The bytes of a dependency, without what its parts point to. -/
def dependencyBytes : Nat := 144

/-- The bytes of a list that is an entry itself, without its elements. -/
def listBytes : Nat := 24

/-- A number of entries of the same size fit into one block. -/
def fits (entryBytes count : Nat) : Bool := count * entryBytes ≤ blockBytes

/-- The number of entries that can be named. -/
def indices : Nat := 4294967295

variable {α : Type} {xs : Array α}

/-- Appends an entry, if there is a name for it. -/
def push? (xs : Array α) (x : α) : Option (Array α) :=
  if xs.size < indices then some (xs.push x) else none

theorem push?_of_lt (h : xs.size < indices) (x : α) : push? xs x = some (xs.push x) := if_pos h

theorem push?_of_le (h : indices ≤ xs.size) (x : α) : push? xs x = none :=
  if_neg (Nat.not_lt_of_le h)

end GraphDependency.Capacity
