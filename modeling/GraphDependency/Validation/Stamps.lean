import GraphDependency.Graph
import GraphDependency.Validation.Filed

set_option autoImplicit false

/-!
# Weighing with stamps

A worker weighs one ball after the other.  Which data vertices a search has met is kept in
stamps: every search has a number, and a data vertex that the search meets is stamped with it.
So nothing has to be cleared between two searches.  Numbers have 32 binary digits; when they
start again from zero, all stamps are cleared, and zero stays the number of no search.

A ball grows at its end while it is read from the front, a level at a time.  The message for the
data vertex in its middle is filed under its weight.
-/

namespace GraphDependency.Validation

/-! ## Stamps -/

/-- The number of the last search that met each data vertex, and the number of this search. -/
structure Stamps where
  stamps : Array UInt32
  epoch : UInt32
  deriving DecidableEq, Repr

namespace Stamps

/-- No search was made. -/
def start (size : Nat) : Stamps := ⟨Array.replicate size 0, 0⟩

/-- Begins a search; when the numbers start again, all stamps are cleared. -/
def next (s : Stamps) : Stamps :=
  if s.epoch + 1 = 0 then ⟨s.stamps.map fun _ => 0, 1⟩ else { s with epoch := s.epoch + 1 }

/-- The search has met the data vertex. -/
def hasMet (s : Stamps) (v : Nat) : Bool := s.stamps[v]? == some s.epoch

/-- Meets a data vertex. -/
def meet (s : Stamps) (v : Nat) : Stamps :=
  { s with stamps := s.stamps.setIfInBounds v s.epoch }

end Stamps

/-! ## Growing a ball -/

/-- A search with the data vertices that it has met, in the order in which it met them. -/
structure GrowingBall where
  stamps : Stamps
  ball : Array Nat
  deriving DecidableEq, Repr

namespace GrowingBall

/-- Before the search only the center is met. -/
def start (s : Stamps) (center : Nat) : GrowingBall := ⟨s.meet center, #[center]⟩

/-- Comes to a data vertex, which goes to the end of the ball if it was not met before. -/
def visit (s : GrowingBall) (w : Nat) : GrowingBall :=
  if s.stamps.hasMet w then s else ⟨s.stamps.meet w, s.ball.push w⟩

/-- Visits the neighbors of the data vertex at a position of the ball. -/
def scan (data : Graph) (s : GrowingBall) (i : Nat) : GrowingBall :=
  (data.neighbors (s.ball.getD i 0)).foldl visit s

/-- Grows the ball a number of times: each time the level that begins at `frontier` is scanned.
If the ball ends there, nothing more can be met. -/
def grow (data : Graph) : Nat → Nat → GrowingBall → GrowingBall
  | 0, _, s => s
  | radius + 1, frontier, s =>
    let levelEnd := s.ball.size
    if frontier = levelEnd then s
    else grow data radius levelEnd
      ((List.range' frontier (levelEnd - frontier)).foldl (scan data) s)

/-- The number of edges between data vertices that were met, each counted at its lower end. -/
def innerEdgeCount (data : Graph) (s : GrowingBall) : Nat :=
  s.ball.foldl (fun n v =>
    n + (data.neighbors v).countP fun w => v < w && s.stamps.hasMet w) 0

end GrowingBall

/-- The weight of a ball, and the stamps as the search leaves them. -/
def weigh (data : Graph) (s : Stamps) (radius center : Nat) : Nat × Stamps :=
  let grown := GrowingBall.grow data radius 0 (.start s center)
  (grown.ball.size + grown.innerEdgeCount data, grown.stamps)

/-! ## Weighing requests -/

/-- The data vertices that a worker is to weigh for one dependency. -/
structure Request (data : Graph) where
  /-- The position of the dependency. -/
  rule : Nat
  center : Nat
  radius : Nat
  candidates : List Nat
  candidates_lt : ∀ v ∈ candidates, v < data.size
  deriving DecidableEq, Repr

namespace Request

variable {data : Graph}

/-- The message for one of the candidates. -/
def message (r : Request data) (v : Nat) : Message := ⟨r.rule, r.center, v⟩

end Request

/-- What a worker keeps from one ball to the next. -/
structure Weighing where
  stamps : Stamps
  filed : Filed
  deriving DecidableEq, Repr

namespace Weighing

variable {data : Graph}

/-- Nothing was weighed. -/
def start (data : Graph) : Weighing := ⟨.start data.size, .empty⟩

/-- Weighs the ball around a candidate and files its message. -/
def candidate (r : Request data) (s : Weighing) (v : Nat) : Weighing :=
  let (weight, stamps) := weigh data s.stamps.next r.radius v
  ⟨stamps, s.filed.file weight (r.message v)⟩

/-- Weighs the candidates of a request. -/
def request (s : Weighing) (r : Request data) : Weighing := r.candidates.foldl (candidate r) s

end Weighing

/-- The messages of a worker by weight. -/
def generateMessages (data : Graph) (requests : List (Request data)) : Filed :=
  (requests.foldl Weighing.request (.start data)).filed

end GraphDependency.Validation
