import GraphDependency.Matching.Planning
import GraphDependency.Matching.Search

set_option autoImplicit false

/-!
# The search as a loop

The search can be carried out by a loop without recursion.  It keeps a list of candidates for
every depth, made when the depth is reached, and a cursor into each list.  One table holds the
images of the pattern vertices; they are overwritten and never taken back.  Another one marks
the data vertices in use: a vertex is marked on the way down, unless it is at the last depth,
and the mark is cleared on the way up.

The places in the plan are guarded, and so are the positions in the tables that the loop itself
writes and reads: without one of them it breaks.  A step is handed the images of vertices that
stand in front of it in the plan, and these were written.

Main statements: `image_take`, `isMarked_mark` and `list_enter`, what is read after each write.
-/

namespace GraphDependency.Matching

/-- What the loop remembers. -/
structure Tables (q : Query) where
  /-- The plan. -/
  steps : List Step
  /-- The image of every pattern vertex. -/
  images : Vector Nat q.pattern.size
  /-- The data vertices in use. -/
  marks : Vector Bool q.data.size
  /-- The candidates at every depth. -/
  lists : Vector (List Nat) q.pattern.size
  /-- How many candidates were tried at every depth. -/
  cursors : Vector Nat q.pattern.size
  deriving DecidableEq, Repr

namespace Tables

variable {q : Query} (t : Tables q) {depth d u v w : Nat}

/-- The tables before anything is placed. -/
def start (q : Query) (steps : List Step) : Tables q :=
  ⟨steps, Vector.replicate q.pattern.size 0, Vector.replicate q.data.size false,
    Vector.replicate q.pattern.size [], Vector.replicate q.pattern.size 0⟩

/-- The image of a pattern vertex. -/
def image (u : Nat) : Nat := (t.images[u]?).getD 0

/-- A data vertex is in use. -/
def isMarked (v : Nat) : Bool := (t.marks[v]?).getD false

/-- The candidates at a depth. -/
def list (depth : Nat) : List Nat := (t.lists[depth]?).getD []

/-- How many candidates were tried at a depth. -/
def cursor (depth : Nat) : Nat := (t.cursors[depth]?).getD 0

/-- Gives a pattern vertex its image, the candidate at the cursor, and moves the cursor on. -/
def take (depth u v : Nat) : Tables q :=
  { t with
    images := t.images.setIfInBounds u v
    cursors := t.cursors.setIfInBounds depth (t.cursor depth + 1) }

/-- Marks a data vertex, or clears its mark. -/
def mark (v : Nat) (inUse : Bool) : Tables q :=
  { t with marks := t.marks.setIfInBounds v inUse }

/-- Makes the candidates at a depth. -/
def enter (depth : Nat) (s : Step) : Tables q :=
  { t with
    lists := t.lists.setIfInBounds depth (candidatesWith q t.isMarked t.image s)
    cursors := t.cursors.setIfInBounds depth 0 }

@[simp] theorem image_mark (inUse : Bool) : (t.mark v inUse).image u = t.image u := rfl

@[simp] theorem isMarked_take : (t.take depth u v).isMarked w = t.isMarked w := rfl

/-- Taking a candidate changes the image of one vertex. -/
theorem image_take (hu : u < q.pattern.size) :
    (t.take depth u v).image w = if w = u then v else t.image w := by
  by_cases hw : w = u
  · simp [image, take, hw, hu]
  · simp [image, take, hw, Ne.symm hw]

/-- A mark is for one vertex. -/
theorem isMarked_mark (hv : v < q.data.size) (inUse : Bool) :
    (t.mark v inUse).isMarked w = if w = v then inUse else t.isMarked w := by
  by_cases hw : w = v
  · simp [isMarked, mark, hw, hv]
  · simp [isMarked, mark, hw, Ne.symm hw]

/-- Taking a candidate moves the cursor of one depth. -/
theorem cursor_take (hdepth : depth < q.pattern.size) :
    (t.take depth u v).cursor d = if d = depth then t.cursor depth + 1 else t.cursor d := by
  by_cases hd : d = depth
  · simp [cursor, take, hd, hdepth]
  · simp [cursor, take, hd, Ne.symm hd]

/-- The candidates of one depth are made. -/
theorem list_enter (hdepth : depth < q.pattern.size) (s : Step) :
    (t.enter depth s).list d
      = if d = depth then candidatesWith q t.isMarked t.image s else t.list d := by
  by_cases hd : d = depth
  · simp [list, enter, hd, hdepth]
  · simp [list, enter, hd, Ne.symm hd]

/-- The candidates of one depth are tried from the first one on. -/
theorem cursor_enter (hdepth : depth < q.pattern.size) (s : Step) :
    (t.enter depth s).cursor d = if d = depth then 0 else t.cursor d := by
  by_cases hd : d = depth
  · simp [cursor, enter, hd, hdepth]
  · simp [cursor, enter, hd, Ne.symm hd]

end Tables

/-- How far the loop is. -/
inductive Progress (q : Query) (σ : Type) where
  /-- at a depth, with what the visitor left and the number of embeddings so far -/
  | moving (depth : Nat) (t : Tables q) (state : σ) (count : Nat)
  /-- at its end -/
  | ended (run : Run σ)
  /-- outside of a table or of the plan -/
  | broken

namespace Progress

section Moves

variable {q : Query} {σ : Type} (visit : σ → Embedding → ForInStep σ)

/-- The last pattern vertex has its image: the visitor is called. -/
def report (depth : Nat) (t : Tables q) (state : σ) (count : Nat) : Progress q σ :=
  match visit state t.images.toArray with
  | .done state => .ended ⟨state, count + 1, true⟩
  | .yield state => .moving depth t state (count + 1)

/-- Takes a candidate, and goes on to the next depth if there is one. -/
def descend (depth v : Nat) (t : Tables q) (state : σ) (count : Nat) : Progress q σ :=
  match t.steps[depth]?, t.steps[depth + 1]? with
  | none, _ => .broken
  | some s, next? =>
    if s.vertex < q.pattern.size then
      if depth + 1 = q.pattern.size then
        report visit depth (t.take depth s.vertex v) state count
      else
        match next? with
        | none => .broken
        | some next =>
          if v < q.data.size then
            .moving (depth + 1) (((t.take depth s.vertex v).mark v true).enter (depth + 1) next)
              state count
          else .broken
    else .broken

/-- Goes back to the depth before, or ends at the first one. -/
def ascend (t : Tables q) (state : σ) (count : Nat) : Nat → Progress q σ
  | 0 => .ended ⟨state, count, false⟩
  | depth + 1 =>
    match t.steps[depth]? with
    | none => .broken
    | some s =>
      if s.vertex < q.pattern.size ∧ t.image s.vertex < q.data.size then
        .moving depth (t.mark (t.image s.vertex) false) state count
      else .broken

/-- One turn of the loop. -/
def move : Progress q σ → Progress q σ
  | .moving depth t state count =>
    if depth < q.pattern.size then
      match (t.list depth)[t.cursor depth]? with
      | some v => descend visit depth v t state count
      | none => ascend t state count depth
    else .broken
  | .ended run => .ended run
  | .broken => .broken

end Moves

/-- Where the loop begins. -/
def entry {σ : Type} (q : Query) (root? : Option Nat) (state : σ) : Progress q σ :=
  match root?.or (defaultRoot? q.pattern) with
  | none => .ended ⟨state, 0, false⟩
  | some root =>
    if q.pattern.size ≤ root ∨ q.data.size < q.pattern.size then .ended ⟨state, 0, false⟩
    else
      match countedPlan q.pattern root with
      | [] => .broken
      | s :: rest => .moving 0 ((Tables.start q (s :: rest)).enter 0 s) state 0

end Progress

end GraphDependency.Matching
