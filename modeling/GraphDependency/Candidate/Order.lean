import GraphDependency.Candidate.Index
import GraphDependency.Pattern.Core
import GraphDependency.Text.Numeral

set_option autoImplicit false

/-!
# Matching orders

The order in which an enumeration assigns the vertices of a pattern.  It is put
together from paths of the breadth-first tree: first the paths from the root to
the leaves of the core, then for each entry of the forest the paths from its core
vertex.  A path adds the vertices that are not placed yet.  Which path comes next
is decided by the number of embeddings that the index promises for it.

Main statement: `mem_placePath_iff`, what placing a path adds.
-/

namespace GraphDependency.Candidate

open GraphDependency.Pattern

/-- The vertices from `u` upwards to `top`, or to a vertex without a parent.  No
way up is longer than the number of levels. -/
def climb (t : Tree) (top : Nat) : Nat → Nat → List Nat
  | 0, u => [u]
  | height + 1, u =>
    if u = top then [u]
    else
      match t.parent? u with
      | none => [u]
      | some p => u :: climb t top height p

/-- The paths from `top` to those members that have no child among the members. -/
def treePaths (t : Tree) (members : List Nat) (top : Nat) : List (List Nat) :=
  (members.filter fun leaf => leaf != top && !(t.children leaf).any members.contains).map
    fun leaf => (climb t top t.levels.length leaf).reverse

/-- Addition that stops at the largest number of 64 binary digits. -/
def addCapped (a b : Nat) : Nat := min (a + b) Text.max64

/-- The sum of a list, stopping at the cap. -/
def sumCapped (ns : List Nat) : Nat := ns.foldl addCapped 0

/-- The weight of a data vertex, zero if it has none. -/
def weightOf (weights : List (Nat × Nat)) (y : Nat) : Nat :=
  ((weights.find? fun e => e.1 = y).map Prod.snd).getD 0

/-- The weights one step up a link table: of each key, the weights of the
candidates that it links to; weights of zero are dropped. -/
def weighLinks (links : Links) (weights : List (Nat × Nat)) : List (Nat × Nat) :=
  (links.map fun e => (e.1, sumCapped (e.2.map (weightOf weights)))).filter fun e => 0 < e.2

/-- The number of ways to follow the links along a path from the position `start`
on, capped. -/
def pathEmbeddings (i : Index) (path : List Nat) (start : Nat) : Nat :=
  match path.getLast? with
  | none => 0
  | some last =>
    let weights := (path.drop (start + 1)).foldr (fun u weights => weighLinks (i.links u) weights)
      ((i.candidates last).map fun y => (y, 1))
    sumCapped (weights.map Prod.snd)

/-- The number of ways to follow the links along a path, if the index knows the
vertices for which it is asked: the last one and those behind the start.  The
position after the start has to be a number of 64 binary digits. -/
def pathEmbeddings? (i : Index) (path : List Nat) (start : Nat) : Option Nat :=
  if path.isEmpty then some 0
  else if start < Text.max64
      && (path.getLast?.toList ++ path.drop (start + 1)).all
        fun u => u < i.candidateTable.size then
    some (pathEmbeddings i path start)
  else none

/-- A capped number as a floating-point number. -/
def toScore (n : Nat) : Float := n.toUInt64.toFloat

/-- The score of a first path: embeddings per edge that touches it and is not in
the tree; a path without such edges comes last. -/
def firstScore (i : Index) (t : Tree) (path : List Nat) : Float :=
  match t.nonTreeCount path with
  | 0 => 1.0 / 0.0
  | n => toScore (pathEmbeddings i path 0) / toScore n

/-- The position of the last vertex of a path that is placed, zero if none is. -/
def junction (placed path : List Nat) : Nat :=
  match path.reverse.findIdx? placed.contains with
  | some k => path.length - 1 - k
  | none => 0

/-- The score of a further path: embeddings of its unplaced part per candidate of
the vertex at which it branches off. -/
def nextScore (i : Index) (placed path : List Nat) : Float :=
  let j := junction placed path
  toScore (pathEmbeddings i path j) / toScore (max (i.candidates (path.getD j 0)).length 1)

/-- The first path of lowest score. -/
def lowest? (score : List Nat → Float) (paths : List (List Nat)) : Option (List Nat) :=
  (firstBest? (fun a b => a.1 < b.1) (paths.map fun path => (score path, path))).map Prod.snd

theorem mem_of_lowest? {score : List Nat → Float} {paths : List (List Nat)} {path : List Nat}
    (h : lowest? score paths = some path) : path ∈ paths := by
  obtain ⟨e, he, rfl⟩ := Option.map_eq_some_iff.mp h
  obtain ⟨p, hp, rfl⟩ := List.mem_map.mp (mem_of_firstBest? he)
  exact hp

/-- Adds the vertices of a path that are not placed yet. -/
def placePath (placed path : List Nat) : List Nat :=
  path.foldl (fun placed u => if placed.contains u then placed else placed ++ [u]) placed

/-- What placing a path adds. -/
theorem mem_placePath_iff {placed path : List Nat} {u : Nat} :
    u ∈ placePath placed path ↔ u ∈ placed ∨ u ∈ path := by
  unfold placePath
  induction path generalizing placed with
  | nil => simp
  | cons w path ih =>
    rw [List.foldl_cons, ih]
    by_cases h : placed.contains w = true
    · have hw : w ∈ placed := by simpa using h
      simp only [h, if_true, List.mem_cons]
      constructor
      · rintro (h | h)
        · exact Or.inl h
        · exact Or.inr (Or.inr h)
      · rintro (h | rfl | h)
        · exact Or.inl h
        · exact Or.inl hw
        · exact Or.inr h
    · rw [if_neg h]
      simp [or_assoc]

/-- Places the remaining paths, the one of lowest score first. -/
def placeRest (i : Index) (placed : List Nat) (paths : List (List Nat)) : List Nat :=
  match h : lowest? (nextScore i placed) paths with
  | none => placed
  | some path =>
    have : (paths.erase path).length < paths.length := by
      have hm := mem_of_lowest? h
      have := List.length_erase_of_mem hm
      have := List.length_pos_of_mem hm
      omega
    placeRest i (placePath placed path) (paths.erase path)
termination_by paths.length

/-- Places all paths of the core. -/
def placeCore (i : Index) (t : Tree) (paths : List (List Nat)) : List Nat :=
  match lowest? (firstScore i t) paths with
  | none => [t.root]
  | some path => placeRest i (placePath [] path) (paths.erase path)

/-- Places the paths of an entry of the forest. -/
def placeEntry (i : Index) (t : Tree) (d : Decomposition) (placed entry : List Nat) : List Nat :=
  match entry.find? d.inCore with
  | none => placed
  | some top => placeRest i placed (treePaths t entry top)

/-- The vertices of a pattern in the order of assignment. -/
structure Order where
  sequence : List Nat
  /-- The number of vertices placed for the core. -/
  coreLength : Nat
  deriving DecidableEq, Repr, Inhabited

/-- The matching order of a pattern. -/
def matchingOrder (t : Tree) (d : Decomposition) (i : Index) : Order :=
  let core := placeCore i t (treePaths t d.core t.root)
  ⟨d.forest.foldl (placeEntry i t d) core, core.length⟩

end GraphDependency.Candidate
