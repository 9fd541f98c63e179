import GraphDependency.Candidate.Cursor
import GraphDependency.Validation.Exhaustive

set_option autoImplicit false

/-!
# Validation along an index

The pattern is matched along an index of candidates: a cursor runs through the
assignments of the core, and at each of them through its extensions to the forest.
Where the literals of one side refer to core vertices only, an assignment of the
core can decide it, and the forest is searched for one extension or not at all.

Main statement: `testCore_frame`, a test of the core leaves the positions of the core as
they are.
-/

namespace GraphDependency.Validation

open GraphDependency.Pattern GraphDependency.Candidate GraphDependency.Matching

/-- A pattern made ready for matching in a data graph. -/
structure Preparation where
  decomposition : Decomposition
  tree : Tree
  index : Index
  order : Order
  deriving Repr

/-- Makes a pattern ready for matching from the given root, if it is a vertex. -/
def prepareFrom? (data pattern : Graph) (root : Nat) : Option Preparation :=
  (Tree.build? pattern root).map fun tree =>
    let decomposition := decompose pattern
    let index := (Index.build data tree).refine data tree
    ⟨decomposition, tree, index, matchingOrder tree decomposition index⟩

/-- Makes a pattern ready for matching, from a vertex of its core. -/
def prepare? (data pattern : Graph) : Option Preparation :=
  (selectRoot? pattern data (decompose pattern).core).bind (prepareFrom? data pattern)

/-- Literals that refer to core vertices only. -/
def onCore (decomposition : Decomposition) (literals : List Literal) : Bool :=
  literals.all fun l => l.indices.all decomposition.inCore

/-- Whether the literals hold under an assignment of the core, if they are about the
core only. -/
def coreVerdict (data : Graph) (decomposition : Decomposition) (embedding : Embedding)
    (literals : List Literal) : Option Bool :=
  if onCore decomposition literals then some (satisfied data embedding literals) else none

/-- Counts an embedding of the whole pattern.  A counterexample ends the search and
frees the positions from `lo` on. -/
def testEmbedding (k : Course) (d : Dependency) (lo count : Nat) (c : Cursor) :
    ForInStep (Nat × Cursor) :=
  if d.satisfiedBy k.data c.mapping then .yield (count + 1, c)
  else .done (count + 1, c.releaseRange lo k.length)

theorem eq_of_testEmbedding {k : Course} {d : Dependency} {lo count count' : Nat}
    {c c' : Cursor} (h : testEmbedding k d lo count c = .yield (count', c')) : c' = c := by
  unfold testEmbedding at h
  split at h
  · cases h
    rfl
  · cases h

/-- A test of every way to fill the positions up to the last one. -/
def embeddingVisitor (k : Course) (d : Dependency) (lo : Nat) : Cursor.Visitor Nat k.length where
  visit := testEmbedding k d lo
  frame h i _ := by rw [eq_of_testEmbedding h]

/-- Looks for a counterexample among the extensions of an assignment of the core, as
far as it does not decide for all of them: if it fails the premises or satisfies the
conclusion there is none, and if it does neither, any extension is one. -/
def testCore (k : Course) (d : Dependency) (decomposition : Decomposition) (coreLength : Nat)
    (count : Nat) (c : Cursor) : ForInStep (Nat × Cursor) :=
  if coreLength < k.length then
    match coreVerdict k.data decomposition c.mapping d.premises,
      coreVerdict k.data decomposition c.mapping d.conclusion with
    | some false, _ => .yield (count, c)
    | _, some true => .yield (count, c)
    | some true, some false =>
      match c.next k coreLength k.length false with
      | (true, c) => .done (count + 1, c.releaseRange coreLength k.length)
      | (false, c) => .yield (count, c)
    | _, _ => Cursor.visitRange k coreLength k.length (embeddingVisitor k d coreLength) count c
  else testEmbedding k d coreLength count c

theorem testCore_frame {k : Course} {d : Dependency} {decomposition : Decomposition}
    {coreLength count count' : Nat} {c c' : Cursor}
    (h : testCore k d decomposition coreLength count c = .yield (count', c')) (i : Nat)
    (hi : i < coreLength) : c'.slot i = c.slot i := by
  unfold testCore at h
  split at h
  · rename_i hlt
    split at h
    · cases h
      rfl
    · cases h
      rfl
    · split at h
      · cases h
      · rename_i hnext
        cases h
        have := Cursor.next_frame k c coreLength k.length false hi
        rwa [hnext] at this
    · exact Cursor.visitRange_frame (Nat.le_of_lt hlt) h hi
  · rw [eq_of_testEmbedding h]

/-- Searches for a counterexample; counts the embeddings tested. -/
def searchIndexed (data : Graph) (d : Dependency) (prep : Preparation) : ForInStep Nat :=
  let k := Course.ofOrder data prep.index prep.tree prep.order
  let core := prep.order.coreLength
  let visitor : Cursor.Visitor Nat core :=
    ⟨testCore k d prep.decomposition core, testCore_frame⟩
  Cursor.forget (Cursor.visitRange k 0 core visitor 0 (.start k))

/-- Checks one dependency.  Only the empty pattern cannot be made ready, and it
holds trivially. -/
def checkIndexed (data : Graph) (d : Dependency) : Outcome × Stats :=
  if d.triviallyHolds data then (.holds, .zero)
  else
    match prepare? data d.pattern with
    | none => (.holds, .zero)
    | some prep =>
      match searchIndexed data d prep with
      | .done count => (.violated, ⟨1, count⟩)
      | .yield count => (.holds, ⟨1, count⟩)

/-- Checks every dependency. -/
def indexed (data : Graph) (ds : List Dependency) : List Outcome × Stats :=
  collect (ds.map (checkIndexed data))

end GraphDependency.Validation
