import GraphDependency.Candidate.Filter
import GraphDependency.Pattern.Tree

set_option autoImplicit false

/-!
# Candidate indexes

For every vertex of a pattern an index keeps a set of candidates in a data
graph.  For every vertex with a parent in a breadth-first tree it also keeps
links: for a candidate of the parent, the candidates that it is joined to by an
edge with the label of the pattern edge.

An index is built from the root downwards and then refined: once upwards, so
that a candidate has links to every child, and once downwards, so that it has a
link from its parent.  All sets are ascending lists, and the links of a vertex
ascend with the candidates of its parent; an index carries the proof of it, so
whatever is written into one has to be in order.

Main statements: `candidates_setCandidates` and `links_setLinks`, reading after
writing, and `candidates_ascending` and `links_ordered`, whatever is read is in order.
-/

namespace GraphDependency.Candidate

open GraphDependency.Pattern

/-- The candidates of a vertex by the parent candidates that they are linked to. -/
abbrev Links : Type := List (Nat × List Nat)

/-- Ascending by the candidate of the parent, and so are the candidates linked to it. -/
def Links.Ordered (l : Links) : Prop :=
  l.Pairwise (fun e f => e.1 < f.1) ∧ ∀ e ∈ l, e.2.Pairwise (· < ·)

/-- The link of a candidate of the parent to some candidates, unless there are none. -/
def linkTo? (x : Nat) : List Nat → Option (Nat × List Nat)
  | [] => none
  | ys => some (x, ys)

theorem linkTo?_eq_some_iff {x : Nat} {ys : List Nat} {e : Nat × List Nat} :
    linkTo? x ys = some e ↔ ys ≠ [] ∧ e = (x, ys) := by
  cases ys <;> simp [linkTo?, eq_comm]

instance (l : Links) : Decidable (Links.Ordered l) :=
  inferInstanceAs (Decidable (l.Pairwise (fun e f => e.1 < f.1) ∧ ∀ e ∈ l, e.2.Pairwise (· < ·)))

namespace Links.Ordered

variable {l : Links}

theorem nil : Links.Ordered [] := ⟨List.Pairwise.nil, nofun⟩

/-- Leaving out links keeps the order. -/
theorem filter (h : Links.Ordered l) (f : Nat × List Nat → Bool) : Links.Ordered (l.filter f) :=
  ⟨h.1.filter f, fun e he => h.2 e (List.mem_filter.mp he).1⟩

/-- Links from ascending candidates to ascending ones are ordered. -/
theorem of_targets {α : Type} {as : List α} {key : α → Nat} {targets : α → List Nat}
    (hkeys : as.Pairwise fun a b => key a < key b)
    (htargets : ∀ a ∈ as, (targets a).Pairwise (· < ·)) :
    Links.Ordered (as.filterMap fun a => linkTo? (key a) (targets a)) := by
  constructor
  · refine List.pairwise_filterMap.mpr (hkeys.imp fun hlt e he f hf => ?_)
    rwa [(linkTo?_eq_some_iff.mp he).2, (linkTo?_eq_some_iff.mp hf).2]
  · intro e he
    obtain ⟨a, ha, hlink⟩ := List.mem_filterMap.mp he
    rw [(linkTo?_eq_some_iff.mp hlink).2]
    exact htargets a ha

end Links.Ordered

/-- Candidates and links of every pattern vertex. -/
structure Index where
  candidateTable : Array (List Nat)
  linkTable : Array Links
  candidateTable_ordered : ∀ c ∈ candidateTable, c.Pairwise (· < ·)
  linkTable_ordered : ∀ l ∈ linkTable, Links.Ordered l
  deriving DecidableEq, Repr

namespace Index

/-- The index of `n` pattern vertices without candidates. -/
def empty (n : Nat) : Index where
  candidateTable := Array.replicate n []
  linkTable := Array.replicate n []
  candidateTable_ordered _ hc := (Array.mem_replicate.mp hc).2 ▸ List.Pairwise.nil
  linkTable_ordered _ hl := (Array.mem_replicate.mp hl).2 ▸ Links.Ordered.nil

instance : Inhabited Index := ⟨empty 0⟩

/-- The candidates of a pattern vertex. -/
def candidates (i : Index) (u : Nat) : List Nat := (i.candidateTable[u]?).getD []

/-- The links of a pattern vertex. -/
def links (i : Index) (u : Nat) : Links := (i.linkTable[u]?).getD []

/-- The candidates of `u` linked to a candidate of its parent; none if there is
no such link. -/
def linked (i : Index) (u parentCandidate : Nat) : List Nat :=
  (((i.links u).find? fun e => e.1 = parentCandidate).map Prod.snd).getD []

/-- Some candidate of `u` is linked to the candidate of its parent. -/
def hasLink (i : Index) (u parentCandidate : Nat) : Bool :=
  (i.links u).any fun e => e.1 = parentCandidate

/-- The number of candidates of all pattern vertices together. -/
def totalCandidates (i : Index) : Nat :=
  i.candidateTable.foldl (fun n c => n + c.length) 0

/-- The candidates of a vertex are ascending, so none is repeated. -/
theorem candidates_ascending (i : Index) (u : Nat) : (i.candidates u).Pairwise (· < ·) := by
  unfold candidates
  cases h : i.candidateTable[u]? with
  | none => exact List.Pairwise.nil
  | some c => exact i.candidateTable_ordered c (Array.mem_of_getElem? h)

theorem links_ordered (i : Index) (u : Nat) : Links.Ordered (i.links u) := by
  unfold links
  cases h : i.linkTable[u]? with
  | none => exact Links.Ordered.nil
  | some l => exact i.linkTable_ordered l (Array.mem_of_getElem? h)

/-- Replaces the candidates of a pattern vertex by an ascending list. -/
def setCandidates (i : Index) (u : Nat) (c : List Nat) (h : c.Pairwise (· < ·)) : Index where
  candidateTable := i.candidateTable.setIfInBounds u c
  linkTable := i.linkTable
  candidateTable_ordered _ hc :=
    (Array.mem_or_eq_of_mem_setIfInBounds hc).elim (i.candidateTable_ordered _) (· ▸ h)
  linkTable_ordered := i.linkTable_ordered

/-- Replaces the links of a pattern vertex by ordered ones. -/
def setLinks (i : Index) (u : Nat) (l : Links) (h : Links.Ordered l) : Index where
  candidateTable := i.candidateTable
  linkTable := i.linkTable.setIfInBounds u l
  candidateTable_ordered := i.candidateTable_ordered
  linkTable_ordered _ hl :=
    (Array.mem_or_eq_of_mem_setIfInBounds hl).elim (i.linkTable_ordered _) (· ▸ h)

/-- Keeps the candidates of a pattern vertex that have a property. -/
def filterCandidates (i : Index) (u : Nat) (f : Nat → Bool) : Index :=
  i.setCandidates u ((i.candidates u).filter f) ((i.candidates_ascending u).filter f)

/-- Keeps the links of a pattern vertex that have a property. -/
def filterLinks (i : Index) (u : Nat) (f : Nat × List Nat → Bool) : Index :=
  i.setLinks u ((i.links u).filter f) ((i.links_ordered u).filter f)

theorem candidates_setCandidates (i : Index) {u w : Nat} {c : List Nat} {hc : c.Pairwise (· < ·)}
    (h : u < i.candidateTable.size) :
    (i.setCandidates u c hc).candidates w = if u = w then c else i.candidates w := by
  simp only [candidates, setCandidates, Array.getElem?_setIfInBounds]
  by_cases hw : u = w
  · subst hw; simp [h]
  · simp [hw]

theorem links_setLinks (i : Index) {u w : Nat} {l : Links} {hl : Links.Ordered l}
    (h : u < i.linkTable.size) :
    (i.setLinks u l hl).links w = if u = w then l else i.links w := by
  simp only [links, setLinks, Array.getElem?_setIfInBounds]
  by_cases hw : u = w
  · subst hw; simp [h]
  · simp [hw]

@[simp] theorem links_setCandidates (i : Index) (u w : Nat) (c : List Nat)
    (h : c.Pairwise (· < ·)) : (i.setCandidates u c h).links w = i.links w := rfl

@[simp] theorem candidates_setLinks (i : Index) (u w : Nat) (l : Links) (h : Links.Ordered l) :
    (i.setLinks u l h).candidates w = i.candidates w := rfl

end Index

/-! ## Counting rounds

A pattern vertex is to be adjacent to several other ones.  In one round for each
of them, the data vertices next to its candidates are counted, each at most
once; a data vertex survives if it was counted in every round. -/

/-- The number of rounds in a row in which each data vertex was counted, and the
number of rounds. -/
structure RoundCounter where
  counts : Array Nat
  rounds : Nat
  deriving DecidableEq, Repr, Inhabited

namespace RoundCounter

/-- No round over `n` data vertices. -/
def start (n : Nat) : RoundCounter := ⟨Array.replicate n 0, 0⟩

/-- The number of rounds in a row from the first one on. -/
def count (r : RoundCounter) (y : Nat) : Nat := (r.counts[y]?).getD 0

/-- Counts a data vertex that was counted in every round before this one. -/
def hit (r : RoundCounter) (y : Nat) : RoundCounter :=
  if r.count y = r.rounds then { r with counts := r.counts.setIfInBounds y (r.rounds + 1) } else r

/-- The neighbors of a list of data vertices that have label and degree of `u`. -/
def reached (data pattern : Graph) (u : Nat) (sources : List Nat) : List Nat :=
  sources.flatMap fun x => (data.neighbors x).filter fun y => labelDegreeOk data y pattern u

/-- A round: counts the data vertices next to the sources. -/
def round (r : RoundCounter) (data pattern : Graph) (u : Nat) (sources : List Nat) :
    RoundCounter :=
  let r := (reached data pattern u sources).foldl hit r
  { r with rounds := r.rounds + 1 }

/-- A round for every list of sources. -/
def run (data pattern : Graph) (u : Nat) (sources : List (List Nat)) : RoundCounter :=
  sources.foldl (fun r s => r.round data pattern u s) (start data.size)

/-- The vertex was counted in every round. -/
def hitEveryRound (r : RoundCounter) (y : Nat) : Bool := r.count y == r.rounds

end RoundCounter

/-! ## Building an index -/

namespace Index

/-- The candidates of the root: the data vertices that pass the local filters. -/
def rootCandidates (data : Graph) (t : Tree) : List Nat :=
  (data.withLabel (t.pattern.label t.root)).filter fun v =>
    labelDegreeOk data v t.pattern t.root && verify data v t.pattern t.root

theorem pairwise_rootCandidates (data : Graph) (t : Tree) :
    (rootCandidates data t).Pairwise (· < ·) :=
  (data.pairwise_withLabel _).filter _

/-- The candidates of `u` next to candidates of all its neighbors visited so far. -/
def foundCandidates (data : Graph) (t : Tree) (i : Index) (visited : List Nat) (u : Nat) :
    List Nat :=
  let around := (t.pattern.neighbors u).filter visited.contains
  let counter := RoundCounter.run data t.pattern u (around.map i.candidates)
  data.ids.filter fun y =>
    0 < counter.count y && counter.hitEveryRound y && verify data y t.pattern u

theorem pairwise_foundCandidates (data : Graph) (t : Tree) (i : Index) (visited : List Nat)
    (u : Nat) : (foundCandidates data t i visited u).Pairwise (· < ·) :=
  data.pairwise_ids.filter _

/-- Finds candidates for the vertices of a level in order; a vertex takes the
ones before it into account. -/
def fillLevel (data : Graph) (t : Tree) (i : Index) (visited : List Nat) :
    List Nat → Index
  | [] => i
  | u :: rest =>
    fillLevel data t (i.setCandidates u (foundCandidates data t i visited u)
      (pairwise_foundCandidates data t i visited u)) (u :: visited) rest

/-- The neighbors of `u` behind it in its level. -/
def pending (t : Tree) (u : Nat) (behind : List Nat) : List Nat :=
  (t.pattern.neighbors u).filter fun w => behind.contains w && t.isSameLevelEdge u w

/-- Drops the candidates of `u` that are not next to candidates of all its
neighbors behind it in the level. -/
def dropPending (data : Graph) (t : Tree) (i : Index) (u : Nat) (behind : List Nat) : Index :=
  match pending t u behind with
  | [] => i
  | ws =>
    let counter := RoundCounter.run data t.pattern u (ws.map i.candidates)
    i.filterCandidates u counter.hitEveryRound

/-- Goes through a level backwards, dropping candidates. -/
def settleLevel (data : Graph) (t : Tree) (i : Index) : List Nat → Index
  | [] => i
  | u :: behind => dropPending data t (settleLevel data t i behind) u behind

/-- The candidates of `u` next to `x` along an edge with the given label. -/
def nextTo (data : Graph) (i : Index) (u x : Nat) (label : String) : List Nat :=
  let next := ((data.incident x).filter fun e => e.2 == label).map Prod.fst
  (i.candidates u).filter next.contains

/-- The links of `u` from the candidates of its parent `p`, along edges with the
given label. -/
def linksFrom (data : Graph) (i : Index) (p u : Nat) (label : String) : Links :=
  (i.candidates p).filterMap fun x => linkTo? x (nextTo data i u x label)

theorem linksFrom_ordered (data : Graph) (i : Index) (p u : Nat) (label : String) :
    Links.Ordered (linksFrom data i p u label) :=
  Links.Ordered.of_targets (i.candidates_ascending p) fun _ _ =>
    (i.candidates_ascending u).filter _

/-- Links a vertex to its parent. -/
def linkVertex (data : Graph) (t : Tree) (i : Index) (u : Nat) : Index :=
  match t.parent? u with
  | none => i
  | some p =>
    match t.pattern.edgeLabel? p u with
    | none => i
    | some label => i.setLinks u (linksFrom data i p u label) (linksFrom_ordered data i p u label)

/-- Candidates and links for a level below the visited vertices. -/
def buildLevel (data : Graph) (t : Tree) (i : Index) (visited level : List Nat) : Index :=
  level.foldl (linkVertex data t)
    (settleLevel data t (fillLevel data t i visited level) level)

/-- Candidates and links for the remaining levels. -/
def buildLevels (data : Graph) (t : Tree) : Index → List Nat → List (List Nat) → Index
  | i, _, [] => i
  | i, visited, level :: rest =>
    buildLevels data t (buildLevel data t i visited level) (level ++ visited) rest

/-- Builds an index from the root downwards. -/
def build (data : Graph) (t : Tree) : Index :=
  buildLevels data t
    ((empty t.pattern.size).setCandidates t.root (rootCandidates data t)
      (pairwise_rootCandidates data t))
    [t.root] t.levels.tail

/-! ## Refining an index -/

/-- The links to candidates of `c`, without those that lead nowhere. -/
def keptLinks (i : Index) (c : Nat) : Links :=
  let targets := i.candidates c
  (i.links c).filterMap fun e => linkTo? e.1 (e.2.filter targets.contains)

theorem keptLinks_ordered (i : Index) (c : Nat) : Links.Ordered (i.keptLinks c) :=
  Links.Ordered.of_targets (i.links_ordered c).1 fun e he =>
    ((i.links_ordered c).2 e he).filter _

/-- Keeps the links to candidates of `c` and drops those that lead nowhere. -/
def pruneLinks (i : Index) (c : Nat) : Index := i.setLinks c (i.keptLinks c) (keptLinks_ordered i c)

/-- Drops the links of `c` from the given candidates of its parent. -/
def dropLinks (i : Index) (removed : List Nat) (c : Nat) : Index :=
  i.filterLinks c fun e => !removed.contains e.1

/-- Drops the candidates of `u` that have no neighbor among the candidates of
some child, or no link to it. -/
def pruneUp (data : Graph) (t : Tree) (i : Index) (u : Nat) : Index :=
  match t.children u with
  | [] => i
  | children =>
    let counter := RoundCounter.run data t.pattern u (children.map i.candidates)
    let i := children.foldl pruneLinks i
    let removed := (i.candidates u).filter fun x =>
      !counter.hitEveryRound x || children.any fun c => !i.hasLink c x
    let i := i.filterCandidates u fun x => !removed.contains x
    children.foldl (dropLinks · removed) i

/-- Keeps the links from candidates of the parent, and the candidates of `u` that
they lead to. -/
def pruneDown (t : Tree) (i : Index) (u : Nat) : Index :=
  match t.parent? u with
  | none => i
  | some p =>
    let parents := i.candidates p
    let reachable := ((i.links u).filter fun e => parents.contains e.1).flatMap Prod.snd
    (i.filterLinks u fun e => parents.contains e.1).filterCandidates u reachable.contains

/-- Refines an index: upwards from the last level, then downwards from the
second one. -/
def refine (data : Graph) (t : Tree) (i : Index) : Index :=
  let i := t.levels.reverse.flatten.foldl (pruneUp data t) i
  t.levels.tail.flatten.foldl (pruneDown t) i

end Index

end GraphDependency.Candidate
