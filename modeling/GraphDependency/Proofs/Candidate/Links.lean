import GraphDependency.Candidate.Index
import GraphDependency.Proofs.Graph.Adjacency

set_option autoImplicit false

/-!
# Links

What the operations on an index do to its candidates and to its links, said by
membership: a candidate is linked to one of its parent if the table has an entry
for the parent candidate that lists it.

Main statements: `mem_linked_iff`, `mem_linksFrom_iff`, `mem_links_pruneLinks_iff`
and `mem_links_dropLinks_iff`.
-/

namespace GraphDependency.Candidate.Index

open GraphDependency.Pattern

variable {data : Graph} {t : Tree} {i : Index} {u c w x y p : Nat} {ys : List Nat}
  {label : String}

/-- The candidate `y` of `u` is linked to the candidate `x` of its parent. -/
def Linked (i : Index) (u x y : Nat) : Prop := ∃ ys, (x, ys) ∈ i.links u ∧ y ∈ ys

/-! ## Order -/

theorem keys_ascending (i : Index) (u : Nat) : ((i.links u).map Prod.fst).Pairwise (· < ·) :=
  List.pairwise_map.mpr (i.links_ordered u).1

/-- There is one entry for every key. -/
theorem nodup_keys (i : Index) (u : Nat) : ((i.links u).map Prod.fst).Nodup :=
  (i.keys_ascending u).imp Nat.ne_of_lt

theorem nodup_candidates (i : Index) (u : Nat) : (i.candidates u).Nodup :=
  (i.candidates_ascending u).imp Nat.ne_of_lt

theorem targets_ascending (h : (x, ys) ∈ i.links u) : ys.Pairwise (· < ·) :=
  (i.links_ordered u).2 (x, ys) h

/-! ## Looking up -/

/-- Looking up a key finds its entry. -/
theorem linked_eq_of_mem (h : (x, ys) ∈ i.links u) : i.linked u x = ys := by
  unfold linked
  cases hf : (i.links u).find? fun e => e.1 = x with
  | none =>
    have := List.find?_eq_none.mp hf _ h
    simp at this
  | some e =>
    have hx : e.1 = x := by simpa using List.find?_some hf
    rw [List.inj_on_of_nodup_map (i.nodup_keys u) (List.mem_of_find?_eq_some hf) h hx]
    rfl

theorem mem_linked_iff : y ∈ i.linked u x ↔ i.Linked u x y := by
  constructor
  · intro h
    unfold linked at h
    cases hf : (i.links u).find? fun e => e.1 = x with
    | none => simp [hf] at h
    | some e =>
      have hx : e.1 = x := by simpa using List.find?_some hf
      exact ⟨e.2, hx ▸ List.mem_of_find?_eq_some hf, by simpa [hf] using h⟩
  · rintro ⟨ys, hmem, hy⟩
    rwa [linked_eq_of_mem hmem]

/-- Whatever is linked to a candidate of the parent is listed in ascending order. -/
theorem linked_ascending (i : Index) (u x : Nat) : (i.linked u x).Pairwise (· < ·) := by
  by_cases h : ∃ ys, (x, ys) ∈ i.links u
  · obtain ⟨ys, hmem⟩ := h
    rw [linked_eq_of_mem hmem]
    exact targets_ascending hmem
  · have hnil : i.linked u x = [] := List.eq_nil_iff_forall_not_mem.mpr fun y hy =>
      have ⟨ys, hmem, _⟩ := mem_linked_iff.mp hy
      h ⟨ys, hmem⟩
    rw [hnil]
    exact List.Pairwise.nil

theorem hasLink_iff : i.hasLink u x = true ↔ ∃ ys, (x, ys) ∈ i.links u := by
  simp [hasLink]

/-! ## Writing -/

section Writing

variable {cs : List Nat} {hcs : cs.Pairwise (· < ·)} {l : Links} {hl : Links.Ordered l}

theorem candidates_setCandidates_eq_or (i : Index) (u w : Nat) :
    (i.setCandidates u cs hcs).candidates w = cs ∧ u = w
      ∨ (i.setCandidates u cs hcs).candidates w = i.candidates w := by
  by_cases h : u < i.candidateTable.size
  · rw [candidates_setCandidates i h]
    by_cases hw : u = w
    · exact Or.inl ⟨if_pos hw, hw⟩
    · exact Or.inr (if_neg hw)
  · right
    simp [candidates, setCandidates, Array.setIfInBounds_eq_of_size_le (Nat.le_of_not_lt h)]

theorem links_setLinks_eq_or (i : Index) (u w : Nat) :
    (i.setLinks u l hl).links w = l ∧ u = w ∨ (i.setLinks u l hl).links w = i.links w := by
  by_cases h : u < i.linkTable.size
  · rw [links_setLinks i h]
    by_cases hw : u = w
    · exact Or.inl ⟨if_pos hw, hw⟩
    · exact Or.inr (if_neg hw)
  · right
    simp [links, setLinks, Array.setIfInBounds_eq_of_size_le (Nat.le_of_not_lt h)]

theorem candidates_setCandidates_of_ne (h : u ≠ w) :
    (i.setCandidates u cs hcs).candidates w = i.candidates w :=
  (candidates_setCandidates_eq_or i u w).resolve_left fun heq => h heq.2

theorem links_setLinks_of_ne (h : u ≠ w) : (i.setLinks u l hl).links w = i.links w :=
  (links_setLinks_eq_or i u w).resolve_left fun heq => h heq.2

@[simp] theorem size_candidateTable_setCandidates (i : Index) (u : Nat) :
    (i.setCandidates u cs hcs).candidateTable.size = i.candidateTable.size := by
  simp [setCandidates]

@[simp] theorem size_linkTable_setLinks (i : Index) (u : Nat) :
    (i.setLinks u l hl).linkTable.size = i.linkTable.size := by
  simp [setLinks]

end Writing

/-- Filtering leaves the candidates that have the property. -/
theorem candidates_filterCandidates {f : Nat → Bool} (h : u < i.candidateTable.size) :
    (i.filterCandidates u f).candidates w
      = if u = w then (i.candidates u).filter f else i.candidates w :=
  candidates_setCandidates i h

theorem links_filterLinks {f : Nat × List Nat → Bool} (h : u < i.linkTable.size) :
    (i.filterLinks u f).links w = if u = w then (i.links u).filter f else i.links w :=
  links_setLinks i h

@[simp] theorem links_filterCandidates (i : Index) (u w : Nat) (f : Nat → Bool) :
    (i.filterCandidates u f).links w = i.links w := rfl

@[simp] theorem candidates_filterLinks (i : Index) (u w : Nat) (f : Nat × List Nat → Bool) :
    (i.filterLinks u f).candidates w = i.candidates w := rfl

@[simp] theorem size_linkTable_filterCandidates (i : Index) (u : Nat) (f : Nat → Bool) :
    (i.filterCandidates u f).linkTable.size = i.linkTable.size := rfl

@[simp] theorem size_candidateTable_filterLinks (i : Index) (u : Nat)
    (f : Nat × List Nat → Bool) :
    (i.filterLinks u f).candidateTable.size = i.candidateTable.size := rfl

@[simp] theorem size_linkTable_filterLinks (i : Index) (u : Nat) (f : Nat × List Nat → Bool) :
    (i.filterLinks u f).linkTable.size = i.linkTable.size :=
  size_linkTable_setLinks i u

@[simp] theorem links_fillLevel (data : Graph) (t : Tree) (i : Index) (visited level : List Nat)
    (w : Nat) : (fillLevel data t i visited level).links w = i.links w := by
  induction level generalizing i visited with
  | nil => rfl
  | cons u rest ih => rw [fillLevel, ih, links_setCandidates]

@[simp] theorem links_dropPending (data : Graph) (t : Tree) (i : Index) (u : Nat)
    (behind : List Nat) (w : Nat) : (dropPending data t i u behind).links w = i.links w := by
  unfold dropPending
  split <;> rfl

@[simp] theorem links_settleLevel (data : Graph) (t : Tree) (i : Index) (level : List Nat)
    (w : Nat) : (settleLevel data t i level).links w = i.links w := by
  induction level with
  | nil => rfl
  | cons u behind ih => rw [settleLevel, links_dropPending, ih]

/-! ## Linking -/

@[simp] theorem candidates_linkVertex (data : Graph) (t : Tree) (i : Index) (u w : Nat) :
    (linkVertex data t i u).candidates w = i.candidates w := by
  unfold linkVertex
  split
  · rfl
  · split <;> rfl

theorem nextTo_eq (data : Graph) (i : Index) (u x : Nat) (label : String) :
    nextTo data i u x label
      = (i.candidates u).filter fun y => data.edgeLabel? x y = some label := by
  refine List.filter_congr fun y _ => ?_
  rw [Bool.eq_iff_iff, List.contains_iff_mem, decide_eq_true_eq,
    ← Graph.mem_incident_iff_edgeLabel?]
  simp

/-- An entry for a parent candidate lists the candidates next to it, and there is
one only if there are any. -/
theorem mem_linksFrom_iff :
    (x, ys) ∈ linksFrom data i p u label
      ↔ x ∈ i.candidates p ∧ ys ≠ []
        ∧ ys = (i.candidates u).filter fun y => data.edgeLabel? x y = some label := by
  rw [linksFrom, List.mem_filterMap]
  simp only [linkTo?_eq_some_iff, nextTo_eq, Prod.mk.injEq]
  constructor
  · rintro ⟨z, hz, hne, rfl, rfl⟩
    exact ⟨hz, hne, rfl⟩
  · rintro ⟨hx, hne, rfl⟩
    exact ⟨x, hx, hne, rfl, rfl⟩

/-! ## Pruning -/

@[simp] theorem candidates_pruneLinks (i : Index) (c w : Nat) :
    (pruneLinks i c).candidates w = i.candidates w := rfl

@[simp] theorem candidates_dropLinks (i : Index) (removed : List Nat) (c w : Nat) :
    (dropLinks i removed c).candidates w = i.candidates w := rfl

/-- Pruning links drops the targets that are no candidates, and the entries that are
left without a target. -/
theorem mem_links_pruneLinks_iff (hc : c < i.linkTable.size) :
    (x, ys) ∈ (pruneLinks i c).links w
      ↔ if c = w then ys ≠ [] ∧ ∃ zs, (x, zs) ∈ i.links c
            ∧ ys = zs.filter (i.candidates c).contains
        else (x, ys) ∈ i.links w := by
  rw [pruneLinks, links_setLinks i hc]
  split
  · rw [keptLinks, List.mem_filterMap]
    simp only [linkTo?_eq_some_iff, Prod.mk.injEq]
    constructor
    · rintro ⟨⟨z, zs⟩, hz, hne, rfl, rfl⟩
      exact ⟨hne, zs, hz, rfl⟩
    · rintro ⟨hne, zs, hz, rfl⟩
      exact ⟨(x, zs), hz, hne, rfl, rfl⟩
  · exact Iff.rfl

theorem mem_links_dropLinks_iff {removed : List Nat} (hc : c < i.linkTable.size) :
    (x, ys) ∈ (dropLinks i removed c).links w
      ↔ (x, ys) ∈ i.links w ∧ (c = w → x ∉ removed) := by
  rw [dropLinks, links_filterLinks hc]
  split
  · rename_i h
    subst h
    simp
  · rename_i h
    simp [h]

@[simp] theorem candidates_foldl_pruneLinks (i : Index) (cs : List Nat) (w : Nat) :
    (cs.foldl pruneLinks i).candidates w = i.candidates w := by
  induction cs generalizing i with
  | nil => rfl
  | cons c cs ih => rw [List.foldl_cons, ih, candidates_pruneLinks]

/-! ## Steps of a refinement -/

/-- The candidates of `u` that the step upwards at `u` drops. -/
def droppedAt (data : Graph) (t : Tree) (i : Index) (u : Nat) : List Nat :=
  (i.candidates u).filter fun x =>
    !(RoundCounter.run data t.pattern u ((t.children u).map i.candidates)).hitEveryRound x
      || (t.children u).any fun c => !((t.children u).foldl pruneLinks i).hasLink c x

/-- A step upwards prunes the links to the children, drops candidates, and then
their links. -/
theorem pruneUp_eq (data : Graph) (t : Tree) (i : Index) {u : Nat} (h : t.children u ≠ []) :
    pruneUp data t i u
      = (t.children u).foldl (dropLinks · (droppedAt data t i u))
          (((t.children u).foldl pruneLinks i).filterCandidates u
            fun x => !(droppedAt data t i u).contains x) := by
  unfold pruneUp
  split
  · rename_i hnil
    exact absurd hnil h
  · simp only [droppedAt, candidates_foldl_pruneLinks]

theorem pruneUp_eq_self (data : Graph) (t : Tree) (i : Index) {u : Nat}
    (h : t.children u = []) : pruneUp data t i u = i := by
  unfold pruneUp
  rw [h]

end GraphDependency.Candidate.Index
