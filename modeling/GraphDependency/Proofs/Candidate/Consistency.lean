import Mathlib.Data.List.Sort
import GraphDependency.Proofs.Candidate.Completeness
import GraphDependency.Proofs.Candidate.Order

set_option autoImplicit false

/-!
# Candidates and links agree

A built index links its candidates.  Going upwards through the tree, refining then
makes sure that every candidate has links to all children, and that links lead to
candidates; going downwards, that links come from candidates, and that every
candidate has a link from its parent.  Neither way undoes what was reached before:
upwards a vertex is met before its parent, downwards after it.

Main statements: `Raised.pruneUp` and `Lowered.pruneDown` (what one step reaches),
`Raised.foldl_pruneUp` and `Lowered.foldl_pruneDown` (what a whole way reaches), and
`refined_consistent`.
-/

namespace GraphDependency.Candidate.Index

open GraphDependency.Pattern

variable {data : Graph} {t : Tree} {i : Index} {u w x y p : Nat} {ys : List Nat}
  {label : String} {done : List Nat}

/-! ## The order of the tree -/

theorem parentsFirst_of_forall {before vs : List Nat}
    (h : ∀ u ∈ vs, ∀ p, t.parent? u = some p → p ∈ before) : ParentsFirst t before vs := by
  induction vs generalizing before with
  | nil => trivial
  | cons u rest ih =>
    obtain ⟨hu, hrest⟩ := List.forall_mem_cons.mp h
    exact ⟨hu, ih fun w hw p hp => List.mem_cons_of_mem u (hrest w hw p hp)⟩

theorem Layered.parentsFirst {before : List Nat} {levels : List (List Nat)}
    (h : Layered t before levels) : ParentsFirst t before levels.flatten := by
  induction levels generalizing before with
  | nil => trivial
  | cons level rest ih =>
    exact parentsFirst_append.mpr
      ⟨parentsFirst_of_forall fun u hu p hp => h.parent_mem hu hp, ih h.2⟩

/-! ## What stays true -/

/-- Every entry lists something, and candidates of a vertex and of its parent are linked
if an edge with the label of the pattern edge joins them. -/
structure Joined (data : Graph) (t : Tree) (i : Index) : Prop where
  nonempty : ∀ u p, t.parent? u = some p → ∀ x ys, (x, ys) ∈ i.links u → ys ≠ []
  linked : ∀ u p label, t.parent? u = some p → t.pattern.edgeLabel? p u = some label →
    ∀ x ∈ i.candidates p, ∀ y ∈ i.candidates u, data.edgeLabel? x y = some label →
      i.Linked u x y

/-- How far the way up has come: links come from candidates, and those to the children of
the vertices that are done lead to candidates, from every candidate. -/
structure Raised (data : Graph) (t : Tree) (done : List Nat) (i : Index) : Prop
    extends Joined data t i where
  key : ∀ w p, t.parent? w = some p → ∀ x y, i.Linked w x y → x ∈ i.candidates p
  target : ∀ w, ∀ p ∈ done, t.parent? w = some p → ∀ x y, i.Linked w x y → y ∈ i.candidates w
  support : ∀ w, ∀ p ∈ done, t.parent? w = some p → ∀ x ∈ i.candidates p, ∃ y, i.Linked w x y

/-- How far the way down has come: links lead to candidates, from every candidate, and
those to the vertices that are done come from candidates, to every candidate. -/
structure Lowered (data : Graph) (t : Tree) (done : List Nat) (i : Index) : Prop
    extends Joined data t i where
  target : ∀ w p, t.parent? w = some p → ∀ x y, i.Linked w x y → y ∈ i.candidates w
  support : ∀ w p, t.parent? w = some p → ∀ x ∈ i.candidates p, ∃ y, i.Linked w x y
  key : ∀ w ∈ done, ∀ p, t.parent? w = some p → ∀ x y, i.Linked w x y → x ∈ i.candidates p
  cover : ∀ w ∈ done, ∀ p, t.parent? w = some p → ∀ y ∈ i.candidates w, ∃ x, i.Linked w x y

section Ways

variable (ht : Tree.build? t.pattern t.root = some t)

include ht

/-- A built index has all links from candidates. -/
theorem Raised.build (data : Graph) : Raised data t [] (Index.build data t) where
  nonempty u p hp x ys hmem := by
    obtain ⟨label, hlabel⟩ := Tree.exists_edgeLabel?_parent ht hp
    rw [links_build ht data hp hlabel] at hmem
    exact (mem_linksFrom_iff.mp hmem).2.1
  linked u p label hp hlabel x hx y hy hedge :=
    (linked_build_iff ht data hp hlabel).mpr ⟨hx, hy, hedge⟩
  key w p hp x y hlinked := by
    obtain ⟨label, hlabel⟩ := Tree.exists_edgeLabel?_parent ht hp
    exact ((linked_build_iff ht data hp hlabel).mp hlinked).1
  target _ _ hdone := absurd hdone List.not_mem_nil
  support _ _ hdone := absurd hdone List.not_mem_nil

/-- A candidate that is not dropped is linked to a candidate of every child. -/
theorem exists_linked_of_not_mem_droppedAt (hsound : Sound data t i) (hjoined : Joined data t i)
    (hx : x ∈ i.candidates u) (hkept : x ∉ droppedAt data t i u) (hw : t.parent? w = some u) :
    ∃ y ∈ i.candidates w, i.Linked w x y := by
  have hlt : ∀ c ∈ t.children u, c < i.linkTable.size := fun c hc =>
    hsound.size_linkTable ▸ child_lt_size ht hc
  have hchild : w ∈ t.children u := (Tree.mem_children_iff ht).mpr hw
  have hlink : ((t.children u).foldl Index.pruneLinks i).hasLink w x = true := by
    by_contra hno
    refine hkept (List.mem_filter.mpr ⟨hx, ?_⟩)
    rw [Bool.or_eq_true, List.any_eq_true]
    exact Or.inr ⟨w, hchild, by simpa using hno⟩
  obtain ⟨ys, hmem⟩ := hasLink_iff.mp hlink
  obtain ⟨y, hy⟩ := List.exists_mem_of_ne_nil ys
    (ne_nil_of_mem_foldl_pruneLinks hlt (hjoined.nonempty w u hw) hmem)
  obtain ⟨hlinked, hcand⟩ := (linked_foldl_pruneLinks_iff hlt).mp ⟨ys, hmem, hy⟩
  exact ⟨y, hcand hchild, hlinked⟩

/-- A step upwards leaves the candidates joined. -/
theorem Joined.pruneUp (h : Joined data t i) (hsound : Sound data t i) (u : Nat) :
    Joined data t (Index.pruneUp data t i u) where
  nonempty w p hp x ys := ne_nil_of_mem_links_pruneUp ht hsound (h.nonempty w p hp)
  linked w p label hp hlabel x hx y hy hedge := by
    obtain ⟨hx, hkept⟩ := (mem_candidates_pruneUp_iff ht hsound).mp hx
    have hy := ((mem_candidates_pruneUp_iff ht hsound).mp hy).1
    refine (linked_pruneUp_iff ht hsound).mpr
      ⟨h.linked w p label hp hlabel x hx y hy hedge, fun hwu => ⟨hkept ?_, hy⟩⟩
    exact Option.some.inj (hwu.symm.trans hp)

/-- A step upwards at a vertex whose parent is still to come. -/
theorem Raised.pruneUp (h : Raised data t done i) (hsound : Sound data t i)
    (hnew : ∀ d ∈ done, d ≠ u ∧ t.parent? u ≠ some d) :
    Raised data t (u :: done) (Index.pruneUp data t i u) where
  toJoined := h.toJoined.pruneUp ht hsound u
  key w p hp x y hlinked := by
    obtain ⟨hlinked, hchild⟩ := (linked_pruneUp_iff ht hsound).mp hlinked
    refine (mem_candidates_pruneUp_iff ht hsound).mpr ⟨h.key w p hp x y hlinked, ?_⟩
    rintro rfl
    exact (hchild hp).1
  target w p hdone hp x y hlinked := by
    obtain ⟨hlinked, hchild⟩ := (linked_pruneUp_iff ht hsound).mp hlinked
    refine (mem_candidates_pruneUp_iff ht hsound).mpr ?_
    rcases List.mem_cons.mp hdone with rfl | hdone
    · refine ⟨(hchild hp).2, ?_⟩
      rintro rfl
      exact absurd rfl (Tree.parent?_ne_self ht hp)
    · refine ⟨h.target w p hdone hp x y hlinked, ?_⟩
      rintro rfl
      exact absurd hp (hnew p hdone).2
  support w p hdone hp x hx := by
    obtain ⟨hcand, hkept⟩ := (mem_candidates_pruneUp_iff ht hsound).mp hx
    rcases List.mem_cons.mp hdone with rfl | hdone
    · obtain ⟨y, hy, hlinked⟩ :=
        exists_linked_of_not_mem_droppedAt ht hsound h.toJoined hcand (hkept rfl) hp
      exact ⟨y, (linked_pruneUp_iff ht hsound).mpr ⟨hlinked, fun _ => ⟨hkept rfl, hy⟩⟩⟩
    · obtain ⟨y, hlinked⟩ := h.support w p hdone hp x hcand
      refine ⟨y, (linked_pruneUp_iff ht hsound).mpr ⟨hlinked, fun hwu => ?_⟩⟩
      exact absurd (Option.some.inj (hp.symm.trans hwu)) (hnew p hdone).1

/-- A way upwards, on which no vertex comes behind its parent. -/
theorem Raised.foldl_pruneUp {vs : List Nat} (h : Raised data t done i) (hsound : Sound data t i)
    (hdone : ∀ d ∈ done, ∀ u ∈ vs, d ≠ u ∧ t.parent? u ≠ some d)
    (hvs : vs.Pairwise fun u w => u ≠ w ∧ t.parent? w ≠ some u) :
    Raised data t (vs.reverse ++ done) (vs.foldl (Index.pruneUp data t) i) := by
  induction vs generalizing i done with
  | nil => exact h
  | cons u rest ih =>
    obtain ⟨hbehind, hrest⟩ := List.pairwise_cons.mp hvs
    -- `u` joins what is done, and no vertex of the rest is `u` or its child.
    have hstep := h.pruneUp ht hsound fun d hd => hdone d hd u List.mem_cons_self
    rw [List.reverse_cons, List.append_assoc]
    refine ih hstep (hsound.pruneUp (fun _ _ hc => child_lt_size ht hc) u) ?_ hrest
    exact List.forall_mem_cons.mpr
      ⟨hbehind, fun d hd w hw => hdone d hd w (List.mem_cons_of_mem u hw)⟩

omit ht in
/-- After the whole way up, links lead to candidates, from every candidate. -/
theorem Raised.lowered (h : Raised data t done i)
    (hdone : ∀ w p, t.parent? w = some p → p ∈ done) : Lowered data t [] i where
  toJoined := h.toJoined
  target w p hp := h.target w p (hdone w p hp) hp
  support w p hp := h.support w p (hdone w p hp) hp
  key _ hnil := absurd hnil List.not_mem_nil
  cover _ hnil := absurd hnil List.not_mem_nil

omit ht in
/-- A step downwards leaves the candidates joined. -/
theorem Joined.pruneDown (h : Joined data t i) (hsound : Sound data t i)
    (hu : u < t.pattern.size) (hp : t.parent? u = some p) :
    Joined data t (Index.pruneDown t i u) where
  nonempty w q hq x ys hmem :=
    h.nonempty w q hq x ys ((mem_links_pruneDown_iff hsound hu hp).mp hmem).1
  linked w q label hq hlabel x hx y hy hedge := by
    have hx := ((mem_candidates_pruneDown_iff hsound hu hp).mp hx).1
    have hy := ((mem_candidates_pruneDown_iff hsound hu hp).mp hy).1
    refine (linked_pruneDown_iff hsound hu hp).mpr
      ⟨h.linked w q label hq hlabel x hx y hy hedge, ?_⟩
    rintro rfl
    exact Option.some.inj (hq.symm.trans hp) ▸ hx

/-- A step downwards at a vertex whose children are still to come. -/
theorem Lowered.pruneDown (h : Lowered data t done i) (hsound : Sound data t i)
    (hp : t.parent? u = some p) (hnew : ∀ d ∈ done, d ≠ u ∧ t.parent? d ≠ some u) :
    Lowered data t (u :: done) (Index.pruneDown t i u) := by
  have hu := (Tree.parent?_lt_size ht hp).2
  have hcand := fun w y => mem_candidates_pruneDown_iff (w := w) (y := y) hsound hu hp
  have hlinked := fun w x y => linked_pruneDown_iff (w := w) (x := x) (y := y) hsound hu hp
  have hparent : ∀ q, t.parent? u = some q → q = p := fun q hq =>
    Option.some.inj (hq.symm.trans hp)
  constructor
  · exact h.toJoined.pruneDown hsound hu hp
  · intro w q hq x y hxy
    obtain ⟨hxy, hx⟩ := (hlinked w x y).mp hxy
    refine (hcand w y).mpr ⟨h.target w q hq x y hxy, ?_⟩
    rintro rfl
    exact ⟨x, hx rfl, hxy⟩
  · intro w q hq x hx
    have hx := ((hcand q x).mp hx).1
    obtain ⟨y, hxy⟩ := h.support w q hq x hx
    refine ⟨y, (hlinked w x y).mpr ⟨hxy, ?_⟩⟩
    rintro rfl
    exact hparent q hq ▸ hx
  · intro w hdone q hq x y hxy
    obtain ⟨hxy, hx⟩ := (hlinked w x y).mp hxy
    rcases List.mem_cons.mp hdone with rfl | hdone
    · obtain rfl := hparent q hq
      refine (hcand q x).mpr ⟨hx rfl, fun heq => ?_⟩
      exact absurd heq (Tree.parent?_ne_self ht hq)
    · refine (hcand q x).mpr ⟨h.key w hdone q hq x y hxy, fun heq => ?_⟩
      exact absurd (heq ▸ hq) (hnew w hdone).2
  · intro w hdone q hq y hy
    obtain ⟨hy, hfrom⟩ := (hcand w y).mp hy
    rcases List.mem_cons.mp hdone with rfl | hdone
    · obtain ⟨x, hx, hxy⟩ := hfrom rfl
      exact ⟨x, (hlinked w x y).mpr ⟨hxy, fun _ => hx⟩⟩
    · obtain ⟨x, hxy⟩ := h.cover w hdone q hq y hy
      exact ⟨x, (hlinked w x y).mpr ⟨hxy, fun heq => absurd heq.symm (hnew w hdone).1⟩⟩

/-- A way downwards, on which no vertex comes before its parent. -/
theorem Lowered.foldl_pruneDown {vs : List Nat} (h : Lowered data t done i)
    (hsound : Sound data t i) (hparent : ∀ u ∈ vs, ∃ p, t.parent? u = some p)
    (hdone : ∀ d ∈ done, ∀ u ∈ vs, d ≠ u ∧ t.parent? d ≠ some u)
    (hvs : vs.Pairwise fun u w => u ≠ w ∧ t.parent? u ≠ some w) :
    Lowered data t (vs.reverse ++ done) (vs.foldl (Index.pruneDown t) i) := by
  induction vs generalizing i done with
  | nil => exact h
  | cons u rest ih =>
    obtain ⟨⟨p, hp⟩, hparent⟩ := List.forall_mem_cons.mp hparent
    obtain ⟨hbehind, hrest⟩ := List.pairwise_cons.mp hvs
    -- `u` joins what is done, and no vertex of the rest is `u` or its parent.
    have hstep := h.pruneDown ht hsound hp fun d hd => hdone d hd u List.mem_cons_self
    rw [List.reverse_cons, List.append_assoc]
    refine ih hstep (hsound.pruneDown u) hparent ?_ hrest
    exact List.forall_mem_cons.mpr
      ⟨hbehind, fun d hd w hw => hdone d hd w (List.mem_cons_of_mem u hw)⟩

/-- The way up and the way down of a refinement. -/
theorem lowered_refine_build (data : Graph) :
    Lowered data t t.levels.tail.flatten.reverse (refine data t (build data t)) := by
  have hsound := Sound.build data t
  have hchild : ∀ u, ∀ c ∈ t.children u, c < t.pattern.size := fun _ _ hc => child_lt_size ht hc
  have hmem : ∀ u, u ∈ t.levels.reverse.flatten ↔ u ∈ t.levels.flatten := fun u => by
    simp only [List.mem_flatten, List.mem_reverse]
  have hraised := (Raised.build ht data).foldl_pruneUp ht hsound (by simp)
    (Tree.pairwise_flatten_reverse_levels ht)
  have hall : ∀ w p, t.parent? w = some p → p ∈ t.levels.reverse.flatten.reverse ++ [] := by
    intro w p hp
    rw [List.append_nil, List.mem_reverse, hmem]
    exact (Tree.mem_flatten_levels_of_parent? ht hp).1
  have hpairwise := Tree.pairwise_flatten_levels ht
  rw [Tree.levels_eq_cons ht, List.flatten_cons] at hpairwise
  have hlowered := (hraised.lowered hall).foldl_pruneDown ht (hsound.foldl_pruneUp hchild _)
    (fun u hu => (Tree.exists_parent?_iff ht).mpr hu) (by simp)
    (List.pairwise_append.mp hpairwise).2.1
  rwa [List.append_nil] at hlowered

end Ways

/-! ## Refined indexes -/

/-- Candidates and links agree along a tree edge from `p` to `u` with a label: the keys of
the links are the candidates of `p`, each is linked to the candidates of `u` that an edge
with the label leads to, to one at least, and every candidate of `u` is among them. -/
structure Consistent (data : Graph) (i : Index) (p u : Nat) (label : String) : Prop where
  keys : (i.links u).map Prod.fst = i.candidates p
  linked_eq : ∀ x ∈ i.candidates p,
    i.linked u x = (i.candidates u).filter fun y => data.edgeLabel? x y = some label
  linked_ne_nil : ∀ x ∈ i.candidates p, i.linked u x ≠ []
  candidate_iff : ∀ y, y ∈ i.candidates u ↔ ∃ x ∈ i.candidates p, y ∈ i.linked u x

/-- At the end of the way down, candidates and links agree. -/
theorem Lowered.consistent (h : Lowered data t done i) (hsound : Sound data t i) (hu : u ∈ done)
    (hp : t.parent? u = some p) (hlabel : t.pattern.edgeLabel? p u = some label) :
    Consistent data i p u label := by
  constructor
  · refine (i.keys_ascending u).eq_of_mem_iff (i.candidates_ascending p) fun x => ?_
    rw [List.mem_map]
    constructor
    · rintro ⟨⟨x, ys⟩, hmem, rfl⟩
      obtain ⟨y, hy⟩ := List.exists_mem_of_ne_nil ys (h.nonempty u p hp x ys hmem)
      exact h.key u hu p hp x y ⟨ys, hmem, hy⟩
    · intro hx
      obtain ⟨y, ys, hmem, -⟩ := h.support u p hp x hx
      exact ⟨(x, ys), hmem, rfl⟩
  · intro x hx
    refine (i.linked_ascending u x).eq_of_mem_iff ((i.candidates_ascending u).filter _)
      fun y => ?_
    rw [mem_linked_iff, List.mem_filter, decide_eq_true_eq]
    constructor
    · intro hxy
      obtain ⟨ys, hmem, hy⟩ := hxy
      obtain ⟨-, q, label', hq, hl, hedge⟩ := hsound.link u x ys hmem y hy
      obtain rfl : q = p := Option.some.inj (hq.symm.trans hp)
      obtain rfl : label' = label := Option.some.inj (hl.symm.trans hlabel)
      exact ⟨h.target u q hp x y ⟨ys, hmem, hy⟩, hedge⟩
    · rintro ⟨hy, hedge⟩
      exact h.linked u p label hp hlabel x hx y hy hedge
  · intro x hx
    obtain ⟨y, hxy⟩ := h.support u p hp x hx
    exact List.ne_nil_of_mem (mem_linked_iff.mpr hxy)
  · intro y
    constructor
    · intro hy
      obtain ⟨x, hxy⟩ := h.cover u hu p hp y hy
      exact ⟨x, h.key u hu p hp x y hxy, mem_linked_iff.mpr hxy⟩
    · rintro ⟨x, hx, hxy⟩
      exact h.target u p hp x y (mem_linked_iff.mp hxy)

/-! ## Assignments along the links -/

/-- The assignment sends the vertices of a list to candidates, along the links. -/
structure Follows (t : Tree) (i : Index) (vs : List Nat) (a : Nat → Nat) : Prop where
  candidate : ∀ w ∈ vs, a w ∈ i.candidates w
  link : ∀ w ∈ vs, ∀ p, t.parent? w = some p → a w ∈ i.linked w (a p)

/-- An assignment of vertices that have their parents among them goes on to a new one. -/
theorem Follows.cons {way : List Nat} {a : Nat → Nat} (h : Follows t i way a)
    (hclosed : Closed t way) (hnew : u ∉ way)
    (hp : t.parent? u = some p) (hpway : p ∈ way) (hx : x ∈ i.candidates u)
    (hlink : x ∈ i.linked u (a p)) :
    (∀ w ∈ way, Function.update a u x w = a w)
      ∧ Follows t i (u :: way) (Function.update a u x) := by
  have hsame : ∀ w ∈ way, Function.update a u x w = a w := fun w hw =>
    Function.update_of_ne (by rintro rfl; exact hnew hw) x a
  refine ⟨hsame, ⟨?_, ?_⟩⟩
  · refine List.forall_mem_cons.mpr ⟨by rwa [Function.update_self], fun w hw => ?_⟩
    rw [hsame w hw]
    exact h.candidate w hw
  · refine List.forall_mem_cons.mpr ⟨fun q hq => ?_, fun w hw q hq => ?_⟩
    · obtain rfl : q = p := Option.some.inj (hq.symm.trans hp)
      rwa [Function.update_self, hsame q hpway]
    · rw [hsame w hw, hsame q (hclosed w hw q hq)]
      exact h.link w hw q hq

section Assignments

variable (ht : Tree.build? t.pattern t.root = some t)
  (hcons : ∀ u p, t.parent? u = some p → ∃ label, Consistent data i p u label)

include ht hcons

/-- From a candidate, the links lead up to the root. -/
theorem exists_follows_up {d : Nat} (hd : t.pattern.AtDistance (· < t.pattern.size) t.root d u)
    (hx : x ∈ i.candidates u) :
    ∃ way a, u ∈ way ∧ t.root ∈ way ∧ a u = x ∧ Follows t i way a ∧ Closed t way
      ∧ ∀ w ∈ way, ∃ k ≤ d, t.pattern.AtDistance (· < t.pattern.size) t.root k w := by
  induction d generalizing u x with
  | zero =>
    obtain rfl := Graph.atDistance_zero_iff.mp hd
    have hnone := Tree.parent?_root ht
    refine ⟨[t.root], fun _ => x, List.mem_singleton_self _, List.mem_singleton_self _, rfl,
      ⟨?_, ?_⟩, closed_root ht, ?_⟩
    · simpa using hx
    · simp [hnone]
    · exact List.forall_mem_singleton.mpr ⟨0, Nat.le_refl 0, hd⟩
  | succ d ih =>
    obtain ⟨p, hp⟩ := Tree.exists_parent? ht hd
    obtain ⟨-, e, hpe, hue⟩ := Tree.parent?_eq_some ht hp
    obtain rfl := Nat.succ.inj (hue.unique hd)
    obtain ⟨label, hc⟩ := hcons u p hp
    obtain ⟨y, hy, hyx⟩ := (hc.candidate_iff x).mp hx
    obtain ⟨way, a, hpway, hroot, hay, hfollows, hclosed, hway⟩ := ih hpe hy
    -- The way of the parent stays nearer to the root than `u`.
    have hnew : u ∉ way := fun hu => by
      obtain ⟨k, hk, hat⟩ := hway u hu
      have := hat.unique hd
      omega
    have hparent : ∀ q, t.parent? u = some q → q ∈ way := fun q hq =>
      Option.some.inj (hp.symm.trans hq) ▸ hpway
    refine ⟨u :: way, Function.update a u x, List.mem_cons_self, List.mem_cons_of_mem u hroot,
      Function.update_self u x a, (hfollows.cons hclosed hnew hp hpway hx (hay ▸ hyx)).2,
      hclosed.cons hparent, ?_⟩
    refine List.forall_mem_cons.mpr ⟨⟨e + 1, Nat.le_refl _, hd⟩, fun w hw => ?_⟩
    obtain ⟨k, hk, hat⟩ := hway w hw
    exact ⟨k, Nat.le_succ_of_le hk, hat⟩

omit ht in
/-- An assignment of vertices that have their parents among them can be continued along
the links to any further vertices that come behind their parents. -/
theorem Follows.exists_down {vs way : List Nat} {a : Nat → Nat} (ha : Follows t i way a)
    (hclosed : Closed t way) (hfirst : ParentsFirst t way vs)
    (hparent : ∀ u ∈ vs, ∃ p, t.parent? u = some p) :
    ∃ b, (∀ w ∈ way, b w = a w) ∧ Follows t i (vs ++ way) b := by
  induction vs generalizing way a with
  | nil => exact ⟨a, fun _ _ => rfl, ha⟩
  | cons u rest ih =>
    obtain ⟨⟨p, hp⟩, hparent⟩ := List.forall_mem_cons.mp hparent
    have hpway := hfirst.1 p hp
    obtain ⟨label, hc⟩ := hcons u p hp
    obtain ⟨y, hy⟩ := List.exists_mem_of_ne_nil _ (hc.linked_ne_nil (a p) (ha.candidate p hpway))
    -- A vertex that is assigned already keeps its value; a new one takes any link.
    obtain ⟨a', hsame, ha'⟩ : ∃ a', (∀ w ∈ way, a' w = a w) ∧ Follows t i (u :: way) a' := by
      by_cases hold : u ∈ way
      · refine ⟨a, fun _ _ => rfl, ⟨?_, ?_⟩⟩
        · exact List.forall_mem_cons.mpr ⟨ha.candidate u hold, ha.candidate⟩
        · exact List.forall_mem_cons.mpr ⟨ha.link u hold, ha.link⟩
      · have hy' := (hc.candidate_iff y).mpr ⟨a p, ha.candidate p hpway, hy⟩
        exact ⟨Function.update a u y, ha.cons hclosed hold hp hpway hy' hy⟩
    obtain ⟨b, hb, hfollows⟩ := ih ha' (hclosed.cons hfirst.1) hfirst.2 hparent
    refine ⟨b, fun w hw => (hb w (List.mem_cons_of_mem u hw)).trans (hsame w hw), ?_⟩
    have hmem : ∀ w ∈ u :: rest ++ way, w ∈ rest ++ u :: way := fun w hw =>
      List.perm_middle.mem_iff.mpr hw
    exact ⟨fun w hw => hfollows.candidate w (hmem w hw), fun w hw => hfollows.link w (hmem w hw)⟩

/-- Every candidate of a reached vertex lies on an assignment of all reached vertices. -/
theorem exists_follows (hu : u ∈ t.levels.flatten) (hx : x ∈ i.candidates u) :
    ∃ a, a u = x ∧ Follows t i t.levels.flatten a := by
  obtain ⟨level, hl, hmem⟩ := List.mem_flatten.mp hu
  obtain ⟨d, hd⟩ := List.mem_iff_getElem?.mp hl
  obtain ⟨way, a, huway, hroot, hax, ha, hclosed, -⟩ :=
    exists_follows_up ht hcons ((Tree.mem_levels_iff ht).mp ⟨level, hd, hmem⟩) hx
  have hfirst : ParentsFirst t way t.levels.tail.flatten :=
    (layered_levels ht).parentsFirst.of_subset fun w hw => List.mem_singleton.mp hw ▸ hroot
  obtain ⟨b, hb, hfollows⟩ := ha.exists_down hcons hclosed hfirst
    fun u hu => (Tree.exists_parent?_iff ht).mpr hu
  have hmem : ∀ w ∈ t.levels.flatten, w ∈ t.levels.tail.flatten ++ way := by
    intro w hw
    rw [Tree.levels_eq_cons ht, List.flatten_cons, List.singleton_append] at hw
    rcases List.mem_cons.mp hw with rfl | hw
    · exact List.mem_append_right _ hroot
    · exact List.mem_append_left _ hw
  exact ⟨b, (hb u huway).trans hax, fun w hw => hfollows.candidate w (hmem w hw),
    fun w hw => hfollows.link w (hmem w hw)⟩

end Assignments

end GraphDependency.Candidate.Index

namespace GraphDependency.Candidate

open GraphDependency.Pattern GraphDependency.Matching

/-- In an index that is built and refined, candidates and links agree along every edge of
the tree. -/
theorem Index.consistent_refine_build {t : Tree} (ht : Tree.build? t.pattern t.root = some t)
    (data : Graph) {u p : Nat} (hp : t.parent? u = some p) :
    ∃ label, t.pattern.edgeLabel? p u = some label
      ∧ ((Index.build data t).refine data t).Consistent data p u label := by
  obtain ⟨label, hlabel⟩ := Tree.exists_edgeLabel?_parent ht hp
  refine ⟨label, hlabel, (Index.lowered_refine_build ht data).consistent
    (sound_refine_build ht data) ?_ hp hlabel⟩
  exact List.mem_reverse.mpr ((Tree.exists_parent?_iff ht).mp ⟨p, hp⟩)

/-- In an index that is built from any root and refined, candidates and links agree along
every edge of the tree.  So every candidate lies on an assignment of all vertices that the
root reaches to candidates, along the links. -/
theorem refined_consistent (data pattern : Graph) (root : Nat) (hroot : root < pattern.size) :
    ∃ t, Tree.build? pattern root = some t
      ∧ let i := (Index.build data t).refine data t
        (∀ u p, t.parent? u = some p →
            ∃ label, pattern.edgeLabel? p u = some label ∧ i.Consistent data p u label)
          ∧ ∀ u ∈ pattern.reachable root, ∀ x ∈ i.candidates u,
            ∃ a : Nat → Nat, a u = x
              ∧ (∀ w ∈ pattern.reachable root, a w ∈ i.candidates w)
              ∧ ∀ w p, t.parent? w = some p → a w ∈ i.linked w (a p) := by
  obtain ⟨t, ht⟩ : ∃ t, Tree.build? pattern root = some t := by simp [Tree.build?, hroot]
  obtain rfl := Tree.pattern_eq ht
  obtain rfl := Tree.root_eq ht
  refine ⟨t, ht, ?_⟩
  intro i
  have hcons : ∀ u p, t.parent? u = some p →
      ∃ label, t.pattern.edgeLabel? p u = some label ∧ i.Consistent data p u label :=
    fun u p hp => Index.consistent_refine_build ht data hp
  have hreach : t.levels.flatten = t.pattern.reachable t.root := by
    rw [Tree.levels_eq ht, Graph.reachable]
  refine ⟨hcons, fun u hu x hx => ?_⟩
  rw [← hreach] at hu ⊢
  obtain ⟨a, hax, ha⟩ := Index.exists_follows ht
    (fun u p hp => (hcons u p hp).imp fun _ h => h.2) hu hx
  exact ⟨a, hax, ha.candidate, fun w p hp =>
    ha.link w (Tree.mem_flatten_levels_of_parent? ht hp).2 p hp⟩

/-- From its second vertex, the start of a segment lies on an assignment of both. -/
theorem refined_consistent_segment :
    let pattern := Graph.segment "a" "b" "e"
    1 < pattern.size
      ∧ ∃ t, Tree.build? pattern 1 = some t
        ∧ let i := (Index.build pattern t).refine pattern t
          0 ∈ i.candidates 0 ∧ ∃ a : Nat → Nat, a 0 = 0 ∧ a 0 ∈ i.linked 0 (a 1) := by
  intro pattern
  have hroot : 1 < pattern.size := by decide
  obtain ⟨t, ht, -, hall⟩ := refined_consistent pattern pattern 1 hroot
  have hpattern : t.pattern = pattern := Tree.pattern_eq ht
  have hp : t.parent? 0 = some 1 := by
    rw [(Tree.build?_eq_some_iff.mp ht).2]
    decide
  have hm : (Query.plain t.pattern pattern).IsEmbedding #[0, 1] := by
    rw [hpattern]
    exact isEmbedding_segment _ _ _
  have hkeeps := (keeps_refine_build (by rw [hpattern, Tree.root_eq ht, ht])
    (by rw [hpattern]; decide) hm).2
  have hmem := hkeeps.candidate 0 (by rw [hpattern]; decide)
  obtain ⟨a, ha, -, hlink⟩ := hall 0 (by decide) 0 hmem
  exact ⟨hroot, t, ht, hmem, a, ha, hlink 0 1 hp⟩

end GraphDependency.Candidate
