import GraphDependency.Proofs.Candidate.Enumeration
import GraphDependency.Proofs.Candidate.Moves

set_option autoImplicit false

/-!
# Sweeping a range

A search that is asked again and again for the next way to fill a range comes to all of
them, in lexicographic order, and leaves the range free.  What the other positions hold,
and what they have still to try, stays as it was, so a search that was interrupted for the
sweep goes on as if there had been none.

Main statements: `sweep_of_answers` (a sweep finds what is ahead), `mem_extensions_iff` and
`mem_offers_iff` (what is ahead), and from them `sweep_exact`.
-/

namespace GraphDependency.Candidate

open GraphDependency.Matching GraphDependency.Matching.Placement GraphDependency.Pattern

theorem lex_of_append_left {l xs ys : List Nat}
    (h : List.Lex (· < ·) (l ++ xs) (l ++ ys)) : List.Lex (· < ·) xs ys := by
  induction l with
  | nil => exact h
  | cons a l ih =>
    cases h with
    | cons h => exact ih h
    | rel h => exact absurd h (Nat.lt_irrefl a)

/-- What is placed first is taken first. -/
theorem trail_append (q p : Placement) : trail (q ++ p) = trail p ++ trail q := by
  simp [trail, images]

/-! ## Placements by position -/

/-- The placement of the first positions under which each has the given data vertex. -/
def Course.placed (k : Course) (g : Nat → Nat) : Nat → Placement
  | 0 => []
  | pos + 1 => ((k.stop pos).vertex, g pos) :: k.placed g pos

namespace Course

variable {k : Course} {f g : Nat → Nat} {lo pos v : Nat}

theorem placed_congr (h : ∀ j < pos, g j = f j) : k.placed g pos = k.placed f pos := by
  induction pos with
  | zero => rfl
  | succ pos ih =>
    rw [placed, placed, h pos (Nat.lt_succ_self pos), ih fun j hj => h j (Nat.lt_succ_of_lt hj)]

theorem trail_placed (k : Course) (g : Nat → Nat) (pos : Nat) :
    (k.placed g pos).trail = (List.range pos).map g := by
  induction pos with
  | zero => rfl
  | succ pos ih =>
    rw [List.range_succ, List.map_append, ← ih]
    simp [placed, trail, images]

theorem drop_trail_placed (k : Course) (g : Nat → Nat) (lo hi : Nat) :
    (k.placed g hi).trail.drop lo = (List.range' lo (hi - lo)).map g := by
  rw [trail_placed, ← List.map_drop, List.range_eq_range', List.drop_range', Nat.zero_add,
    Nat.mul_one]

theorem uses_placed_eq_false_iff : (k.placed g pos).uses v = false ↔ ∀ j < pos, g j ≠ v := by
  rw [uses_eq_false_iff, ← List.mem_reverse, ← trail, trail_placed]
  simp

theorem image_placed (hk : k.Closed) (hpos : pos ≤ k.length) {j : Nat} (hj : j < pos) :
    (k.placed g pos).image (k.stop j).vertex = g j := by
  induction pos with
  | zero => omega
  | succ pos ih =>
    rw [placed, image_cons]
    split
    · rename_i heq
      rw [hk.vertex_injective pos (by omega) j (by omega) heq]
    · rename_i hne
      refine ih (by omega) (Nat.lt_of_le_of_ne (Nat.le_of_lt_succ hj) ?_)
      rintro rfl
      exact hne rfl

/-- The ways to go on from a placement are those under which every further position has
something that it is offered. -/
theorem mem_extensions_iff {offers : Placement → Stop → List Nat} {n : Nat} {p : Placement} :
    p ∈ extensions Stop.vertex offers (k.stopsFrom lo n) (k.placed f lo)
      ↔ ∃ g, (∀ j < lo, g j = f j) ∧ p = k.placed g (lo + n)
          ∧ ∀ pos, lo ≤ pos → pos < lo + n → g pos ∈ offers (k.placed g pos) (k.stop pos) := by
  induction n generalizing lo f with
  | zero =>
    rw [show k.stopsFrom lo 0 = [] from rfl, extensions, List.mem_singleton]
    constructor
    · rintro rfl
      exact ⟨f, fun _ _ => rfl, rfl, fun pos hle hlt => absurd hlt (by omega)⟩
    · rintro ⟨g, hg, rfl, -⟩
      exact placed_congr hg
  | succ n ih =>
    have hstops : k.stopsFrom lo (n + 1) = k.stop lo :: k.stopsFrom (lo + 1) n := by
      rw [stopsFrom, stopsFrom, List.range'_succ, List.map_cons]
    -- The first further position gets `v`, those before it keep what they have.
    have hcons : ∀ v, ((k.stop lo).vertex, v) :: k.placed f lo
        = k.placed (fun j => if j = lo then v else f j) (lo + 1) := by
      intro v
      rw [placed, if_pos rfl, placed_congr (g := f)]
      exact fun j hj => (if_neg (by omega)).symm
    rw [hstops, extensions, List.mem_flatMap]
    simp only [hcons, ih]
    constructor
    · rintro ⟨v, hv, g, hg, rfl, hoffer⟩
      have hbefore : ∀ j < lo, g j = f j := fun j hj =>
        (hg j (Nat.lt_succ_of_lt hj)).trans (if_neg (Nat.ne_of_lt hj))
      have hat : g lo = v := (hg lo (Nat.lt_succ_self lo)).trans (if_pos rfl)
      refine ⟨g, hbefore, by rw [Nat.add_right_comm, Nat.add_assoc], fun pos hle hlt => ?_⟩
      rcases Nat.eq_or_lt_of_le hle with rfl | hgt
      · rwa [hat, placed_congr hbefore]
      · exact hoffer pos hgt (by omega)
    · rintro ⟨g, hg, rfl, hoffer⟩
      refine ⟨g lo, ?_, g, fun j hj => ?_, by rw [Nat.add_right_comm, Nat.add_assoc],
        fun pos hle hlt => hoffer pos (by omega) (by omega)⟩
      · rw [← placed_congr hg]
        exact hoffer lo (Nat.le_refl lo) (by omega)
      · split
        · rename_i heq
          rw [heq]
        · exact hg j (by omega)

end Course

/-! ## What fills a range -/

/-- What the positions have when those from `lo` on are filled, and the ones before are
left with what they hold. -/
def Cursor.filled (c : Cursor) (lo : Nat) (tuple : List Nat) (pos : Nat) : Nat :=
  if pos < lo then (c.slot pos).held?.getD 0 else tuple.getD (pos - lo) 0

/-- A data vertex is among those from which the image of a vertex is chosen, when the
vertices of a sequence that come before have the given images. -/
def Sources (i : Index) (t : Tree) (sequence : List Nat) (g : Nat → Nat) (pos u v : Nat) : Prop :=
  match t.parent? u with
  | none => v ∈ i.candidates u
  | some p => ∃ q < pos, sequence[q]? = some p ∧ v ∈ i.linked u (g q)

/-- A data vertex is joined, by edges with the right labels, to the images of the neighbors
that come before, apart from that of the parent. -/
def Joins (data : Graph) (t : Tree) (sequence : List Nat) (g : Nat → Nat) (pos u v : Nat) : Prop :=
  ∀ q < pos, ∀ w label, sequence[q]? = some w → t.parent? u ≠ some w →
    t.pattern.edgeLabel? w u = some label → data.edgeLabel? (g q) v = some label

/-- A way to fill the positions of a range while the others keep what they hold. -/
structure Fills (data : Graph) (i : Index) (t : Tree) (sequence : List Nat) (c : Cursor)
    (lo hi : Nat) (tuple : List Nat) : Prop where
  length_eq : tuple.length = hi - lo
  nodup : tuple.Nodup
  unheld : ∀ pos, pos < lo ∨ hi ≤ pos → ∀ v ∈ tuple, (c.slot pos).held? ≠ some v
  source : ∀ pos u, lo ≤ pos → pos < hi → sequence[pos]? = some u →
    Sources i t sequence (c.filled lo tuple) pos u (c.filled lo tuple pos)
  joined : ∀ pos u, lo ≤ pos → pos < hi → sequence[pos]? = some u →
    Joins data t sequence (c.filled lo tuple) pos u (c.filled lo tuple pos)

section Offers

variable {data : Graph} {i : Index} {t : Tree} {order : Order} {busy : List Nat} {pos u v : Nat}
  {g : Nat → Nat}

theorem getElem?_of_mem_take_reverse {sequence : List Nat} {w : Nat} :
    w ∈ (sequence.take pos).reverse ↔ ∃ q < pos, sequence[q]? = some w := by
  rw [List.mem_reverse, List.mem_take_iff_getElem]
  constructor
  · rintro ⟨q, hq, rfl⟩
    exact ⟨q, by omega, List.getElem?_eq_getElem _⟩
  · rintro ⟨q, hq, hw⟩
    obtain ⟨hlt, rfl⟩ := List.getElem?_eq_some_iff.mp hw
    exact ⟨q, by omega, rfl⟩

theorem image_placed_ofOrder (h : Grown t order.sequence) (hpos : pos ≤ order.sequence.length)
    {q w : Nat} (hq : q < pos) (hw : order.sequence[q]? = some w) :
    ((Course.ofOrder data i t order).placed g pos).image w = g q := by
  obtain ⟨hlt, rfl⟩ := List.getElem?_eq_some_iff.mp hw
  rw [← (along_ofOrder data i h hlt).1]
  exact Course.image_placed (closed_ofOrder data i h) (by rwa [length_ofOrder]) hq

theorem mem_source_ofOrder_iff (h : Grown t order.sequence) (hu : order.sequence[pos]? = some u) :
    v ∈ ((Course.ofOrder data i t order).stop pos).source i
        ((Course.ofOrder data i t order).placed g pos).image
      ↔ Sources i t order.sequence g pos u v := by
  obtain ⟨hpos, rfl⟩ := List.getElem?_eq_some_iff.mp hu
  obtain ⟨hvertex, rest, -, -, hparent, hplaced, -⟩ := along_ofOrder data i h hpos
  rw [hvertex] at hparent
  have himage : ∀ {q w : Nat}, q < pos → order.sequence[q]? = some w →
      ((Course.ofOrder data i t order).placed g pos).image w = g q :=
    image_placed_ofOrder h hpos.le
  rw [Stop.source, Sources, hparent, hvertex]
  cases hp : t.parent? (order.sequence[pos]) with
  | none => rfl
  | some p =>
    obtain ⟨q, hq, hpq⟩ := getElem?_of_mem_take_reverse.mp (hplaced p (hparent.trans hp))
    simp only [himage hq hpq]
    refine ⟨fun hv => ⟨q, hq, hpq, hv⟩, ?_⟩
    rintro ⟨q', hq', hpq', hv⟩
    rwa [← himage hq hpq, himage hq' hpq']

theorem accepts_ofOrder_iff (h : Grown t order.sequence) (hu : order.sequence[pos]? = some u) :
    ((Course.ofOrder data i t order).stop pos).accepts data
        ((Course.ofOrder data i t order).placed g pos).image v = true
      ↔ Joins data t order.sequence g pos u v := by
  obtain ⟨hpos, rfl⟩ := List.getElem?_eq_some_iff.mp hu
  obtain ⟨hvertex, rest, -, -, hparent, -, hchecks, -⟩ := along_ofOrder data i h hpos
  rw [hvertex] at hparent hchecks
  have himage : ∀ {q w : Nat}, q < pos → order.sequence[q]? = some w →
      ((Course.ofOrder data i t order).placed g pos).image w = g q :=
    image_placed_ofOrder h hpos.le
  rw [accepts_iff]
  constructor
  · intro hacc q hq w label hw hne hl
    rw [← himage hq hw]
    refine hacc w label ((hchecks w label).mpr ⟨?_, hparent ▸ hne, hl⟩)
    exact getElem?_of_mem_take_reverse.mpr ⟨q, hq, hw⟩
  · intro hjoin w label hw
    obtain ⟨hmem, hne, hl⟩ := (hchecks w label).mp hw
    obtain ⟨q, hq, hw⟩ := getElem?_of_mem_take_reverse.mp hmem
    rw [himage hq hw]
    exact hjoin q hq w label hw (hparent ▸ hne) hl

/-- What a position is offered on the course of a matching order. -/
theorem mem_offers_iff (h : Grown t order.sequence) (hu : order.sequence[pos]? = some u) :
    v ∈ (Course.ofOrder data i t order).offers busy
        ((Course.ofOrder data i t order).placed g pos) ((Course.ofOrder data i t order).stop pos)
      ↔ (∀ j < pos, g j ≠ v) ∧ v ∉ busy ∧ Sources i t order.sequence g pos u v
        ∧ Joins data t order.sequence g pos u v := by
  rw [← mem_source_ofOrder_iff h hu, ← accepts_ofOrder_iff h hu, Course.offers, List.mem_filter,
    Course.takes, Bool.and_eq_true, Bool.and_eq_true, Bool.not_eq_true', Bool.not_eq_true',
    Course.uses_placed_eq_false_iff, ← Bool.not_eq_true, List.contains_iff_mem]
  change _ ∈ Stop.source _ i _ ∧ _ ∧ Stop.accepts _ data _ _ = true ↔ _
  tauto

end Offers

namespace Cursor

/-! ## Sweeps -/

/-- A search of a range has the given answer, and comes to it after finitely many moves. -/
def Finds (k : Course) (lo hi : Nat) (resume : Bool) (c : Cursor) (answer : Bool × Cursor) :
    Prop :=
  c.next? k lo hi resume = some answer
    ∧ ∃ n, (move k lo hi)^[n] (entry k lo hi resume c) = .ended answer

/-- A search of a range is asked for a way to fill it, and for the next one as long as there
is one: the ways that it finds, and where it ends. -/
inductive Sweep (k : Course) (lo hi : Nat) : Bool → Cursor → List (List Nat) → Cursor → Prop
  | last {resume : Bool} {c c' : Cursor} (h : Finds k lo hi resume c (false, c')) :
      Sweep k lo hi resume c [] c'
  | more {resume : Bool} {c c₁ c' : Cursor} {tuples : List (List Nat)}
      (h : Finds k lo hi resume c (true, c₁)) (rest : Sweep k lo hi true c₁ tuples c') :
      Sweep k lo hi resume c (c₁.assigned k lo hi :: tuples) c'

variable {k : Course} {busy : List Nat} {c c' : Cursor} {lo hi pos v : Nat} {resume : Bool}
  {tuple : List Nat} {tuples : List (List Nat)}

/-- A sweep is a part of a session. -/
theorem Sweep.reached (h : Sweep k lo hi resume c tuples c') (hc : Reached k c) :
    Reached k c' := by
  have hstep : ∀ {resume c answer}, Finds k lo hi resume c answer → Reached k c →
      Reached k answer.2 := by
    intro resume c answer hfinds hc
    refine hc.trans [.next lo hi resume] ?_
    rw [serveAll?, List.foldlM_cons, serve?, hfinds.1]
    rfl
  induction h with
  | last h => exact hstep h hc
  | more h rest ih => exact ih (hstep h hc)

theorem finds_next (hlt : lo < hi) (hlen : hi ≤ k.length) (hsize : c.slots.size = k.length)
    (resume : Bool) : Finds k lo hi resume c (next k c lo hi resume) :=
  ⟨next?_eq_some resume (Nat.le_of_lt hlt) hlen, next_moves hlt hlen hsize resume⟩

theorem placement_eq_placed (c : Cursor) (k : Course) (pos : Nat) :
    c.placement k pos = k.placed (fun q => c.image (k.stop q).vertex) pos := by
  induction pos with
  | zero => rfl
  | succ pos ih => rw [placement, Course.placed, ih]

/-- A sweep finds what is ahead, and leaves everything outside the range as it was. -/
theorem sweep_of_answers (hk : k.Closed) (hlt : lo < hi) (hlen : hi ≤ k.length)
    {ahead : List Placement} (hsize : c.slots.size = k.length)
    (h : Answers k busy lo hi c ahead (next k c lo hi resume)) :
    ∃ c', Sweep k lo hi resume c (ahead.map fun p => p.trail.drop lo) c'
      ∧ At k busy lo hi c' ∧ Same k lo hi c c' := by
  have hfinds := finds_next hlt hlen hsize resume
  induction ahead generalizing c resume with
  | nil =>
    match hnext : next k c lo hi resume with
    | (false, c₁) =>
      rw [hnext] at h hfinds
      exact ⟨c₁, .last hfinds, (h.exhausted rfl).1, h.same⟩
    | (true, c₁) =>
      rw [hnext] at h
      cases (h.found rfl).2
  | cons p rest ih =>
    match hnext : next k c lo hi resume with
    | (false, c₁) =>
      rw [hnext] at h
      cases (h.exhausted rfl).2
    | (true, c₁) =>
      rw [hnext] at h hfinds
      obtain ⟨hat, heq⟩ := h.found rfl
      obtain ⟨rfl, hrest⟩ := List.cons.inj heq
      have hsize₁ := hat.valid.size_slots
      obtain ⟨c', hsweep, hat', hsame'⟩ := ih hsize₁
        (hrest ▸ next_resume_spec hk hat hlt hlen) (finds_next hlt hlen hsize₁ true)
      refine ⟨c', ?_, hat', h.same.trans hsame'⟩
      rw [List.map_cons, placement_eq_placed, Course.drop_trail_placed]
      exact .more hfinds hsweep

/-! ## Any free range -/

/-- The data vertices held from a position on. -/
def heldFrom (c : Cursor) (k : Course) (hi : Nat) : List Nat :=
  (List.range' hi (k.length - hi)).filterMap fun pos => (c.slot pos).held?

theorem Valid.mem_heldFrom_iff (h : Valid k c) :
    v ∈ c.heldFrom k hi ↔ ∃ pos, hi ≤ pos ∧ (c.slot pos).held? = some v := by
  rw [heldFrom, List.mem_filterMap]
  refine exists_congr fun pos => and_congr_left fun hheld => ?_
  have := h.lt_length hheld
  rw [List.mem_range'_1]
  omega

/-- A cursor that holds something at all positions before a range and nothing in it stands
at the beginning of the range. -/
theorem Valid.atRange (h : Valid k c) (hheld : ∀ pos < lo, (c.slot pos).held? ≠ none)
    (hfree : ∀ pos, lo ≤ pos → pos < hi → (c.slot pos).held? = none) :
    At k (c.heldFrom k hi) lo hi c :=
  ⟨h, hheld, hfree, fun _ => h.mem_heldFrom_iff⟩

/-! ## Filling a range -/

theorem filled_of_held (hpos : pos < lo) (hheld : (c.slot pos).held? = some v) :
    c.filled lo tuple pos = v := by
  rw [filled, if_pos hpos, hheld, Option.getD_some]

theorem filled_of_le (hle : lo ≤ pos) (hlt : pos - lo < tuple.length) :
    c.filled lo tuple pos = tuple[pos - lo] := by
  rw [filled, if_neg (by omega), List.getD_eq_getElem?_getD, List.getElem?_eq_getElem hlt,
    Option.getD_some]

theorem map_filled (c : Cursor) (lo : Nat) (tuple : List Nat) :
    (List.range' lo tuple.length).map (c.filled lo tuple) = tuple := by
  refine List.ext_getElem (by simp) fun n _ hn => ?_
  rw [List.getElem_map, List.getElem_range', Nat.one_mul,
    filled_of_le (Nat.le_add_right lo n) (by omega)]
  simp only [Nat.add_sub_cancel_left]

theorem At.image_eq_filled (h : At k busy lo hi c) (tuple : List Nat) (hpos : pos < lo) :
    c.image (k.stop pos).vertex = c.filled lo tuple pos := by
  obtain ⟨v, hv⟩ := Option.ne_none_iff_exists'.mp (h.held pos hpos)
  rw [filled_of_held hpos hv, h.valid.image_eq pos v hv]

/-- What is ahead of a free range are the tuples in which every position has something
that it is offered behind the ones before. -/
theorem At.mem_ahead_iff (h : At k busy lo hi c) (hlt : lo < hi) :
    tuple ∈ (extensions Stop.vertex (k.offers busy) (k.stopsFrom lo (hi - lo))
        (c.placement k lo)).map (fun p => p.trail.drop lo)
      ↔ tuple.length = hi - lo ∧ ∀ pos, lo ≤ pos → pos < hi →
          c.filled lo tuple pos
            ∈ k.offers busy (k.placed (c.filled lo tuple) pos) (k.stop pos) := by
  have hend : lo + (hi - lo) = hi := by omega
  have hstart : c.placement k lo = k.placed (c.filled lo tuple) lo := by
    rw [placement_eq_placed]
    exact Course.placed_congr fun j hj => h.image_eq_filled tuple hj
  rw [List.mem_map, hstart]
  simp only [Course.mem_extensions_iff, hend]
  constructor
  · rintro ⟨p, ⟨g, hbefore, rfl, hoffer⟩, hdrop⟩
    rw [Course.drop_trail_placed] at hdrop
    have hlength : tuple.length = hi - lo := by rw [← hdrop]; simp
    have hfilled : ∀ pos < hi, g pos = c.filled lo tuple pos := by
      intro pos hpos
      by_cases hlo : pos < lo
      · exact hbefore pos hlo
      · rw [filled_of_le (by omega) (by omega)]
        simp only [← hdrop, List.getElem_map, List.getElem_range', Nat.one_mul]
        rw [Nat.add_sub_cancel' (by omega)]
    refine ⟨hlength, fun pos hle hpos => ?_⟩
    rw [← hfilled pos hpos, ← Course.placed_congr fun j hj => hfilled j (by omega)]
    exact hoffer pos hle hpos
  · rintro ⟨hlength, hoffer⟩
    refine ⟨_, ⟨c.filled lo tuple, fun _ _ => rfl, rfl, hoffer⟩, ?_⟩
    rw [Course.drop_trail_placed, ← hlength, map_filled]

/-- A tuple repeats nothing, and nothing that is held outside the range, if every position
has something that is not held behind the range and that no position before it has. -/
theorem At.distinct_iff (h : At k busy lo hi c) (hlength : tuple.length = hi - lo) :
    (∀ pos, lo ≤ pos → pos < hi → (∀ j < pos, c.filled lo tuple j ≠ c.filled lo tuple pos)
        ∧ c.filled lo tuple pos ∉ busy)
      ↔ tuple.Nodup ∧ ∀ pos, pos < lo ∨ hi ≤ pos → ∀ v ∈ tuple, (c.slot pos).held? ≠ some v := by
  have hmem : ∀ v, v ∈ tuple ↔ ∃ pos, lo ≤ pos ∧ pos < hi ∧ c.filled lo tuple pos = v := by
    intro v
    conv_lhs => rw [← map_filled c lo tuple, List.mem_map, hlength]
    simp only [List.mem_range'_1, and_assoc]
    exact exists_congr fun pos => by omega
  constructor
  · intro hother
    refine ⟨?_, fun q hq v hv hheld => ?_⟩
    · rw [← map_filled c lo tuple, List.Nodup, List.pairwise_map, hlength]
      refine (List.pairwise_lt_range' 1).imp_of_mem ?_
      intro q pos _ hpos hlt
      rw [List.mem_range'_1] at hpos
      exact (hother pos hpos.1 (by omega)).1 q hlt
    · obtain ⟨pos, hle, hlt, rfl⟩ := (hmem v).mp hv
      rcases hq with hq | hq
      · exact (hother pos hle hlt).1 q (by omega) (filled_of_held hq hheld)
      · exact (hother pos hle hlt).2 ((h.mem_busy _).mpr ⟨q, hq, hheld⟩)
  · rintro ⟨hnodup, hunheld⟩ pos hle hlt
    have hin : c.filled lo tuple pos ∈ tuple := (hmem _).mpr ⟨pos, hle, hlt, rfl⟩
    refine ⟨fun j hj heq => ?_, fun hbusy => ?_⟩
    · by_cases hlo : j < lo
      · obtain ⟨w, hw⟩ := Option.ne_none_iff_exists'.mp (h.held j hlo)
        rw [filled_of_held hlo hw] at heq
        exact hunheld j (Or.inl hlo) _ hin (heq ▸ hw)
      · rw [filled_of_le (by omega) (by omega), filled_of_le hle (by omega),
          hnodup.getElem_inj_iff] at heq
        omega
    · obtain ⟨q, hq, hheld⟩ := (h.mem_busy _).mp hbusy
      exact hunheld q (Or.inr hq) _ hin hheld

/-- What is ahead is in lexicographic order. -/
theorem pairwise_ahead (busy : List Nat) (c : Cursor) (lo n : Nat) :
    ((extensions Stop.vertex (k.offers busy) (k.stopsFrom lo n) (c.placement k lo)).map
      fun p => p.trail.drop lo).Pairwise (List.Lex (· < ·)) := by
  have hlength : (c.placement k lo).trail.length = lo := by
    rw [placement_eq_placed, Course.trail_placed, List.length_map, List.length_range]
  have hoffers : ∀ p s, (k.offers busy p s).Pairwise (· < ·) := fun p s =>
    (source_ascending k.index s p.image).filter _
  rw [List.pairwise_map]
  refine (pairwise_extensions hoffers _ _).imp_of_mem ?_
  intro p p' hp hp' hlex
  obtain ⟨q, rfl⟩ := suffix_of_mem_extensions hp
  obtain ⟨q', rfl⟩ := suffix_of_mem_extensions hp'
  simp only [trail_append] at hlex ⊢
  rw [List.drop_left' hlength, List.drop_left' hlength]
  exact lex_of_append_left hlex

/-! ## Going on -/

/-- Changes in a range that is free before and after them leave what is held everywhere. -/
theorem Same.held?_eq (h : Same k lo hi c c') (hat : At k busy lo hi c)
    (hat' : At k busy lo hi c') (pos : Nat) : (c'.slot pos).held? = (c.slot pos).held? := by
  by_cases hin : lo ≤ pos ∧ pos < hi
  · rw [hat.free pos hin.1 hin.2, hat'.free pos hin.1 hin.2]
  · rw [h.slot pos (by omega)]

/-- After a sweep, a search that was interrupted for it finds what it would have found
without it. -/
theorem sweeps_alike (hk : k.Closed) (hat : At k busy lo hi c) (hat' : At k busy lo hi c')
    (hsame : Same k lo hi c c') (hlo : lo ≤ k.length) {lo' hi' : Nat} (hlt : lo' < hi')
    (hle : hi' ≤ lo) :
    ∃ tuples c₁ c₁', Sweep k lo' hi' true c tuples c₁ ∧ Sweep k lo' hi' true c' tuples c₁' := by
  have hbefore : At k (c.heldFrom k hi') hi' hi' c :=
    hat.valid.atRange (fun pos hpos => hat.held pos (by omega)) fun pos _ _ => by omega
  have hbefore' : At k (c.heldFrom k hi') hi' hi' c' :=
    ⟨hat'.valid, fun pos hpos => hat'.held pos (by omega), fun pos _ _ => by omega,
      fun v => by simp only [hsame.held?_eq hat hat', hat.valid.mem_heldFrom_iff]⟩
  have hanswer := next_resume_spec hk hbefore hlt (by omega)
  have hanswer' := next_resume_spec hk hbefore' hlt (by omega)
  rw [waiting_congr (fun q hq => hsame.slot q (by omega)) fun q hq =>
    hsame.image q (by omega) (by omega)] at hanswer'
  obtain ⟨c₁, hsweep, -⟩ := sweep_of_answers hk hlt (by omega) hat.valid.size_slots hanswer
  obtain ⟨c₁', hsweep', -⟩ := sweep_of_answers hk hlt (by omega) hat'.valid.size_slots hanswer'
  exact ⟨_, c₁, c₁', hsweep, hsweep'⟩

end Cursor

/-- What is ahead of a free range on the course of a matching order are the ways to fill
it. -/
theorem mem_ahead_ofOrder_iff {data : Graph} {i : Index} {t : Tree} {order : Order}
    {busy tuple : List Nat} {c : Cursor} {lo hi : Nat} (hgrown : Grown t order.sequence)
    (hlt : lo < hi) (hhi : hi ≤ order.sequence.length)
    (hat : Cursor.At (Course.ofOrder data i t order) busy lo hi c) :
    tuple ∈ (extensions Stop.vertex ((Course.ofOrder data i t order).offers busy)
        ((Course.ofOrder data i t order).stopsFrom lo (hi - lo))
        (c.placement (Course.ofOrder data i t order) lo)).map (fun p => p.trail.drop lo)
      ↔ Fills data i t order.sequence c lo hi tuple := by
  have hvertex : ∀ pos < hi, ∃ u, order.sequence[pos]? = some u := fun pos hpos =>
    ⟨_, List.getElem?_eq_getElem (Nat.lt_of_lt_of_le hpos hhi)⟩
  rw [hat.mem_ahead_iff hlt]
  constructor
  · rintro ⟨hlength, hoffer⟩
    have hfits : ∀ pos u, lo ≤ pos → pos < hi → order.sequence[pos]? = some u → _ :=
      fun pos u hle hlt hu => (mem_offers_iff hgrown hu).mp (hoffer pos hle hlt)
    obtain ⟨hnodup, hunheld⟩ := (hat.distinct_iff hlength).mp fun pos hle hlt =>
      have ⟨u, hu⟩ := hvertex pos hlt
      ⟨(hfits pos u hle hlt hu).1, (hfits pos u hle hlt hu).2.1⟩
    exact ⟨hlength, hnodup, hunheld, fun pos u hle hlt hu => (hfits pos u hle hlt hu).2.2.1,
      fun pos u hle hlt hu => (hfits pos u hle hlt hu).2.2.2⟩
  · intro h
    refine ⟨h.length_eq, fun pos hle hlt => ?_⟩
    obtain ⟨u, hu⟩ := hvertex pos hlt
    obtain ⟨hother, hbusy⟩ := (hat.distinct_iff h.length_eq).mpr ⟨h.nodup, h.unheld⟩ pos hle hlt
    exact (mem_offers_iff hgrown hu).mpr
      ⟨hother, hbusy, h.source pos u hle hlt hu, h.joined pos u hle hlt hu⟩

namespace Cursor

/-- Wherever a session with a cursor on the course of a matching order has led, a sweep of a
range that is free, behind positions that hold something, comes to every way to fill it, in
strictly ascending order.  It leaves the range free and everything else as it was; and a
search of positions before the range goes on from there as it would have before the
sweep. -/
theorem sweep_exact (data : Graph) (i : Index) (t : Tree) (order : Order)
    (hgrown : Grown t order.sequence) (c : Cursor)
    (hreached : Reached (Course.ofOrder data i t order) c) (lo hi : Nat) (hlt : lo < hi)
    (hhi : hi ≤ order.sequence.length) (hheld : ∀ pos < lo, (c.slot pos).held? ≠ none)
    (hfree : ∀ pos, lo ≤ pos → pos < hi → (c.slot pos).held? = none) :
    let k := Course.ofOrder data i t order
    ∃ tuples c', Sweep k lo hi false c tuples c' ∧ Reached k c'
      ∧ tuples.Pairwise (List.Lex (· < ·))
      ∧ (∀ tuple, tuple ∈ tuples ↔ Fills data i t order.sequence c lo hi tuple)
      ∧ (∀ pos, lo ≤ pos → pos < hi → (c'.slot pos).held? = none)
      ∧ (∀ pos, pos < lo ∨ hi ≤ pos → c'.slot pos = c.slot pos
          ∧ ∀ u, order.sequence[pos]? = some u → c'.image u = c.image u)
      ∧ (∀ v, v ∈ c'.used ↔ v ∈ c.used)
      ∧ ∀ lo' hi', lo' < hi' → hi' ≤ lo → ∃ rest c₁ c₁',
          Sweep k lo' hi' true c rest c₁ ∧ Sweep k lo' hi' true c' rest c₁' := by
  intro k
  have hk : k.Closed := closed_ofOrder data i hgrown
  have hlength : k.length = order.sequence.length := length_ofOrder
  have hvalid : c.Valid k := (kept_valid hk).reached (.start k) hreached
  have hat := hvalid.atRange hheld hfree
  obtain ⟨c', hsweep, hat', hsame⟩ := sweep_of_answers hk hlt (by omega)
    hvalid.size_slots (next_start_spec hk hat hlt (by omega))
  refine ⟨_, c', hsweep, hsweep.reached hreached, pairwise_ahead _ c lo _,
    fun tuple => mem_ahead_ofOrder_iff hgrown hlt hhi hat, hat'.free,
    fun pos hpos => ⟨hsame.slot pos hpos, fun u hu => ?_⟩, fun v => ?_,
    fun lo' hi' hlt' hle => sweeps_alike hk hat hat' hsame (by omega) hlt' hle⟩
  · obtain ⟨hpos', rfl⟩ := List.getElem?_eq_some_iff.mp hu
    rw [← (along_ofOrder data i hgrown hpos').1]
    exact hsame.image pos (by omega) hpos
  · rw [hat'.valid.mem_used, hat.valid.mem_used]
    simp only [hsame.held?_eq hat hat']

/-- The cursor of the cherry when the center is placed. -/
def cherryCursor : Cursor := ⟨#[⟨[], some 0⟩, ⟨[], none⟩, ⟨[], none⟩], #[0, 0, 0], [0]⟩

theorem fills_cherry : Fills cherry cherryIndex cherryTree [0, 1, 2] cherryCursor 1 3 [2, 1] := by
  have hleaf : ∀ pos, 1 ≤ pos → pos < 3 → pos = 1 ∨ pos = 2 := fun pos _ _ => by omega
  refine ⟨rfl, by decide, ?_, fun pos u hle hlt hu => ?_, fun pos u hle hlt hu => ?_⟩
  · rintro pos (hpos | hpos) v hv hheld
    · obtain rfl : pos = 0 := by omega
      cases hheld
      exact absurd hv (by decide)
    · rw [slot, Array.getElem?_eq_none hpos] at hheld
      cases hheld
  · obtain rfl | rfl := hleaf pos hle hlt
    · cases hu
      exact (⟨0, by decide, rfl, by decide⟩ :
        ∃ q < 1, [0, 1, 2][q]? = some 0 ∧ 2 ∈ cherryIndex.linked 1 (cherryCursor.filled 1 [2, 1] q))
    · cases hu
      exact (⟨0, by decide, rfl, by decide⟩ :
        ∃ q < 2, [0, 1, 2][q]? = some 0 ∧ 1 ∈ cherryIndex.linked 2 (cherryCursor.filled 1 [2, 1] q))
  · -- The center is the parent of both leaves, and they are not joined.
    have hnone : cherryTree.pattern.edgeLabel? 1 2 = none := by decide
    intro q hq w label hw hne hl
    obtain rfl | rfl := hleaf pos hle hlt
    · obtain rfl : q = 0 := by omega
      cases hu
      cases hw
      exact absurd rfl hne
    · cases hu
      obtain rfl | rfl : q = 0 ∨ q = 1 := by omega
      · cases hw
        exact absurd rfl hne
      · cases hw
        rw [hnone] at hl
        cases hl

/-- With the center of the cherry placed, a sweep of the leaves comes to the lower one
behind the higher one, and leaves the center. -/
theorem sweep_exact_cherry :
    Grown cherryTree [0, 1, 2] ∧ Reached cherryCourse cherryCursor
      ∧ (∀ pos < 1, (cherryCursor.slot pos).held? ≠ none)
      ∧ (∀ pos < 3, 1 ≤ pos → (cherryCursor.slot pos).held? = none)
      ∧ ∃ tuples c', Sweep cherryCourse 1 3 false cherryCursor tuples c'
        ∧ [2, 1] ∈ tuples ∧ ∀ v, v ∈ c'.used ↔ v = 0 := by
  have hgrown : Grown cherryTree [0, 1, 2] :=
    ⟨by decide, by simp [ParentsFirst, cherryTree, Tree.parent?], by decide⟩
  have hreached : Reached cherryCourse cherryCursor := by
    refine ⟨[.next 0 1 false], ?_⟩
    rw [serveAll?, List.foldlM_cons, serve?, next?, next, seek.eq_def]
    rfl
  have hheld : ∀ pos < 1, (cherryCursor.slot pos).held? ≠ none := by decide
  have hfree : ∀ pos < 3, 1 ≤ pos → (cherryCursor.slot pos).held? = none := by decide
  obtain ⟨tuples, c', hsweep, -, -, hfills, -, -, hused, -⟩ := sweep_exact cherry cherryIndex
    cherryTree ⟨[0, 1, 2], 1⟩ hgrown cherryCursor hreached 1 3 (by decide) (by decide) hheld
    fun pos hle hlt => hfree pos hlt hle
  exact ⟨hgrown, hreached, hheld, hfree, tuples, c', hsweep, (hfills _).mpr fills_cherry,
    fun v => (hused v).trans List.mem_singleton⟩

end Cursor

end GraphDependency.Candidate
