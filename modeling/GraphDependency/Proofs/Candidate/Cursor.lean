import GraphDependency.Candidate.Cursor
import GraphDependency.Proofs.Candidate.Course

set_option autoImplicit false

/-!
# Where a cursor stands

A cursor holds data vertices at some positions and has candidates left at each of
them.  Together they determine the placements that are still to come: at the last
position those that its remaining candidates lead to, then those at the position
before it, and so on.  A search answers with the first of them and leaves the rest,
and everything outside its range, as it was.

Main statements: `seek_spec`, `resumeFrom_spec`, from them `next_start_spec` and
`next_resume_spec`, and `visitRange_spec` (visiting a range is visiting the placements
that lead through it).
-/

namespace GraphDependency.Candidate

open GraphDependency.Matching GraphDependency.Matching.Placement GraphDependency.Pattern

namespace Course

/-- The vertices on a course are different, and every stop refers to vertices of the
stops before it. -/
structure Closed (k : Course) : Prop where
  vertex_lt : ∀ pos < k.length, (k.stop pos).vertex < k.patternSize
  vertex_injective : ∀ i < k.length, ∀ j < k.length,
    (k.stop i).vertex = (k.stop j).vertex → i = j
  parent : ∀ pos < k.length, ∀ p, (k.stop pos).parent? = some p →
    ∃ j < pos, (k.stop j).vertex = p
  check : ∀ pos < k.length, ∀ e ∈ (k.stop pos).checks, ∃ j < pos, (k.stop j).vertex = e.1

/-- A data vertex may be placed at a stop while others are held elsewhere. -/
def takes (k : Course) (busy : List Nat) (p : Placement) (s : Stop) (v : Nat) : Bool :=
  (!p.uses v && !busy.contains v) && s.accepts k.data p.image v

/-- Where the vertex of a stop can go while data vertices are held elsewhere. -/
def offers (k : Course) (busy : List Nat) (p : Placement) (s : Stop) : List Nat :=
  (s.source k.index p.image).filter (k.takes busy p s)

theorem offers_nil (k : Course) : k.offers [] = choices k.data k.index := by
  funext p s
  refine List.filter_congr ?_
  intro v _
  simp [takes]

/-- A number of stops from a position on. -/
def stopsFrom (k : Course) (pos n : Nat) : List Stop := (List.range' pos n).map k.stop

/-- The placements to which candidates at a position lead, when the positions up to
`hi` are filled. -/
def ahead (k : Course) (busy : List Nat) (p : Placement) (pos hi : Nat)
    (remaining : List Nat) : List Placement :=
  (remaining.filter (k.takes busy p (k.stop pos))).flatMap fun v =>
    extensions Stop.vertex (k.offers busy) (k.stopsFrom (pos + 1) (hi - 1 - pos))
      (((k.stop pos).vertex, v) :: p)

variable {k : Course} {busy : List Nat} {p : Placement} {pos hi v : Nat} {remaining : List Nat}

theorem ahead_cons_of_takes (h : k.takes busy p (k.stop pos) v = true) :
    k.ahead busy p pos hi (v :: remaining)
      = extensions Stop.vertex (k.offers busy) (k.stopsFrom (pos + 1) (hi - 1 - pos))
          (((k.stop pos).vertex, v) :: p)
        ++ k.ahead busy p pos hi remaining := by
  rw [ahead, List.filter_cons_of_pos h, List.flatMap_cons, ahead]

theorem ahead_cons_of_not_takes (h : ¬ k.takes busy p (k.stop pos) v = true) :
    k.ahead busy p pos hi (v :: remaining) = k.ahead busy p pos hi remaining := by
  rw [ahead, List.filter_cons_of_neg h, ahead]

/-- All candidates of a position lead to all ways to fill it and those behind it. -/
theorem ahead_source (hlt : pos < hi) :
    k.ahead busy p pos hi ((k.stop pos).source k.index p.image)
      = extensions Stop.vertex (k.offers busy) (k.stopsFrom pos (hi - pos)) p := by
  obtain ⟨n, hn⟩ : ∃ n, hi - pos = n + 1 := ⟨hi - pos - 1, by omega⟩
  have hn' : hi - 1 - pos = n := by omega
  rw [ahead, hn, hn', stopsFrom, stopsFrom, List.range'_succ, List.map_cons, extensions, offers]

end Course

namespace Cursor

variable {k : Course} {busy : List Nat} {c c' : Cursor} {pos lo hi v : Nat} {rest : List Nat}

/-! ## Reading after writing -/

theorem held?_start (k : Course) (pos : Nat) : ((start k).slot pos).held? = none := by
  simp only [slot, start, Array.getElem?_replicate]
  split <;> rfl

theorem held?_release (c : Cursor) (pos i : Nat) :
    ((c.release pos).slot i).held? = if pos = i then none else (c.slot i).held? := by
  split
  · rename_i h
    subst h
    unfold release
    split
    · assumption
    · change ((c.setSlot pos _).slot pos).held? = none
      rw [slot_setSlot]
      split
      · rfl
      · rename_i h
        rw [slot, Array.getElem?_eq_none (by simpa using h)]
        rfl
  · rename_i h
    rw [slot_release_of_ne c h]

theorem held?_release_eq_some_iff {i w : Nat} :
    ((c.release pos).slot i).held? = some w ↔ pos ≠ i ∧ (c.slot i).held? = some w := by
  rw [held?_release]
  split <;> simp [*]

@[simp] theorem mapping_release (c : Cursor) (pos : Nat) :
    (c.release pos).mapping = c.mapping := by
  unfold release
  split <;> rfl

@[simp] theorem size_slots_release (c : Cursor) (pos : Nat) :
    (c.release pos).slots.size = c.slots.size := by
  unfold release
  split
  · rfl
  · simp [setSlot]

theorem used_release (c : Cursor) (pos : Nat) :
    (c.release pos).used = match (c.slot pos).held? with
      | none => c.used
      | some v => c.used.erase v := by
  unfold release
  split <;> simp [*]

@[simp] theorem image_release (c : Cursor) (pos u : Nat) :
    (c.release pos).image u = c.image u := by
  rw [image, image, mapping_release]

/-- Replacing the candidates of a position leaves what the positions hold. -/
theorem held?_setRemaining (c : Cursor) (pos i : Nat) (remaining : List Nat) :
    ((c.setSlot pos ⟨remaining, (c.slot pos).held?⟩).slot i).held? = (c.slot i).held? := by
  rw [slot_setSlot]
  split
  · rename_i h
    rw [h.1]
  · rfl

theorem slot_hold (c : Cursor) (k : Course) (pos v : Nat) (rest : List Nat) (i : Nat) :
    (c.hold k pos v rest).slot i
      = if pos = i ∧ i < c.slots.size then ⟨rest, some v⟩ else c.slot i :=
  slot_setSlot c pos i ⟨rest, some v⟩

theorem image_hold (c : Cursor) (k : Course) (pos v : Nat) (rest : List Nat) (u : Nat) :
    (c.hold k pos v rest).image u
      = if (k.stop pos).vertex = u ∧ u < c.mapping.size then v else c.image u := by
  simp only [image, hold, Array.getElem?_setIfInBounds]
  by_cases h : (k.stop pos).vertex = u
  · subst h
    by_cases hu : (k.stop pos).vertex < c.mapping.size <;> simp [hu]
  · simp [h]

/-- A data vertex that a position may take is not held. -/
theorem notMem_used_of_acceptable (h : c.acceptable k pos v = true) : v ∉ c.used := by
  rw [acceptable, Bool.and_eq_true, Bool.not_eq_true', ← Bool.not_eq_true,
    List.contains_iff_mem] at h
  exact h.1

/-- A free position is already released. -/
theorem release_of_free (h : (c.slot pos).held? = none) : c.release pos = c := by
  rw [release, h]

/-- A position that got its candidates back is free. -/
theorem held?_reset (c : Cursor) (k : Course) (pos : Nat) :
    ((c.reset k pos).slot pos).held? = none := by
  rw [reset, held?_setRemaining, held?_release, if_pos rfl]

/-! ## What is held -/

/-- The slots fit the course, and what is used is what the positions hold, each data
vertex at one position only. -/
structure Exclusive (k : Course) (c : Cursor) : Prop where
  size_slots : c.slots.size = k.length
  nodup_used : c.used.Nodup
  mem_used : ∀ v, v ∈ c.used ↔ ∃ pos, (c.slot pos).held? = some v
  held_injective : ∀ i j v, (c.slot i).held? = some v → (c.slot j).held? = some v → i = j

namespace Exclusive

theorem lt_length (h : Exclusive k c) (hheld : (c.slot pos).held? = some v) :
    pos < k.length := by
  by_contra hge
  rw [slot, Array.getElem?_eq_none (by rw [h.size_slots]; omega)] at hheld
  cases hheld

theorem start (k : Course) : Exclusive k (Cursor.start k) where
  size_slots := Array.size_replicate
  nodup_used := List.nodup_nil
  mem_used v := by
    simp only [held?_start]
    exact ⟨fun h => absurd h List.not_mem_nil, fun ⟨_, h⟩ => by cases h⟩
  held_injective := by simp [held?_start]

/-- What is used after a release is what the other positions hold. -/
theorem mem_used_release (h : Exclusive k c) (pos w : Nat) :
    w ∈ (c.release pos).used ↔ ∃ i, pos ≠ i ∧ (c.slot i).held? = some w := by
  rw [used_release]
  split
  · rename_i hnone
    rw [h.mem_used]
    refine exists_congr fun i => ⟨fun hi => ⟨?_, hi⟩, And.right⟩
    rintro rfl
    rw [hnone] at hi
    cases hi
  · rename_i v hv
    rw [h.nodup_used.mem_erase_iff, h.mem_used]
    constructor
    · rintro ⟨hne, i, hi⟩
      refine ⟨i, ?_, hi⟩
      rintro rfl
      exact hne (Option.some.inj (hi.symm.trans hv))
    · rintro ⟨i, hne, hi⟩
      refine ⟨?_, i, hi⟩
      rintro rfl
      exact hne (h.held_injective _ _ _ hv hi)

theorem release (h : Exclusive k c) (pos : Nat) : Exclusive k (c.release pos) where
  size_slots := by rw [size_slots_release, h.size_slots]
  nodup_used := by
    rw [used_release]
    split
    · exact h.nodup_used
    · exact h.nodup_used.erase _
  mem_used w := by
    rw [h.mem_used_release]
    simp only [held?_release_eq_some_iff]
  held_injective i j w hi hj :=
    h.held_injective i j w (held?_release_eq_some_iff.mp hi).2 (held?_release_eq_some_iff.mp hj).2

theorem setRemaining (h : Exclusive k c) (pos : Nat) (remaining : List Nat) :
    Exclusive k (c.setSlot pos ⟨remaining, (c.slot pos).held?⟩) where
  size_slots := by
    rw [← h.size_slots]
    exact Array.size_setIfInBounds
  nodup_used := h.nodup_used
  mem_used w := by
    simp only [held?_setRemaining]
    exact h.mem_used w
  held_injective := by
    simp only [held?_setRemaining]
    exact h.held_injective

theorem held?_hold_eq_some_iff (h : Exclusive k c) (hpos : pos < k.length)
    (hfree : (c.slot pos).held? = none) (v : Nat) (rest : List Nat) (i w : Nat) :
    ((c.hold k pos v rest).slot i).held? = some w
      ↔ (pos = i ∧ v = w) ∨ (c.slot i).held? = some w := by
  rw [slot_hold]
  split
  · rename_i heq
    obtain ⟨rfl, -⟩ := heq
    simp [hfree]
  · rename_i hne
    have hi : pos ≠ i := by
      rintro rfl
      exact hne ⟨rfl, by rwa [h.size_slots]⟩
    simp [hi]

/-- A free position may take a data vertex that no position holds. -/
theorem hold (h : Exclusive k c) (hpos : pos < k.length) (hfree : (c.slot pos).held? = none)
    (hv : v ∉ c.used) (rest : List Nat) : Exclusive k (c.hold k pos v rest) := by
  have hheld := h.held?_hold_eq_some_iff hpos hfree v rest
  have hout : ∀ i, (c.slot i).held? ≠ some v := fun i hi => hv ((h.mem_used v).mpr ⟨i, hi⟩)
  refine ⟨?_, List.nodup_cons.mpr ⟨hv, h.nodup_used⟩, fun w => ?_, ?_⟩
  · rw [← h.size_slots]
    exact Array.size_setIfInBounds
  · simp only [hheld]
    rw [show (c.hold k pos v rest).used = v :: c.used from rfl, List.mem_cons, h.mem_used]
    constructor
    · rintro (rfl | ⟨i, hi⟩)
      · exact ⟨pos, Or.inl ⟨rfl, rfl⟩⟩
      · exact ⟨i, Or.inr hi⟩
    · rintro ⟨i, ⟨-, rfl⟩ | hi⟩
      · exact Or.inl rfl
      · exact Or.inr ⟨i, hi⟩
  · intro i j w hi hj
    rcases (hheld i w).mp hi with ⟨rfl, rfl⟩ | hi
    · rcases (hheld j v).mp hj with ⟨rfl, -⟩ | hj
      · rfl
      · exact absurd hj (hout j)
    · rcases (hheld j w).mp hj with ⟨-, rfl⟩ | hj
      · exact absurd hi (hout i)
      · exact h.held_injective i j w hi hj

end Exclusive

/-- Besides, the images are those held. -/
structure Valid (k : Course) (c : Cursor) : Prop extends Exclusive k c where
  size_mapping : c.mapping.size = k.patternSize
  image_eq : ∀ pos v, (c.slot pos).held? = some v → c.image (k.stop pos).vertex = v

namespace Valid

theorem start (k : Course) : Valid k (Cursor.start k) where
  toExclusive := .start k
  size_mapping := Array.size_replicate
  image_eq := by simp [held?_start]

theorem release (h : Valid k c) (pos : Nat) : Valid k (c.release pos) where
  toExclusive := h.toExclusive.release pos
  size_mapping := by rw [mapping_release, h.size_mapping]
  image_eq i w hi := by
    rw [image_release]
    exact h.image_eq i w (held?_release_eq_some_iff.mp hi).2

theorem setRemaining (h : Valid k c) (pos : Nat) (remaining : List Nat) :
    Valid k (c.setSlot pos ⟨remaining, (c.slot pos).held?⟩) where
  toExclusive := h.toExclusive.setRemaining pos remaining
  size_mapping := h.size_mapping
  image_eq := by
    simp only [held?_setRemaining]
    exact h.image_eq

/-- A data vertex is taken as the image of the vertex at its position. -/
theorem hold (hk : k.Closed) (h : Valid k c) (hpos : pos < k.length)
    (hfree : (c.slot pos).held? = none) (hv : v ∉ c.used) (rest : List Nat) :
    Valid k (c.hold k pos v rest) := by
  refine ⟨h.toExclusive.hold hpos hfree hv rest, ?_, ?_⟩
  · rw [← h.size_mapping]
    exact Array.size_setIfInBounds
  · intro i w hi
    rw [image_hold, h.size_mapping]
    rcases (h.held?_hold_eq_some_iff hpos hfree v rest i w).mp hi with ⟨rfl, rfl⟩ | hi
    · exact if_pos ⟨rfl, hk.vertex_lt pos hpos⟩
    · rw [if_neg, h.image_eq i w hi]
      rintro ⟨heq, -⟩
      obtain rfl := hk.vertex_injective pos hpos i (h.lt_length hi) heq
      rw [hfree] at hi
      cases hi

end Valid

/-! ## What is placed -/

/-- What is placed at the first positions, the last one first. -/
def placement (c : Cursor) (k : Course) : Nat → Placement
  | 0 => []
  | pos + 1 => ((k.stop pos).vertex, c.image (k.stop pos).vertex) :: c.placement k pos

theorem mem_placement_iff {e : Nat × Nat} :
    e ∈ c.placement k pos
      ↔ ∃ j < pos, e = ((k.stop j).vertex, c.image (k.stop j).vertex) := by
  induction pos with
  | zero => simp [placement]
  | succ pos ih =>
    rw [placement, List.mem_cons, ih]
    constructor
    · rintro (rfl | ⟨j, hj, rfl⟩)
      · exact ⟨pos, Nat.lt_succ_self pos, rfl⟩
      · exact ⟨j, Nat.lt_succ_of_lt hj, rfl⟩
    · rintro ⟨j, hj, rfl⟩
      rcases Nat.lt_succ_iff_lt_or_eq.mp hj with hj | rfl
      · exact Or.inr ⟨j, hj, rfl⟩
      · exact Or.inl rfl

/-- The placement gives every vertex that it places the image of the cursor. -/
theorem image_placement {j : Nat} (hj : j < pos) :
    (c.placement k pos).image (k.stop j).vertex = c.image (k.stop j).vertex := by
  induction pos with
  | zero => omega
  | succ pos ih =>
    rw [placement, image_cons]
    split
    · rename_i heq
      rw [heq]
    · rename_i hne
      rcases Nat.lt_succ_iff_lt_or_eq.mp hj with hj | rfl
      · exact ih hj
      · exact absurd rfl hne

theorem placement_congr
    (h : ∀ j < pos, c'.image (k.stop j).vertex = c.image (k.stop j).vertex) :
    c'.placement k pos = c.placement k pos := by
  induction pos with
  | zero => rfl
  | succ pos ih =>
    rw [placement, placement, h pos (Nat.lt_succ_self pos),
      ih fun j hj => h j (Nat.lt_succ_of_lt hj)]

/-- The positions before `pos` hold a data vertex, those from there up to `hi` are
free, and those from `hi` on hold the busy ones. -/
structure At (k : Course) (busy : List Nat) (pos hi : Nat) (c : Cursor) : Prop where
  valid : c.Valid k
  held : ∀ q < pos, (c.slot q).held? ≠ none
  free : ∀ q, pos ≤ q → q < hi → (c.slot q).held? = none
  mem_busy : ∀ v, v ∈ busy ↔ ∃ q, hi ≤ q ∧ (c.slot q).held? = some v

/-- Nothing has changed outside a range of positions. -/
structure Same (k : Course) (lo hi : Nat) (c c' : Cursor) : Prop where
  slot : ∀ q, q < lo ∨ hi ≤ q → c'.slot q = c.slot q
  image : ∀ q < k.length, q < lo ∨ hi ≤ q →
    c'.image (k.stop q).vertex = c.image (k.stop q).vertex

namespace Same

theorem refl (k : Course) (lo hi : Nat) (c : Cursor) : Same k lo hi c c :=
  ⟨fun _ _ => rfl, fun _ _ _ => rfl⟩

theorem trans {c'' : Cursor} (h : Same k lo hi c c') (h' : Same k lo hi c' c'') :
    Same k lo hi c c'' :=
  ⟨fun q hq => (h'.slot q hq).trans (h.slot q hq),
    fun q hlt hq => (h'.image q hlt hq).trans (h.image q hlt hq)⟩

theorem mono {lo' : Nat} (h : Same k lo hi c c') (hle : lo' ≤ lo) : Same k lo' hi c c' :=
  ⟨fun q hq => h.slot q (by omega), fun q hlt hq => h.image q hlt (by omega)⟩

theorem widen {hi' : Nat} (h : Same k lo hi c c') (hle : hi ≤ hi') : Same k lo hi' c c' :=
  ⟨fun q hq => h.slot q (by omega), fun q hlt hq => h.image q hlt (by omega)⟩

theorem release (c : Cursor) (hlo : lo ≤ pos) (hhi : pos < hi) :
    Same k lo hi c (c.release pos) :=
  ⟨fun q hq => slot_release_of_ne c (by omega), fun _ _ _ => image_release c pos _⟩

theorem setSlot (c : Cursor) (s : Slot) (hlo : lo ≤ pos) (hhi : pos < hi) :
    Same k lo hi c (c.setSlot pos s) :=
  ⟨fun q hq => slot_setSlot_of_ne c (by omega) s, fun _ _ _ => rfl⟩

theorem hold (hk : k.Closed) (c : Cursor) (v : Nat) (rest : List Nat) (hpos : pos < k.length)
    (hlo : lo ≤ pos) (hhi : pos < hi) : Same k lo hi c (c.hold k pos v rest) := by
  refine ⟨fun q hq => slot_hold_of_ne c k (by omega) v rest, ?_⟩
  intro q hlt hq
  rw [image_hold, if_neg]
  rintro ⟨heq, -⟩
  have := hk.vertex_injective pos hpos q hlt heq
  omega

theorem reset (c : Cursor) (hlo : lo ≤ pos) (hhi : pos < hi) :
    Same k lo hi c (c.reset k pos) :=
  (release c hlo hhi).trans (setSlot _ _ hlo hhi)

theorem placement_eq (h : Same k lo hi c c') (hle : pos ≤ lo) (hlen : pos ≤ k.length) :
    c'.placement k pos = c.placement k pos :=
  placement_congr fun j hj => h.image j (by omega) (Or.inl (by omega))

end Same

namespace At

theorem release (h : At k busy (pos + 1) hi c) (hlt : pos < hi) :
    At k busy pos hi (c.release pos) where
  valid := h.valid.release pos
  held q hq := by
    rw [held?_release, if_neg (by omega)]
    exact h.held q (by omega)
  free q hle hq := by
    rw [held?_release]
    split
    · rfl
    · exact h.free q (by omega) hq
  mem_busy w := by
    rw [h.mem_busy]
    refine exists_congr fun q => and_congr_right ?_
    intro hq
    rw [held?_release, if_neg (by omega)]

theorem setRemaining (h : At k busy pos hi c) (q : Nat) (remaining : List Nat) :
    At k busy pos hi (c.setSlot q ⟨remaining, (c.slot q).held?⟩) where
  valid := h.valid.setRemaining q remaining
  held := by
    simp only [held?_setRemaining]
    exact h.held
  free := by
    simp only [held?_setRemaining]
    exact h.free
  mem_busy := by
    simp only [held?_setRemaining]
    exact h.mem_busy

/-- A free position of the range is already released. -/
theorem release_eq (h : At k busy pos hi c) (hlt : pos < hi) : c.release pos = c :=
  release_of_free (h.free pos (Nat.le_refl pos) hlt)

theorem reset (h : At k busy pos hi c) (hlt : pos < hi) : At k busy pos hi (c.reset k pos) := by
  rw [Cursor.reset, h.release_eq hlt]
  exact h.setRemaining pos _

/-- The data vertices of the placement are those held before the position. -/
theorem uses_eq_false_iff (h : At k busy pos hi c) :
    (c.placement k pos).uses v = false ↔ ∀ q < pos, (c.slot q).held? ≠ some v := by
  rw [Placement.uses_eq_false_iff, images, List.mem_map]
  constructor
  · intro hnone q hq heq
    refine hnone ⟨_, mem_placement_iff.mpr ⟨q, hq, rfl⟩, ?_⟩
    exact h.valid.image_eq q v heq
  · rintro hne ⟨e, he, rfl⟩
    obtain ⟨q, hq, rfl⟩ := mem_placement_iff.mp he
    obtain ⟨w, hw⟩ := Option.ne_none_iff_exists'.mp (h.held q hq)
    refine hne q hq ?_
    rw [hw, h.valid.image_eq q w hw]

/-- What the cursor finds acceptable is what may be placed behind its placement. -/
theorem acceptable_eq (hk : k.Closed) (h : At k busy pos hi c) (hlt : pos < hi)
    (hlen : hi ≤ k.length) (v : Nat) :
    c.acceptable k pos v = k.takes busy (c.placement k pos) (k.stop pos) v := by
  rw [acceptable, Course.takes]
  congr 1
  · rw [Bool.eq_iff_iff]
    simp only [Bool.and_eq_true, Bool.not_eq_true', h.uses_eq_false_iff]
    rw [← Bool.not_eq_true, List.contains_iff_mem, h.valid.mem_used, ← Bool.not_eq_true,
      List.contains_iff_mem, h.mem_busy]
    constructor
    · intro hnone
      exact ⟨fun q _ hq => hnone ⟨q, hq⟩, fun ⟨q, _, hq⟩ => hnone ⟨q, hq⟩⟩
    · rintro ⟨hbefore, hbusy⟩ ⟨q, hq⟩
      by_cases hqp : q < pos
      · exact hbefore q hqp hq
      · by_cases hqh : q < hi
        · rw [h.free q (by omega) hqh] at hq
          cases hq
        · exact hbusy ⟨q, by omega, hq⟩
  · unfold Stop.accepts
    rw [Bool.eq_iff_iff, List.all_eq_true, List.all_eq_true]
    refine forall₂_congr ?_
    intro e he
    obtain ⟨j, hj, hv⟩ := hk.check pos (by omega) e he
    rw [← hv, image_placement hj]

/-- The candidates of a position are chosen behind its placement. -/
theorem source_eq (hk : k.Closed) (hlen : pos < k.length) :
    (k.stop pos).source k.index c.image
      = (k.stop pos).source k.index (c.placement k pos).image := by
  unfold Stop.source
  split
  · rfl
  · rename_i p hp
    obtain ⟨j, hj, hv⟩ := hk.parent pos hlen p hp
    rw [← hv, image_placement hj]

theorem hold (hk : k.Closed) (h : At k busy pos hi c) (hlt : pos < hi) (hlen : hi ≤ k.length)
    (hacc : c.acceptable k pos v = true) (rest : List Nat) :
    At k busy (pos + 1) hi (c.hold k pos v rest) := by
  have hfree := h.free pos (Nat.le_refl pos) hlt
  have hv : v ∉ c.used := notMem_used_of_acceptable hacc
  have hsize : pos < c.slots.size := by
    rw [h.valid.size_slots]
    omega
  refine ⟨h.valid.hold hk (by omega) hfree hv rest, fun q hq => ?_, fun q hle hq => ?_,
    fun w => ?_⟩
  · rw [slot_hold]
    split
    · simp
    · rename_i hne
      refine h.held q ?_
      have : pos ≠ q := fun heq => hne ⟨heq, heq ▸ hsize⟩
      omega
  · rw [slot_hold_of_ne c k (by omega)]
    exact h.free q (by omega) hq
  · rw [h.mem_busy]
    refine exists_congr fun q => and_congr_right ?_
    intro hq
    rw [slot_hold_of_ne c k (by omega)]

theorem placement_hold (hk : k.Closed) (h : At k busy pos hi c) (hpos : pos < k.length)
    (v : Nat) (rest : List Nat) :
    (c.hold k pos v rest).placement k (pos + 1)
      = ((k.stop pos).vertex, v) :: c.placement k pos := by
  have hvertex := hk.vertex_lt pos hpos
  rw [placement, image_hold, if_pos ⟨rfl, by rwa [h.valid.size_mapping]⟩]
  congr 1
  refine placement_congr ?_
  intro j hj
  rw [image_hold, if_neg]
  rintro ⟨heq, -⟩
  have := hk.vertex_injective pos hpos j (by omega) heq
  omega

/-- A free position gets its candidates back. -/
theorem remaining_reset (hk : k.Closed) (h : At k busy pos hi c) (hlt : pos < hi)
    (hlen : hi ≤ k.length) :
    ((c.reset k pos).slot pos).remaining
      = (k.stop pos).source k.index (c.placement k pos).image := by
  rw [Cursor.reset, h.release_eq hlt, slot_setSlot, if_pos ⟨rfl, by rw [h.valid.size_slots]; omega⟩]
  exact source_eq hk (by omega)

/-- A position that got its candidates back has all ways to fill the range ahead. -/
theorem ahead_reset (hk : k.Closed) (h : At k busy pos hi c) (hlt : pos < hi)
    (hlen : hi ≤ k.length) :
    k.ahead busy ((c.reset k pos).placement k pos) pos hi ((c.reset k pos).slot pos).remaining
      = extensions Stop.vertex (k.offers busy) (k.stopsFrom pos (hi - pos))
          (c.placement k pos) := by
  rw [(Same.reset c (Nat.le_refl pos) hlt).placement_eq (Nat.le_refl pos) (by omega),
    h.remaining_reset hk hlt hlen, Course.ahead_source hlt]

end At

/-- A new cursor holds nothing. -/
theorem at_start (k : Course) (hi : Nat) : At k [] 0 hi (start k) := by
  refine ⟨.start k, fun q hq => absurd hq (Nat.not_lt_zero q), fun q _ _ => held?_start k q,
    fun v => ?_⟩
  simp [held?_start]

/-- Where no data vertex is held elsewhere, the end of the range does not matter. -/
theorem At.of_nil {hi' : Nat} (h : At k [] pos hi c) (hle : pos ≤ hi') : At k [] pos hi' c := by
  have hfree : ∀ q, pos ≤ q → (c.slot q).held? = none := by
    intro q hq
    by_cases hqh : q < hi
    · exact h.free q hq hqh
    · cases hheld : (c.slot q).held? with
      | none => rfl
      | some v => exact absurd ((h.mem_busy v).mpr ⟨q, by omega, hheld⟩) List.not_mem_nil
  refine ⟨h.valid, h.held, fun q hq _ => hfree q hq, fun v => ⟨nofun, ?_⟩⟩
  rintro ⟨q, hq, hheld⟩
  rw [hfree q (Nat.le_trans hle hq)] at hheld
  cases hheld

/-! ## What is still to come -/

/-- The placements to which the remaining candidates lead, from the last of a number
of positions down to the first one. -/
def waiting (c : Cursor) (k : Course) (busy : List Nat) (hi : Nat) : Nat → Nat → List Placement
  | _, 0 => []
  | pos, n + 1 =>
    c.waiting k busy hi (pos + 1) n
      ++ k.ahead busy (c.placement k pos) pos hi (c.slot pos).remaining

theorem waiting_add (m n : Nat) :
    c.waiting k busy hi pos (m + n)
      = c.waiting k busy hi (pos + m) n ++ c.waiting k busy hi pos m := by
  induction m generalizing pos with
  | zero => simp [waiting]
  | succ m ih =>
    rw [Nat.add_right_comm, waiting, ih, waiting, List.append_assoc]
    congr 2
    omega

theorem waiting_congr {n : Nat} (hslot : ∀ q < pos + n, c'.slot q = c.slot q)
    (himage : ∀ q < pos + n, c'.image (k.stop q).vertex = c.image (k.stop q).vertex) :
    c'.waiting k busy hi pos n = c.waiting k busy hi pos n := by
  induction n generalizing pos with
  | zero => rfl
  | succ n ih =>
    rw [waiting, waiting, ih (fun q hq => hslot q (by omega)) fun q hq => himage q (by omega),
      hslot pos (by omega), placement_congr fun j hj => himage j (by omega)]

/-- A search of a range answers with the first of the placements ahead and leaves the
others, or finds that there are none and leaves the range free; in both cases nothing
has changed outside the range. -/
structure Answers (k : Course) (busy : List Nat) (lo hi : Nat) (c : Cursor)
    (ahead : List Placement) (answer : Bool × Cursor) : Prop where
  same : Same k lo hi c answer.2
  found : answer.1 = true → At k busy hi hi answer.2
    ∧ ahead = answer.2.placement k hi :: answer.2.waiting k busy hi lo (hi - lo)
  exhausted : answer.1 = false → At k busy lo hi answer.2 ∧ ahead = []

namespace Answers

variable {ahead : List Placement}

theorem of_found (hsame : Same k lo hi c c') (hat : At k busy hi hi c')
    (hahead : ahead = c'.placement k hi :: c'.waiting k busy hi lo (hi - lo)) :
    Answers k busy lo hi c ahead (true, c') :=
  ⟨hsame, fun _ => ⟨hat, hahead⟩, fun h => Bool.noConfusion h⟩

theorem of_exhausted (hsame : Same k lo hi c c') (hat : At k busy lo hi c')
    (hahead : ahead = []) : Answers k busy lo hi c ahead (false, c') :=
  ⟨hsame, fun h => Bool.noConfusion h, fun _ => ⟨hat, hahead⟩⟩

/-- What answers after changes inside the range answers before them. -/
theorem after {answer : Bool × Cursor} (hsame : Same k lo hi c c')
    (h : Answers k busy lo hi c' ahead answer) : Answers k busy lo hi c ahead answer :=
  ⟨hsame.trans h.same, h.found, h.exhausted⟩

end Answers

/-! ## Searching -/

variable (hk : k.Closed)

include hk

theorem ahead_of_acceptable (h : At k busy pos hi c) (hlt : pos < hi) (hlen : hi ≤ k.length)
    (hacc : c.acceptable k pos v = true) (rest : List Nat) :
    k.ahead busy (c.placement k pos) pos hi (v :: rest)
      = extensions Stop.vertex (k.offers busy) (k.stopsFrom (pos + 1) (hi - (pos + 1)))
          ((c.hold k pos v rest).placement k (pos + 1))
        ++ k.ahead busy (c.placement k pos) pos hi rest := by
  rw [h.acceptable_eq hk hlt hlen] at hacc
  rw [Course.ahead_cons_of_takes hacc, h.placement_hold hk (by omega), Nat.sub_sub,
    Nat.add_comm 1 pos]

/-- A search of the positions behind one that holds a data vertex leaves its other
candidates ahead. -/
theorem ahead_of_hold (h : At k busy pos hi c) (hlt : pos < hi) (hlen : hi ≤ k.length)
    (hsame : Same k (pos + 1) hi (c.hold k pos v rest) c') :
    k.ahead busy (c'.placement k pos) pos hi (c'.slot pos).remaining
      = k.ahead busy (c.placement k pos) pos hi rest := by
  have hhold : Same k pos hi c (c.hold k pos v rest) :=
    .hold hk c v rest (by omega) (Nat.le_refl pos) hlt
  rw [hsame.placement_eq (by omega) (by omega), hhold.placement_eq (Nat.le_refl pos) (by omega),
    hsame.slot pos (Or.inl (Nat.lt_succ_self pos)), slot_hold,
    if_pos ⟨rfl, by rw [h.valid.size_slots]; omega⟩]

/-- A search at a free position with all positions before it filled. -/
theorem seek_spec {behind : Nat} (remaining : List Nat) (hhi : pos + behind + 1 = hi)
    (h : At k busy pos hi c) (hlen : hi ≤ k.length) :
    Answers k busy pos hi c (k.ahead busy (c.placement k pos) pos hi remaining)
      (seek k c pos behind remaining) := by
  have hlt : pos < hi := by omega
  fun_induction seek k c pos behind remaining with
  | case1 =>
    exact .of_exhausted (.setSlot _ _ (Nat.le_refl _) hlt) (h.setRemaining _ _) rfl
  | case2 c pos v rest hacc =>
    obtain rfl : hi = pos + 1 := by omega
    refine .of_found (.hold hk c v rest (by omega) (Nat.le_refl pos) hlt)
      (h.hold hk hlt hlen hacc rest) ?_
    rw [ahead_of_acceptable hk h hlt hlen hacc,
      ← ahead_of_hold hk h hlt hlen (.refl k (pos + 1) (pos + 1) _), Nat.sub_self,
      Nat.add_sub_cancel_left]
    rfl
  | case3 c pos v rest hacc ih =>
    rw [h.acceptable_eq hk hlt hlen] at hacc
    rw [Course.ahead_cons_of_not_takes hacc]
    exact ih hhi h hlt
  | case4 c pos behind v rest hacc c₁ c₂ hseek ih =>
    have hheld : At k busy (pos + 1) hi (c.hold k pos v rest) := h.hold hk hlt hlen hacc rest
    have hanswer := ih (by omega) (hheld.reset (by omega)) (by omega)
    rw [hseek] at hanswer
    have hsame : Same k (pos + 1) hi (c.hold k pos v rest) c₂ :=
      (Same.reset _ (Nat.le_refl _) (by omega)).trans hanswer.same
    obtain ⟨hat, hahead⟩ := hanswer.found rfl
    rw [hheld.ahead_reset hk (by omega) hlen] at hahead
    refine .of_found ((Same.hold hk c v rest (by omega) (Nat.le_refl pos) hlt).trans
      (hsame.mono (Nat.le_succ pos))) hat ?_
    rw [ahead_of_acceptable hk h hlt hlen hacc, hahead, ← ahead_of_hold hk h hlt hlen hsame,
      show hi - pos = hi - (pos + 1) + 1 by omega, waiting, List.cons_append]
  | case5 c pos behind v rest hacc c₁ c₂ hseek ih₁ ih₂ =>
    have hheld : At k busy (pos + 1) hi (c.hold k pos v rest) := h.hold hk hlt hlen hacc rest
    have hanswer := ih₁ (by omega) (hheld.reset (by omega)) (by omega)
    rw [hseek] at hanswer
    obtain ⟨hat, hahead⟩ := hanswer.exhausted rfl
    rw [hheld.ahead_reset hk (by omega) hlen] at hahead
    have hsame : Same k pos hi c (c₂.release pos) :=
      (((Same.hold hk c v rest (by omega) (Nat.le_refl pos) hlt).trans
        (Same.reset _ (Nat.le_succ pos) (by omega))).trans
        (hanswer.same.mono (Nat.le_succ pos))).trans (.release c₂ (Nat.le_refl pos) hlt)
    have hrest := ih₂ hhi (hat.release hlt) hlt
    rw [hsame.placement_eq (Nat.le_refl pos) (by omega)] at hrest
    rw [ahead_of_acceptable hk h hlt hlen hacc, hahead, List.nil_append]
    exact hrest.after hsame
  | case6 c pos behind v rest hacc ih =>
    rw [h.acceptable_eq hk hlt hlen] at hacc
    rw [Course.ahead_cons_of_not_takes hacc]
    exact ih hhi h hlt

/-- Searching on at a position up to which the range is filled. -/
theorem seek_release_spec (h : At k busy (pos + 1) hi c) (hlt : pos < hi) (hlen : hi ≤ k.length) :
    Answers k busy pos hi c (k.ahead busy (c.placement k pos) pos hi (c.slot pos).remaining)
      (seek k (c.release pos) pos (hi - 1 - pos) ((c.release pos).slot pos).remaining) := by
  have hsame : Same k pos hi c (c.release pos) := .release c (Nat.le_refl pos) hlt
  have hanswer := seek_spec hk (c.slot pos).remaining
    (show pos + (hi - 1 - pos) + 1 = hi by omega) (h.release hlt) hlen
  rw [hsame.placement_eq (Nat.le_refl pos) (by omega)] at hanswer
  rw [remaining_release]
  exact hanswer.after hsame

omit hk in
theorem waiting_succ (n : Nat) :
    c.waiting k busy hi lo (n + 1)
      = k.ahead busy (c.placement k (lo + n)) (lo + n) hi (c.slot (lo + n)).remaining
        ++ c.waiting k busy hi lo n := by
  rw [waiting_add n 1, waiting, waiting, List.nil_append]

omit hk in
/-- What is found at the last of some positions leaves those before it waiting. -/
theorem Answers.extend {n : Nat} (hlt : lo + n < hi) (hlen : hi ≤ k.length)
    (h : Answers k busy (lo + n) hi c
      (k.ahead busy (c.placement k (lo + n)) (lo + n) hi (c.slot (lo + n)).remaining)
      (true, c')) :
    Answers k busy lo hi c (c.waiting k busy hi lo (n + 1)) (true, c') := by
  obtain ⟨hat, hahead⟩ := h.found rfl
  refine .of_found (h.same.mono (Nat.le_add_right lo n)) hat ?_
  have hwaiting : c'.waiting k busy hi lo n = c.waiting k busy hi lo n :=
    waiting_congr (fun q hq => h.same.slot q (Or.inl hq))
      fun q hq => h.same.image q (by omega) (Or.inl hq)
  rw [waiting_succ, hahead, List.cons_append, ← hwaiting,
    show hi - lo = n + (hi - (lo + n)) by omega, waiting_add]

/-- Searching on at a position up to which the range is filled, and at those before it. -/
theorem resumeFrom_spec {offset : Nat} (h : At k busy (lo + offset + 1) hi c)
    (hlt : lo + offset < hi) (hlen : hi ≤ k.length) :
    Answers k busy lo hi c (c.waiting k busy hi lo (offset + 1))
      (resumeFrom k lo hi offset c) := by
  induction offset generalizing c with
  | zero =>
    have hanswer := seek_release_spec hk h hlt hlen
    rw [resumeFrom]
    simp only [Nat.add_zero] at hanswer ⊢
    split
    · rename_i c₁ hseek
      rw [hseek] at hanswer
      exact Answers.extend hlt hlen hanswer
    · rename_i c₁ hseek
      rw [hseek] at hanswer
      obtain ⟨hat, hahead⟩ := hanswer.exhausted rfl
      refine .of_exhausted hanswer.same hat ?_
      rw [waiting_succ, Nat.add_zero, hahead]
      rfl
  | succ offset ih =>
    have hanswer := seek_release_spec hk h hlt hlen
    rw [resumeFrom]
    simp only
    split
    · rename_i c₁ hseek
      rw [hseek] at hanswer
      exact Answers.extend hlt hlen hanswer
    · rename_i c₁ hseek
      rw [hseek] at hanswer
      obtain ⟨hat, hahead⟩ := hanswer.exhausted rfl
      have hsame := hanswer.same
      have hrest := ih hat (by omega)
      have hwaiting : c₁.waiting k busy hi lo (offset + 1)
          = c.waiting k busy hi lo (offset + 1) :=
        waiting_congr (fun q hq => hsame.slot q (Or.inl hq))
          fun q hq => hsame.image q (by omega) (Or.inl hq)
      rw [waiting_succ, hahead, List.nil_append, ← hwaiting]
      exact hrest.after (hsame.mono (by omega))

/-! ## The next way to fill a range -/

/-- The first way to fill a free range behind filled positions. -/
theorem next_start_spec (h : At k busy lo hi c) (hlt : lo < hi) (hlen : hi ≤ k.length) :
    Answers k busy lo hi c
      (extensions Stop.vertex (k.offers busy) (k.stopsFrom lo (hi - lo)) (c.placement k lo))
      (next k c lo hi false) := by
  have hsame : Same k lo hi c (c.reset k lo) := .reset c (Nat.le_refl lo) hlt
  have hanswer := seek_spec hk ((c.reset k lo).slot lo).remaining
    (show lo + (hi - 1 - lo) + 1 = hi by omega) (h.reset hlt) hlen
  rw [h.ahead_reset hk hlt hlen] at hanswer
  rw [next, if_neg (by omega)]
  exact hanswer.after hsame

/-- The next way to fill a filled range. -/
theorem next_resume_spec (h : At k busy hi hi c) (hlt : lo < hi) (hlen : hi ≤ k.length) :
    Answers k busy lo hi c (c.waiting k busy hi lo (hi - lo)) (next k c lo hi true) := by
  have hoffset : lo + (hi - 1 - lo) + 1 = hi := by omega
  have hcount : hi - 1 - lo + 1 = hi - lo := by omega
  have hat : At k busy (lo + (hi - 1 - lo) + 1) hi c := by rwa [hoffset]
  have hanswer := resumeFrom_spec hk hat (by omega) hlen
  rw [hcount] at hanswer
  rw [next, if_neg (by omega)]
  exact hanswer

/-! ## Visiting a range -/

/-- A step with a cursor ends like one without; where both go on, the cursor has the
given property. -/
def Matches {σ : Type} (P : Cursor → Prop) : ForInStep (σ × Cursor) → ForInStep σ → Prop
  | .done r, .done state => r.1 = state
  | .yield r, .yield state => r.1 = state ∧ P r.2
  | _, _ => False

omit hk in
theorem Matches.imp {σ : Type} {P Q : Cursor → Prop} {r : ForInStep (σ × Cursor)}
    {s : ForInStep σ} (h : Matches P r s) (hPQ : ∀ c, P c → Q c) : Matches Q r s := by
  match r, s, h with
  | .done _, .done _, h => exact h
  | .yield _, .yield _, h => exact ⟨h.1, hPQ _ h.2⟩

omit hk in
/-- Without the cursor, matching steps are equal. -/
theorem Matches.forget_eq {σ : Type} {P : Cursor → Prop} {r : ForInStep (σ × Cursor)}
    {s : ForInStep σ} (h : Matches P r s) : forget r = s := by
  match r, s, h with
  | .done _, .done _, rfl => rfl
  | .yield _, .yield _, ⟨rfl, _⟩ => rfl

omit hk in
theorem Matches.of_done {σ : Type} {P : Cursor → Prop} {r : σ × Cursor} {s : ForInStep σ}
    (h : Matches P (.done r) s) : s = .done r.1 := by
  cases s with
  | done state => exact congrArg ForInStep.done (Eq.symm h)
  | yield state => exact h.elim

omit hk in
theorem Matches.of_yield {σ : Type} {P : Cursor → Prop} {r : σ × Cursor} {s : ForInStep σ}
    (h : Matches P (.yield r) s) : s = .yield r.1 ∧ P r.2 := by
  cases s with
  | done state => exact h.elim
  | yield state => exact ⟨congrArg ForInStep.yield h.1.symm, h.2⟩

omit hk in
/-- Changes behind a range leave the same placements waiting in it. -/
theorem Same.waiting_eq (hlt : lo < hi) (hlen : hi ≤ k.length) (h : Same k hi k.length c c') :
    c'.waiting k busy hi lo (hi - lo) = c.waiting k busy hi lo (hi - lo) :=
  waiting_congr (fun q hq => h.slot q (by omega)) fun q hq => h.image q (by omega) (by omega)

section Visiting

variable {σ : Type} {v : Visitor σ hi} {f : σ → Placement → ForInStep σ}
  (hlt : lo < hi) (hlen : hi ≤ k.length)
  (hvisit : ∀ state c, At k busy hi hi c →
    Matches (fun c' => At k busy hi hi c' ∧ Same k hi k.length c c')
      (v.visit state c) (f state (c.placement k hi)))

include hlt hlen hvisit

/-- Visiting what is left of a range is visiting the placements that wait. -/
theorem visitFrom_spec (state : σ) (h : At k busy hi hi c) :
    Matches (fun c' => At k busy lo hi c' ∧ Same k lo k.length c c')
      (visitFrom k lo hi v state c)
      (visitAll f state (c.waiting k busy hi lo (hi - lo))) := by
  induction hw : c.waiting k busy hi lo (hi - lo) generalizing state c with
  | nil =>
    have hanswer := next_resume_spec hk h hlt hlen
    rw [visitFrom]
    split
    · rename_i c₁ hnext
      rw [hnext] at hanswer
      exact ⟨rfl, (hanswer.exhausted rfl).1, hanswer.same.widen hlen⟩
    · rename_i c₁ hnext
      rw [hnext, hw] at hanswer
      cases (hanswer.found rfl).2
  | cons p rest ih =>
    have hanswer := next_resume_spec hk h hlt hlen
    rw [visitFrom]
    split
    · rename_i c₁ hnext
      rw [hnext, hw] at hanswer
      cases (hanswer.exhausted rfl).2
    · rename_i c₁ hnext
      rw [hnext, hw] at hanswer
      obtain ⟨hat, heq⟩ := hanswer.found rfl
      obtain ⟨rfl, hrest⟩ := List.cons.inj heq
      have hstep := hvisit state c₁ hat
      rw [visitAll]
      split
      · rename_i r hv
        rw [hv] at hstep
        rw [hstep.of_done]
        exact rfl
      · rename_i state₂ c₂ hv
        rw [hv] at hstep
        obtain ⟨hf, hat₂, hsame₂⟩ := hstep.of_yield
        rw [hf, dif_pos hlt]
        refine (ih state₂ hat₂ ((hsame₂.waiting_eq hlt hlen).trans hrest.symm)).imp ?_
        rintro c' ⟨hat', hsame'⟩
        refine ⟨hat', ?_⟩
        exact ((hanswer.same.widen hlen).trans (hsame₂.mono (Nat.le_of_lt hlt))).trans hsame'

/-- Visiting a range is visiting all ways to fill it. -/
theorem visitRange_spec (state : σ) (h : At k busy lo hi c) :
    Matches (fun c' => At k busy lo hi c' ∧ Same k lo k.length c c')
      (visitRange k lo hi v state c)
      (visitAll f state (extensions Stop.vertex (k.offers busy) (k.stopsFrom lo (hi - lo))
        (c.placement k lo))) := by
  have hanswer := next_start_spec hk h hlt hlen
  rw [visitRange]
  split
  · rename_i c₁ hnext
    rw [hnext] at hanswer
    obtain ⟨hat, hnone⟩ := hanswer.exhausted rfl
    rw [hnone]
    exact ⟨rfl, hat, hanswer.same.widen hlen⟩
  · rename_i c₁ hnext
    rw [hnext] at hanswer
    obtain ⟨hat, hsome⟩ := hanswer.found rfl
    have hstep := hvisit state c₁ hat
    rw [hsome, visitAll]
    split
    · rename_i r hv
      rw [hv] at hstep
      rw [hstep.of_done]
      exact rfl
    · rename_i state₂ c₂ hv
      rw [hv] at hstep
      obtain ⟨hf, hat₂, hsame₂⟩ := hstep.of_yield
      have hrest := visitFrom_spec hk hlt hlen hvisit state₂ hat₂
      rw [hsame₂.waiting_eq hlt hlen] at hrest
      rw [hf]
      refine hrest.imp ?_
      rintro c' ⟨hat', hsame'⟩
      refine ⟨hat', ?_⟩
      exact ((hanswer.same.widen hlen).trans (hsame₂.mono (Nat.le_of_lt hlt))).trans hsame'

end Visiting

end Cursor

end GraphDependency.Candidate
