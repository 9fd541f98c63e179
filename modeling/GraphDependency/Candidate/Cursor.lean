import GraphDependency.Candidate.Course

set_option autoImplicit false

/-!
# A resumable enumeration

A cursor stands in the middle of an enumeration along a course.  Every position
has a slot with the data vertex that it holds and the candidates still to be
tried.  A range of positions can be searched from its start, or from where the
last search of it ended, while the positions outside the range stay as they are.
Data vertices held by any position are not given to another one.

Main statements: `seek_frame` and `next_frame` (a search leaves the positions before
it alone), `next_resume_rank` (going on uses candidates up) and through it the
termination of `drain` and `visitRange`.
-/

namespace GraphDependency.Candidate

/-- What a cursor moves along. -/
structure Course where
  data : Graph
  index : Index
  stops : Array Stop
  /-- The number of pattern vertices. -/
  patternSize : Nat
  deriving Repr

namespace Course

/-- The course of a matching order. -/
def ofOrder (data : Graph) (i : Index) (t : Pattern.Tree) (order : Order) : Course :=
  ⟨data, i, (Candidate.stops t order).toArray, t.pattern.size⟩

/-- The number of positions. -/
def length (k : Course) : Nat := k.stops.size

/-- The stop at a position. -/
def stop (k : Course) (pos : Nat) : Stop := (k.stops[pos]?).getD default

end Course

/-- A position of a cursor: what is still to be tried, and what it holds. -/
structure Slot where
  remaining : List Nat
  held? : Option Nat
  deriving DecidableEq, Repr, Inhabited

/-- The state of an enumeration. -/
structure Cursor where
  /-- One slot for every position. -/
  slots : Array Slot
  /-- The last image of every pattern vertex, zero at first. -/
  mapping : Array Nat
  /-- The data vertices that are held. -/
  used : List Nat
  deriving DecidableEq, Repr, Inhabited

namespace Cursor

/-- The cursor before any search. -/
def start (k : Course) : Cursor :=
  ⟨Array.replicate k.length ⟨[], none⟩, Array.replicate k.patternSize 0, []⟩

/-- The slot at a position, an empty one where there is no position. -/
def slot (c : Cursor) (pos : Nat) : Slot := (c.slots[pos]?).getD ⟨[], none⟩

/-- The last image of a pattern vertex. -/
def image (c : Cursor) (u : Nat) : Nat := (c.mapping[u]?).getD 0

/-- Replaces a slot. -/
def setSlot (c : Cursor) (pos : Nat) (s : Slot) : Cursor :=
  { c with slots := c.slots.setIfInBounds pos s }

/-- Frees the data vertex that a position holds. -/
def release (c : Cursor) (pos : Nat) : Cursor :=
  match (c.slot pos).held? with
  | none => c
  | some v => { c.setSlot pos ⟨(c.slot pos).remaining, none⟩ with used := c.used.erase v }

/-- Takes a data vertex at a position, with the candidates behind it. -/
def hold (c : Cursor) (k : Course) (pos v : Nat) (rest : List Nat) : Cursor :=
  { c.setSlot pos ⟨rest, some v⟩ with
    mapping := c.mapping.setIfInBounds (k.stop pos).vertex v
    used := v :: c.used }

/-- Frees a position and puts all its candidates before it. -/
def reset (c : Cursor) (k : Course) (pos : Nat) : Cursor :=
  let c := c.release pos
  c.setSlot pos ⟨(k.stop pos).source k.index c.image, (c.slot pos).held?⟩

/-- A position may take a data vertex. -/
def acceptable (c : Cursor) (k : Course) (pos v : Nat) : Bool :=
  !c.used.contains v && (k.stop pos).accepts k.data c.image v

/-- Searches on at a free position with the given candidates, and then at the
given number of positions behind it.  Says whether all of them were filled. -/
def seek (k : Course) (c : Cursor) (pos : Nat) : Nat → List Nat → Bool × Cursor
  | _, [] => (false, c.setSlot pos ⟨[], (c.slot pos).held?⟩)
  | 0, v :: rest =>
    if c.acceptable k pos v then (true, c.hold k pos v rest)
    else seek k c pos 0 rest
  | behind + 1, v :: rest =>
    if c.acceptable k pos v then
      let c := (c.hold k pos v rest).reset k (pos + 1)
      match seek k c (pos + 1) behind (c.slot (pos + 1)).remaining with
      | (true, c) => (true, c)
      | (false, c) => seek k (c.release pos) pos (behind + 1) rest
    else seek k c pos (behind + 1) rest
termination_by behind remaining => (behind, remaining.length)

/-- Searches on at the position `lo + offset`, and if nothing is left there at
the positions before it, down to `lo`. -/
def resumeFrom (k : Course) (lo hi : Nat) : Nat → Cursor → Bool × Cursor
  | offset, c =>
    let pos := lo + offset
    let c := c.release pos
    match seek k c pos (hi - 1 - pos) (c.slot pos).remaining with
    | (true, c) => (true, c)
    | (false, c) =>
      match offset with
      | 0 => (false, c)
      | offset + 1 => resumeFrom k lo hi offset c

/-- The next way to fill the positions from `lo` up to, but not including, `hi`:
the first one, or the one after the last.  An empty range is filled in one way. -/
def next (k : Course) (c : Cursor) (lo hi : Nat) (resume : Bool) : Bool × Cursor :=
  if lo = hi then (!resume, c)
  else if resume then resumeFrom k lo hi (hi - 1 - lo) c
  else
    let c := c.reset k lo
    seek k c lo (hi - 1 - lo) (c.slot lo).remaining

/-- The bounds are those of a range of positions.  An empty range may lie anywhere. -/
def isRange (k : Course) (lo hi : Nat) : Bool := lo == hi || (lo < hi && hi ≤ k.length)

/-- The next way to fill a range.  Where the bounds are those of no range, a search
from the start has no end to reach: it can run out of candidates on its way
through the positions, and is refused if it gets behind the last one. -/
def next? (c : Cursor) (k : Course) (lo hi : Nat) (resume : Bool) : Option (Bool × Cursor) :=
  if isRange k lo hi then some (next k c lo hi resume)
  else if resume || k.length ≤ lo then none
  else
    match next k c lo k.length false with
    | (true, _) => none
    | (false, c) => some (false, c)

/-- Within a course every search has an answer. -/
theorem next?_eq_some {c : Cursor} {k : Course} {lo hi : Nat} (resume : Bool)
    (h₁ : lo ≤ hi) (h₂ : hi ≤ k.length) :
    c.next? k lo hi resume = some (next k c lo hi resume) := by
  have h : isRange k lo hi = true := by
    simp only [isRange, Bool.or_eq_true, beq_iff_eq, Bool.and_eq_true, decide_eq_true_eq]
    omega
  rw [next?, if_pos h]

/-- Frees the positions of a range. -/
def releaseRange (c : Cursor) (lo hi : Nat) : Cursor :=
  (List.range' lo (hi - lo)).foldl release c

/-- Frees the positions of a range, if all of them are on the course. -/
def releaseRange? (c : Cursor) (k : Course) (lo hi : Nat) : Option Cursor :=
  if hi ≤ lo ∨ hi ≤ k.length then some (c.releaseRange lo hi) else none

/-- The images of the pattern vertices at the positions of a range. -/
def assigned (c : Cursor) (k : Course) (lo hi : Nat) : List Nat :=
  (List.range' lo (hi - lo)).map fun pos => c.image (k.stop pos).vertex

/-! ## Slots -/

theorem slot_setSlot (c : Cursor) (pos i : Nat) (s : Slot) :
    (c.setSlot pos s).slot i = if pos = i ∧ i < c.slots.size then s else c.slot i := by
  simp only [slot, setSlot, Array.getElem?_setIfInBounds]
  by_cases h : pos = i
  · subst h
    by_cases hi : pos < c.slots.size <;> simp [hi]
  · simp [h]

theorem slot_setSlot_of_ne (c : Cursor) {pos i : Nat} (h : pos ≠ i) (s : Slot) :
    (c.setSlot pos s).slot i = c.slot i := by
  simp [slot_setSlot, h]

theorem remaining_setSlot_le (c : Cursor) (pos : Nat) (s : Slot) :
    (((c.setSlot pos s).slot pos).remaining).length ≤ s.remaining.length := by
  rw [slot_setSlot]
  split
  · exact Nat.le_refl _
  · rename_i h
    have : c.slots.size ≤ pos := by simpa using h
    simp [slot, Array.getElem?_eq_none this]

theorem slot_release_of_ne (c : Cursor) {pos i : Nat} (h : pos ≠ i) :
    (c.release pos).slot i = c.slot i := by
  unfold release
  split
  · rfl
  · exact slot_setSlot_of_ne c h _

theorem remaining_release (c : Cursor) (pos i : Nat) :
    ((c.release pos).slot i).remaining = (c.slot i).remaining := by
  by_cases h : pos = i
  · subst h
    unfold release
    split
    · rfl
    · change ((c.setSlot pos _).slot pos).remaining = _
      rw [slot_setSlot]
      split <;> rfl
  · rw [slot_release_of_ne c h]

theorem slot_hold_of_ne (c : Cursor) (k : Course) {pos i : Nat} (h : pos ≠ i) (v : Nat)
    (rest : List Nat) : (c.hold k pos v rest).slot i = c.slot i :=
  slot_setSlot_of_ne c h _

theorem slot_reset_of_ne (c : Cursor) (k : Course) {pos i : Nat} (h : pos ≠ i) :
    (c.reset k pos).slot i = c.slot i :=
  (slot_setSlot_of_ne _ h _).trans (slot_release_of_ne c h)

/-- A search leaves the positions before it alone. -/
theorem seek_frame (k : Course) (c : Cursor) (pos behind : Nat) (remaining : List Nat)
    {i : Nat} (hi : i < pos) : ((seek k c pos behind remaining).2).slot i = c.slot i := by
  have hne : pos ≠ i := by omega
  fun_induction seek k c pos behind remaining with
  | case1 => exact slot_setSlot_of_ne _ hne _
  | case2 => exact slot_hold_of_ne _ k hne _ _
  | case3 _ _ _ _ _ ih => exact ih hi hne
  | case4 c pos behind v rest hacc c₁ c₂ hseek ih =>
    have hseek := congrArg Prod.snd hseek
    simp only at hseek
    rw [← hseek, ih (by omega) (by omega), slot_reset_of_ne _ k (by omega),
      slot_hold_of_ne _ k hne]
  | case5 c pos behind v rest hacc c₁ c₂ hseek ih₁ ih₂ =>
    have hseek := congrArg Prod.snd hseek
    simp only at hseek
    rw [ih₂ hi hne, slot_release_of_ne _ hne, ← hseek, ih₁ (by omega) (by omega),
      slot_reset_of_ne _ k (by omega), slot_hold_of_ne _ k hne]
  | case6 _ _ _ _ _ _ ih => exact ih hi hne

/-- A search that fills its positions uses up a candidate of the first one. -/
theorem seek_remaining_lt (k : Course) (c c' : Cursor) (pos behind : Nat)
    (remaining : List Nat) (h : seek k c pos behind remaining = (true, c')) :
    ((c'.slot pos).remaining).length < remaining.length := by
  fun_induction seek k c pos behind remaining with
  | case1 => simp at h
  | case2 c pos v rest hacc =>
    simp only [Prod.mk.injEq, true_and] at h
    subst h
    have := remaining_setSlot_le c pos ⟨rest, some v⟩
    simp only [List.length_cons]
    change (((c.setSlot pos _).slot pos).remaining).length < _
    simp only at this
    omega
  | case3 _ _ _ _ _ ih => have := ih h; simp only [List.length_cons]; omega
  | case4 c pos behind v rest hacc c₁ c₂ hseek ih =>
    simp only [Prod.mk.injEq, true_and] at h
    subst h
    have hframe := seek_frame k c₁ (pos + 1) behind (c₁.slot (pos + 1)).remaining
      (Nat.lt_succ_self pos)
    rw [hseek] at hframe
    simp only at hframe
    rw [hframe, slot_reset_of_ne _ k (by omega)]
    have := remaining_setSlot_le c pos ⟨rest, some v⟩
    simp only [List.length_cons]
    change (((c.setSlot pos _).slot pos).remaining).length < _
    simp only at this
    omega
  | case5 _ _ _ _ _ _ _ _ _ _ ih => have := ih h; simp only [List.length_cons]; omega
  | case6 _ _ _ _ _ _ ih => have := ih h; simp only [List.length_cons]; omega

/-- Going on uses up a candidate of some position and leaves the positions before
it alone. -/
theorem resumeFrom_uses (k : Course) (lo hi : Nat) (offset : Nat) (c c' : Cursor)
    (h : resumeFrom k lo hi offset c = (true, c')) :
    ∃ pos, lo ≤ pos ∧ pos ≤ lo + offset
      ∧ (∀ i, i < pos → (c'.slot i).remaining = (c.slot i).remaining)
      ∧ ((c'.slot pos).remaining).length < ((c.slot pos).remaining).length := by
  induction offset generalizing c c' with
  | zero =>
    rw [resumeFrom] at h
    simp only [Nat.add_zero] at h
    split at h
    · rename_i c₁ hs
      simp only [Prod.mk.injEq, true_and] at h
      subst h
      refine ⟨lo, Nat.le_refl _, Nat.le_refl _, fun i hlt => ?_, ?_⟩
      · have hf := seek_frame k (c.release lo) lo (hi - 1 - lo)
          ((c.release lo).slot lo).remaining hlt
        rw [hs] at hf
        simp only at hf
        rw [hf, remaining_release]
      · have := seek_remaining_lt k _ _ _ _ _ hs
        rwa [remaining_release] at this
    · simp at h
  | succ offset ih =>
    rw [resumeFrom] at h
    simp only at h
    split at h
    · rename_i c₁ hs
      simp only [Prod.mk.injEq, true_and] at h
      subst h
      refine ⟨lo + (offset + 1), by omega, Nat.le_refl _, fun i hlt => ?_, ?_⟩
      · have hf := seek_frame k (c.release (lo + (offset + 1))) (lo + (offset + 1))
          (hi - 1 - (lo + (offset + 1)))
          ((c.release (lo + (offset + 1))).slot (lo + (offset + 1))).remaining hlt
        rw [hs] at hf
        simp only at hf
        rw [hf, remaining_release]
      · have := seek_remaining_lt k _ _ _ _ _ hs
        rwa [remaining_release] at this
    · rename_i c₁ hs
      obtain ⟨pos, h1, h2, h3, h4⟩ := ih c₁ c' h
      have hframe : ∀ i, i < lo + (offset + 1) →
          (c₁.slot i).remaining = (c.slot i).remaining := by
        intro i hlt
        have hf := seek_frame k (c.release (lo + (offset + 1))) (lo + (offset + 1))
          (hi - 1 - (lo + (offset + 1)))
          ((c.release (lo + (offset + 1))).slot (lo + (offset + 1))).remaining hlt
        rw [hs] at hf
        simp only at hf
        rw [hf, remaining_release]
      refine ⟨pos, h1, by omega, fun i hlt => ?_, ?_⟩
      · rw [h3 i hlt, hframe i (by omega)]
      · rw [← hframe pos (by omega)]
        exact h4

/-! ## Running through a range -/

/-- A rank: how many candidates are left at each of some positions, the first
position counting most. -/
def Rank : Nat → Type
  | 0 => Unit
  | n + 1 => Nat × Rank n

/-- The order of ranks, position by position. -/
def Rank.Less : (n : Nat) → Rank n → Rank n → Prop
  | 0 => fun _ _ => False
  | n + 1 => Prod.Lex (· < ·) (Rank.Less n)

theorem Rank.wf : (n : Nat) → WellFounded (Rank.Less n)
  | 0 => ⟨fun _ => ⟨_, fun _ h => h.elim⟩⟩
  | n + 1 => (Prod.lex ⟨_, Nat.lt_wfRel.wf⟩ ⟨_, Rank.wf n⟩).wf

instance (n : Nat) : WellFoundedRelation (Rank n) := ⟨Rank.Less n, Rank.wf n⟩

/-- The rank of the positions from `pos` on. -/
def rankOf (left : Nat → Nat) : (n : Nat) → (pos : Nat) → Rank n
  | 0, _ => ()
  | n + 1, pos => (left pos, rankOf left n (pos + 1))

/-- The rank gets less where the first change is a loss. -/
theorem rankOf_less {left left' : Nat → Nat} {n pos at_ : Nat} (h₁ : pos ≤ at_)
    (h₂ : at_ < pos + n) (hsame : ∀ i, i < at_ → left i = left' i) (hless : left at_ < left' at_) :
    Rank.Less n (rankOf left n pos) (rankOf left' n pos) := by
  induction n generalizing pos with
  | zero => omega
  | succ n ih =>
    by_cases h : pos = at_
    · subst h
      exact Prod.Lex.left _ _ hless
    · rw [rankOf, rankOf, hsame pos (by omega)]
      exact Prod.Lex.right _ (ih (by omega) (by omega))

/-- How many candidates are left at a position. -/
def left (c : Cursor) (pos : Nat) : Nat := (c.slot pos).remaining.length

/-- Going on lowers the rank of the range. -/
theorem next_resume_rank {k : Course} {c c' : Cursor} {lo hi : Nat} (hlt : lo < hi)
    (h : next k c lo hi true = (true, c')) :
    Rank.Less (hi - lo) (rankOf c'.left (hi - lo) lo) (rankOf c.left (hi - lo) lo) := by
  rw [next, if_neg (by omega)] at h
  simp only [if_true] at h
  obtain ⟨pos, h1, h2, h3, h4⟩ := resumeFrom_uses k lo hi _ c c' h
  exact rankOf_less h1 (by omega) (fun i hi => congrArg List.length (h3 i hi)) h4

/-- All further ways to fill a range, as images of the pattern vertices. -/
def drainFrom (k : Course) (lo hi : Nat) (c : Cursor) : List Embedding :=
  match h : next k c lo hi true with
  | (false, _) => []
  | (true, c') =>
    if hlt : lo < hi then
      have := next_resume_rank hlt h
      c'.mapping :: drainFrom k lo hi c'
    else []
termination_by rankOf c.left (hi - lo) lo

/-- All ways to fill a range, as images of the pattern vertices, in order. -/
def drain (c : Cursor) (k : Course) (lo hi : Nat) : List Embedding :=
  match next k c lo hi false with
  | (false, _) => []
  | (true, c') => c'.mapping :: drainFrom k lo hi c'

/-! ## Visiting the ways to fill a range -/

theorem resumeFrom_frame (k : Course) (lo hi offset : Nat) (c : Cursor) {i : Nat} (hlt : i < lo) :
    ((resumeFrom k lo hi offset c).2).slot i = c.slot i := by
  have hstep : ∀ offset (c c' : Cursor) found,
      seek k (c.release (lo + offset)) (lo + offset) (hi - 1 - (lo + offset))
        ((c.release (lo + offset)).slot (lo + offset)).remaining = (found, c') →
      c'.slot i = c.slot i := by
    intro offset c c' found h
    have hframe := seek_frame k (c.release (lo + offset)) (lo + offset) (hi - 1 - (lo + offset))
      ((c.release (lo + offset)).slot (lo + offset)).remaining (Nat.lt_add_right offset hlt)
    rw [h] at hframe
    exact hframe.trans (slot_release_of_ne c (by omega))
  induction offset generalizing c with
  | zero =>
    rw [resumeFrom]
    simp only
    split
    · exact hstep 0 _ _ _ ‹_›
    · exact hstep 0 _ _ _ ‹_›
  | succ offset ih =>
    rw [resumeFrom]
    simp only
    split
    · exact hstep _ _ _ _ ‹_›
    · exact (ih _).trans (hstep _ _ _ _ ‹_›)

/-- A search of a range leaves the positions before it alone. -/
theorem next_frame (k : Course) (c : Cursor) (lo hi : Nat) (resume : Bool) {i : Nat}
    (hlt : i < lo) : ((next k c lo hi resume).2).slot i = c.slot i := by
  unfold next
  split
  · rfl
  · split
    · exact resumeFrom_frame k lo hi _ c hlt
    · exact (seek_frame k _ _ _ _ hlt).trans (slot_reset_of_ne c k (by omega))

/-- The rank depends on the positions of the range only. -/
theorem rankOf_congr {left left' : Nat → Nat} {n pos : Nat}
    (h : ∀ i, i < pos + n → left i = left' i) : rankOf left n pos = rankOf left' n pos := by
  induction n generalizing pos with
  | zero => rfl
  | succ n ih => rw [rankOf, rankOf, h pos (by omega), ih fun i hi => h i (by omega)]

/-- What is done at every way to fill the positions up to `hi`.  It may move the cursor
at the positions behind them; if it goes on, the slots up to `hi` are as they were. -/
structure Visitor (σ : Type) (hi : Nat) where
  visit : σ → Cursor → ForInStep (σ × Cursor)
  frame : ∀ {state state' : σ} {c c' : Cursor}, visit state c = .yield (state', c') →
    ∀ i, i < hi → c'.slot i = c.slot i

/-- A step without the cursor. -/
def forget {σ : Type} : ForInStep (σ × Cursor) → ForInStep σ
  | .done (state, _) => .done state
  | .yield (state, _) => .yield state

/-- Going on behind a visitor lowers the rank of the range. -/
theorem visit_resume_rank {σ : Type} {k : Course} {lo hi : Nat} (v : Visitor σ hi)
    {state state' : σ} {c c₁ c₂ : Cursor} (hlt : lo < hi) (h : next k c lo hi true = (true, c₁))
    (hv : v.visit state c₁ = .yield (state', c₂)) :
    Rank.Less (hi - lo) (rankOf c₂.left (hi - lo) lo) (rankOf c.left (hi - lo) lo) := by
  have hsame : rankOf c₂.left (hi - lo) lo = rankOf c₁.left (hi - lo) lo :=
    rankOf_congr fun i hi => congrArg (List.length ∘ Slot.remaining) (v.frame hv i (by omega))
  rw [hsame]
  exact next_resume_rank hlt h

/-- Visits all further ways to fill a range. -/
def visitFrom {σ : Type} (k : Course) (lo hi : Nat) (v : Visitor σ hi) (state : σ) (c : Cursor) :
    ForInStep (σ × Cursor) :=
  match h : next k c lo hi true with
  | (false, c₁) => .yield (state, c₁)
  | (true, c₁) =>
    match hv : v.visit state c₁ with
    | .done r => .done r
    | .yield (state, c₂) =>
      if hlt : lo < hi then
        have := visit_resume_rank v hlt h hv
        visitFrom k lo hi v state c₂
      else .yield (state, c₂)
termination_by rankOf c.left (hi - lo) lo

/-- Visits all ways to fill a range, in order. -/
def visitRange {σ : Type} (k : Course) (lo hi : Nat) (v : Visitor σ hi) (state : σ)
    (c : Cursor) : ForInStep (σ × Cursor) :=
  match next k c lo hi false with
  | (false, c) => .yield (state, c)
  | (true, c) =>
    match v.visit state c with
    | .done r => .done r
    | .yield (state, c) => visitFrom k lo hi v state c

theorem visitFrom_frame {σ : Type} {k : Course} {lo hi : Nat} {v : Visitor σ hi}
    {state state' : σ} {c c' : Cursor} (hle : lo ≤ hi)
    (h : visitFrom k lo hi v state c = .yield (state', c')) {i : Nat} (hlt : i < lo) :
    c'.slot i = c.slot i := by
  fun_induction visitFrom k lo hi v state c with
  | case1 state c c₁ hnext =>
    cases h
    have := next_frame k c lo hi true hlt
    rwa [hnext] at this
  | case2 => cases h
  | case3 state c c₁ hnext state₂ c₂ hv hrange _ ih =>
    have := next_frame k c lo hi true hlt
    rw [hnext] at this
    exact (ih h).trans ((v.frame hv i (by omega)).trans this)
  | case4 state c c₁ hnext state₂ c₂ hv =>
    cases h
    have := next_frame k c lo hi true hlt
    rw [hnext] at this
    exact (v.frame hv i (by omega)).trans this

/-- Visiting a range leaves the positions before it alone. -/
theorem visitRange_frame {σ : Type} {k : Course} {lo hi : Nat} {v : Visitor σ hi}
    {state state' : σ} {c c' : Cursor} (hle : lo ≤ hi)
    (h : visitRange k lo hi v state c = .yield (state', c')) {i : Nat} (hlt : i < lo) :
    c'.slot i = c.slot i := by
  have hframe := next_frame k c lo hi false hlt
  unfold visitRange at h
  split at h
  · rename_i c₁ hnext
    cases h
    rwa [hnext] at hframe
  · rename_i c₁ hnext
    rw [hnext] at hframe
    split at h
    · cases h
    · rename_i state₂ c₂ hv
      exact (visitFrom_frame hle h hlt).trans ((v.frame hv i (by omega)).trans hframe)

end Cursor

end GraphDependency.Candidate
