import GraphDependency.Proofs.Candidate.Cursor

set_option autoImplicit false

/-!
# Sessions with a cursor

A cursor answers requests one after the other: for the first or the next way to fill a
range of positions, and to free a range.  The ranges may overlap, a search may be left
before it is over, and going on may be asked for where nothing was begun.  Whatever the
requests are, the cursor changes by three operations only, so what these keep is never
lost.

Main statements: `Kept.serve?` and `Kept.serveAll?` (what the three operations keep holds
after a request, and after a session), and `session_exclusive`.
-/

namespace GraphDependency.Candidate.Cursor

/-- What a cursor can be asked for. -/
inductive Request where
  /-- the first way to fill a range, or the next one -/
  | next (lo hi : Nat) (resume : Bool)
  /-- to free a range -/
  | release (lo hi : Nat)
  deriving DecidableEq, Repr

/-- The bounds are those of a range among `n` positions. -/
def Request.Within (n : Nat) : Request → Prop
  | .next lo hi _ => lo ≤ hi ∧ hi ≤ n
  | .release lo hi => lo ≤ hi ∧ hi ≤ n

instance (n : Nat) : (r : Request) → Decidable (r.Within n)
  | .next lo hi _ => inferInstanceAs (Decidable (lo ≤ hi ∧ hi ≤ n))
  | .release lo hi => inferInstanceAs (Decidable (lo ≤ hi ∧ hi ≤ n))

/-- The cursor after a request, unless the request is refused. -/
def serve? (k : Course) (c : Cursor) : Request → Option Cursor
  | .next lo hi resume => (c.next? k lo hi resume).map Prod.snd
  | .release lo hi => c.releaseRange? k lo hi

/-- The cursor after some requests, unless one of them is refused. -/
def serveAll? (k : Course) (c : Cursor) (requests : List Request) : Option Cursor :=
  requests.foldlM (serve? k) c

/-- A session can come to the cursor. -/
def Reached (k : Course) (c : Cursor) : Prop :=
  ∃ requests, (start k).serveAll? k requests = some c

variable {k : Course} {c c' : Cursor} {P : Cursor → Prop} {pos lo hi v : Nat}

theorem Reached.trans (h : Reached k c) (requests : List Request)
    (hserve : c.serveAll? k requests = some c') : Reached k c' := by
  obtain ⟨before, hbefore⟩ := h
  refine ⟨before ++ requests, ?_⟩
  rw [serveAll?, List.foldlM_append]
  exact Option.bind_eq_some_iff.mpr ⟨c, hbefore, hserve⟩

/-! ## Requests within the course -/

theorem isRange_iff : isRange k lo hi = true ↔ lo = hi ∨ (lo < hi ∧ hi ≤ k.length) := by
  simp [isRange]

theorem exists_serve? {r : Request} (h : r.Within k.length) : ∃ c', c.serve? k r = some c' := by
  cases r with
  | next lo hi resume => exact ⟨_, by rw [serve?, next?_eq_some resume h.1 h.2]; rfl⟩
  | release lo hi => exact ⟨_, if_pos (Or.inr h.2)⟩

theorem exists_serveAll? {requests : List Request} (h : ∀ r ∈ requests, r.Within k.length) :
    ∃ c', c.serveAll? k requests = some c' := by
  induction requests generalizing c with
  | nil => exact ⟨c, rfl⟩
  | cons r rest ih =>
    obtain ⟨hr, hrest⟩ := List.forall_mem_cons.mp h
    obtain ⟨c₁, hserve⟩ := exists_serve? (c := c) hr
    obtain ⟨c', hall⟩ := ih (c := c₁) hrest
    refine ⟨c', ?_⟩
    rw [serveAll?, List.foldlM_cons, hserve]
    exact hall

/-! ## What is kept -/

/-- Kept whenever a position is freed, gets other candidates, or takes a data vertex that
no position holds. -/
structure Kept (k : Course) (P : Cursor → Prop) : Prop where
  release : ∀ {c}, P c → ∀ pos, P (c.release pos)
  setRemaining : ∀ {c}, P c → ∀ pos remaining,
    P (c.setSlot pos ⟨remaining, (c.slot pos).held?⟩)
  hold : ∀ {c pos v}, P c → pos < k.length → (c.slot pos).held? = none → v ∉ c.used →
    ∀ rest, P (c.hold k pos v rest)

theorem kept_exclusive (k : Course) : Kept k (Exclusive k) :=
  ⟨Exclusive.release, Exclusive.setRemaining, Exclusive.hold⟩

theorem kept_valid (hk : k.Closed) : Kept k (Valid k) :=
  ⟨Valid.release, Valid.setRemaining, Valid.hold hk⟩

namespace Kept

variable (h : Kept k P)

include h

theorem reset (hc : P c) (pos : Nat) : P (c.reset k pos) :=
  h.setRemaining (h.release hc pos) pos _

/-- A search that begins at a free position. -/
theorem seek {behind : Nat} (remaining : List Nat) (hc : P c)
    (hfree : (c.slot pos).held? = none) (hlen : pos + behind < k.length) :
    P (seek k c pos behind remaining).2 := by
  fun_induction Cursor.seek k c pos behind remaining with
  | case1 c pos behind => exact h.setRemaining hc pos []
  | case2 c pos v rest hacc =>
    exact h.hold hc hlen hfree (notMem_used_of_acceptable hacc) rest
  | case3 c pos v rest hacc ih => exact ih hc hfree hlen
  | case4 c pos behind v rest hacc c₁ c₂ hseek ih =>
    have hheld := h.hold hc (by omega) hfree (notMem_used_of_acceptable hacc) rest
    have hbehind := ih (h.reset hheld (pos + 1)) (held?_reset _ k (pos + 1)) (by omega)
    rwa [hseek] at hbehind
  | case5 c pos behind v rest hacc c₁ c₂ hseek ih₁ ih₂ =>
    have hheld := h.hold hc (by omega) hfree (notMem_used_of_acceptable hacc) rest
    have hbehind := ih₁ (h.reset hheld (pos + 1)) (held?_reset _ k (pos + 1)) (by omega)
    rw [hseek] at hbehind
    exact ih₂ (h.release hbehind pos) (by rw [held?_release, if_pos rfl]) hlen
  | case6 c pos behind v rest hacc ih => exact ih hc hfree hlen

/-- A search that goes on at a position. -/
theorem seek_release (hc : P c) (hlt : pos < hi) (hlen : hi ≤ k.length) :
    P (Cursor.seek k (c.release pos) pos (hi - 1 - pos)
      ((c.release pos).slot pos).remaining).2 :=
  h.seek _ (h.release hc pos) (by rw [held?_release, if_pos rfl]) (by omega)

theorem resumeFrom {offset : Nat} (hc : P c) (hlt : lo + offset < hi) (hlen : hi ≤ k.length) :
    P (resumeFrom k lo hi offset c).2 := by
  induction offset generalizing c with
  | zero =>
    have hstep := h.seek_release hc hlt hlen
    rw [Cursor.resumeFrom]
    simp only
    split <;> (rename_i heq; rwa [heq] at hstep)
  | succ offset ih =>
    have hstep := h.seek_release hc hlt hlen
    rw [Cursor.resumeFrom]
    simp only
    split
    · rename_i heq
      rwa [heq] at hstep
    · rename_i heq
      rw [heq] at hstep
      exact ih hstep (by omega)

theorem next (hc : P c) (resume : Bool) (hlen : hi ≤ k.length) (hle : lo ≤ hi) :
    P (next k c lo hi resume).2 := by
  rw [Cursor.next]
  split
  · exact hc
  · split
    · exact h.resumeFrom hc (by omega) hlen
    · exact h.seek _ (h.reset hc lo) (held?_reset c k lo) (by omega)

/-- A search that is answered, whatever its bounds. -/
theorem next? {resume : Bool} {answer : Bool × Cursor} (hc : P c)
    (hnext : c.next? k lo hi resume = some answer) : P answer.2 := by
  rw [Cursor.next?] at hnext
  split at hnext
  · rename_i hrange
    cases hnext
    rcases isRange_iff.mp hrange with rfl | ⟨hlt, hlen⟩
    · rw [Cursor.next, if_pos rfl]
      exact hc
    · exact h.next hc resume hlen (Nat.le_of_lt hlt)
  · split at hnext
    · cases hnext
    · have hle : lo ≤ k.length := by grind
      have hstep := h.next hc false (Nat.le_refl k.length) hle
      split at hnext
      · cases hnext
      · rename_i heq
        cases hnext
        rwa [heq] at hstep

theorem releaseRange (hc : P c) (lo hi : Nat) : P (c.releaseRange lo hi) := by
  rw [Cursor.releaseRange]
  induction List.range' lo (hi - lo) generalizing c with
  | nil => exact hc
  | cons pos rest ih => exact ih (h.release hc pos)

/-- What is kept holds after a request. -/
theorem serve? {r : Request} (hc : P c) (hserve : c.serve? k r = some c') : P c' := by
  cases r with
  | next lo hi resume =>
    obtain ⟨answer, hnext, rfl⟩ := Option.map_eq_some_iff.mp hserve
    exact h.next? hc hnext
  | release lo hi =>
    rw [Cursor.serve?, releaseRange?] at hserve
    split at hserve
    · cases hserve
      exact h.releaseRange hc lo hi
    · cases hserve

/-- What is kept holds after a session. -/
theorem serveAll? {requests : List Request} (hc : P c)
    (hserve : c.serveAll? k requests = some c') : P c' := by
  induction requests generalizing c with
  | nil =>
    cases hserve
    exact hc
  | cons r rest ih =>
    rw [Cursor.serveAll?, List.foldlM_cons] at hserve
    obtain ⟨c₁, hone, hrest⟩ := Option.bind_eq_some_iff.mp hserve
    exact ih (h.serve? hc hone) hrest

/-- What is kept and holds of a new cursor holds whatever happened. -/
theorem reached (hstart : P (start k)) (hc : Reached k c) : P c := by
  obtain ⟨requests, hserve⟩ := hc
  exact h.serveAll? hstart hserve

end Kept

/-! ## Freeing a range -/

/-- A range that was freed holds nothing, and nothing else has changed hands. -/
theorem held?_releaseRange (c : Cursor) (lo hi pos : Nat) :
    ((c.releaseRange lo hi).slot pos).held?
      = if lo ≤ pos ∧ pos < hi then none else (c.slot pos).held? := by
  have hrange : pos ∈ List.range' lo (hi - lo) ↔ lo ≤ pos ∧ pos < hi := by
    rw [List.mem_range'_1]
    omega
  simp only [← hrange, releaseRange]
  induction List.range' lo (hi - lo) generalizing c with
  | nil => simp
  | cons i rest ih =>
    rw [List.foldl_cons, ih, held?_release]
    by_cases hrest : pos ∈ rest
    · rw [if_pos hrest, if_pos (List.mem_cons_of_mem i hrest)]
    · simp [hrest, eq_comm]

/-- To be asked to free a range that is there is never refused.  What was held in the range is
used no more, and everything else is held as before. -/
theorem exists_serve?_release (hexclusive : Exclusive k c) (hle : lo ≤ hi) (hhi : hi ≤ k.length) :
    ∃ c', c.serve? k (.release lo hi) = some c'
      ∧ (∀ pos v, lo ≤ pos → pos < hi → (c.slot pos).held? = some v →
          (c'.slot pos).held? = none ∧ v ∉ c'.used)
      ∧ ∀ pos, pos < lo ∨ hi ≤ pos → (c'.slot pos).held? = (c.slot pos).held? := by
  obtain ⟨c', hserve⟩ := exists_serve? (c := c) (r := .release lo hi) ⟨hle, hhi⟩
  have hfreed := (kept_exclusive k).serve? hexclusive hserve
  have hheld : ∀ pos, (c'.slot pos).held?
      = if lo ≤ pos ∧ pos < hi then none else (c.slot pos).held? := by
    rw [serve?, releaseRange?, if_pos (Or.inr hhi)] at hserve
    cases hserve
    exact held?_releaseRange c lo hi
  refine ⟨c', hserve, fun pos v hlo hlt hv => ⟨?_, fun hused => ?_⟩, fun pos hout => ?_⟩
  · rw [hheld, if_pos ⟨hlo, hlt⟩]
  · -- Whoever held it then would have held it before, behind or ahead of the range.
    obtain ⟨q, hq⟩ := (hfreed.mem_used v).mp hused
    rw [hheld] at hq
    split at hq
    · cases hq
    · rename_i hout
      exact hout (hexclusive.held_injective q pos v hq hv ▸ ⟨hlo, hlt⟩)
  · rw [hheld, if_neg (by omega)]

/-- Whatever a cursor is asked for, no two positions hold the same data vertex, what is
used is what the positions hold, and to be asked to free a range it frees every data vertex
in it, and no other. -/
theorem session_exclusive (k : Course) (requests : List Request)
    (h : ∀ r ∈ requests, r.Within k.length) :
    ∃ c, (start k).serveAll? k requests = some c
      ∧ (∀ i j v, (c.slot i).held? = some v → (c.slot j).held? = some v → i = j)
      ∧ c.used.Nodup
      ∧ (∀ v, v ∈ c.used ↔ ∃ pos < k.length, (c.slot pos).held? = some v)
      ∧ ∀ lo hi, lo ≤ hi → hi ≤ k.length → ∃ c', c.serve? k (.release lo hi) = some c'
          ∧ (∀ pos v, lo ≤ pos → pos < hi → (c.slot pos).held? = some v →
              (c'.slot pos).held? = none ∧ v ∉ c'.used)
          ∧ ∀ pos, pos < lo ∨ hi ≤ pos → (c'.slot pos).held? = (c.slot pos).held? := by
  obtain ⟨c, hserve⟩ := exists_serveAll? (c := start k) h
  have hexclusive := (kept_exclusive k).serveAll? (.start k) hserve
  refine ⟨c, hserve, hexclusive.held_injective, hexclusive.nodup_used, fun v => ?_,
    fun lo hi hle hhi => exists_serve?_release hexclusive hle hhi⟩
  rw [hexclusive.mem_used]
  exact exists_congr fun pos => (and_iff_right_of_imp hexclusive.lt_length).symm

/-- A center with two leaves. -/
def cherry : Graph where
  vertices := #[⟨"a", .empty⟩, ⟨"a", .empty⟩, ⟨"a", .empty⟩]
  edges := #[⟨0, 1, "e"⟩, ⟨0, 2, "e"⟩]
  incidence := incidenceTable 3 #[⟨0, 1, "e"⟩, ⟨0, 2, "e"⟩]
  incidence_eq := rfl
  inRange := by simp
  loopless := by simp
  simple := by decide

/-- The tree of the cherry from its center. -/
def cherryTree : Pattern.Tree := ⟨cherry, 0, [[0], [1, 2]], #[none, some 0, some 0]⟩

example : Pattern.Tree.build? cherry 0 = some cherryTree := by decide

/-- Where the vertices of the cherry go in the cherry. -/
def cherryIndex : Index := (Index.build cherry cherryTree).refine cherry cherryTree

/-- The course of the cherry in itself, center first. -/
def cherryCourse : Course := .ofOrder cherry cherryIndex cherryTree ⟨[0, 1, 2], 1⟩

/-- The center goes to the center only, a leaf to either leaf. -/
theorem cherryCourse_eq : cherryCourse =
    ⟨cherry, ⟨#[[0], [1, 2], [1, 2]], #[[], [(0, [1, 2])], [(0, [1, 2])]], by decide, by decide⟩,
      #[⟨0, none, []⟩, ⟨1, some 0, []⟩, ⟨2, some 0, []⟩], 3⟩ := rfl

/-- A search left with both leaves taken, and then a shorter one run to its end: the second
leaf is still held, and is free when its position is. -/
theorem session_exclusive_cherry :
    (∀ r ∈ [Request.next 0 3 false, .next 1 2 false, .next 1 2 true],
        r.Within cherryCourse.length)
      ∧ (start cherryCourse).serveAll? cherryCourse
          [.next 0 3 false, .next 1 2 false, .next 1 2 true]
        = some ⟨#[⟨[], some 0⟩, ⟨[], none⟩, ⟨[], some 2⟩], #[0, 1, 2], [2, 0]⟩
      ∧ ∃ c c', (start cherryCourse).serveAll? cherryCourse
          [.next 0 3 false, .next 1 2 false, .next 1 2 true] = some c
        ∧ c.used.Nodup ∧ (∀ v, v ∈ c.used ↔ ∃ pos < 3, (c.slot pos).held? = some v)
        ∧ c.serve? cherryCourse (.release 2 3) = some c'
        ∧ (c'.slot 2).held? = none ∧ 2 ∉ c'.used ∧ (c'.slot 0).held? = some 0 := by
  have hwithin : ∀ r ∈ [Request.next 0 3 false, .next 1 2 false, .next 1 2 true],
      r.Within cherryCourse.length := by decide
  have hserved : (start cherryCourse).serveAll? cherryCourse
      [.next 0 3 false, .next 1 2 false, .next 1 2 true]
        = some ⟨#[⟨[], some 0⟩, ⟨[], none⟩, ⟨[], some 2⟩], #[0, 1, 2], [2, 0]⟩ := by
    simp +decide [cherryCourse_eq, cherry, serveAll?, serve?, next?, next, resumeFrom, seek, start,
      slot, image, setSlot, reset, release, hold, Course.length, Course.stop, Stop.source,
      Index.candidates, Index.linked, Index.links]
  obtain ⟨c, hserve, -, hnodup, hmem, hrelease⟩ := session_exclusive cherryCourse _ hwithin
  obtain ⟨c', hserve', hfreed, hkept⟩ := hrelease 2 3 (by decide) (by decide)
  obtain rfl := Option.some.inj (hserved.symm.trans hserve)
  obtain ⟨hfree, hunused⟩ := hfreed 2 2 (Nat.le_refl 2) (Nat.lt_succ_self 2) rfl
  exact ⟨hwithin, hserved, _, c', hserve, hnodup, hmem, hserve', hfree, hunused,
    hkept 0 (Or.inl (by decide))⟩

end GraphDependency.Candidate.Cursor
