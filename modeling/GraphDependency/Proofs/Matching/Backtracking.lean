import GraphDependency.Matching.Backtracking
import GraphDependency.Proofs.Matching.Enumeration
import GraphDependency.Proofs.Matching.Planning
import Mathlib.Logic.Function.Iterate

set_option autoImplicit false

/-!
# The loop visits every embedding once

The loop ends after finitely many turns, and never breaks, with the run of the search by
recursion.  At every depth the tables hold a placement: of the images, those of its vertices
count, whatever else was written; the marks are exactly for the data vertices it takes.  What
is done at the depths behind leaves the lists and cursors in front as they are, and clears the
marks that it sets.

Main statements: `visitAll_moves` (the turns that go through the candidates at one depth),
`forEachEmbedding_moves` and `forEachEmbedding_exact`.
-/

namespace GraphDependency.Matching

variable {q : Query}

/-! ## Tables that hold a placement -/

/-- At a depth, with the steps that remain, the tables hold a placement. -/
structure Tables.Holds (t : Tables q) (depth : Nat) (steps : List Step) (p : Placement) : Prop where
  steps_eq : t.steps.drop depth = steps
  length_eq : depth + steps.length = q.pattern.size
  follows : Follows q.pattern steps p.keys
  covers : ∀ u < q.pattern.size, u ∈ p.keys ∨ u ∈ steps.map Step.vertex
  image_eq : ∀ u ∈ p.keys, t.image u = p.image u
  isMarked_eq : ∀ v < q.data.size, t.isMarked v = p.uses v

/-- Two tables have the same plan, and the same lists and cursors in front of a depth. -/
structure Tables.Alike (depth : Nat) (t t' : Tables q) : Prop where
  steps_eq : t'.steps = t.steps
  list_eq : ∀ d < depth, t'.list d = t.list d
  cursor_eq : ∀ d < depth, t'.cursor d = t.cursor d

namespace Tables

variable {t t' t'' : Tables q} {depth v : Nat} {s next : Step} {rest : List Step} {p : Placement}

namespace Alike

theorem refl (depth : Nat) (t : Tables q) : Alike depth t t :=
  ⟨rfl, fun _ _ => rfl, fun _ _ => rfl⟩

theorem trans (h : Alike depth t t') (h' : Alike depth t' t'') : Alike depth t t'' where
  steps_eq := h'.steps_eq.trans h.steps_eq
  list_eq d hd := (h'.list_eq d hd).trans (h.list_eq d hd)
  cursor_eq d hd := (h'.cursor_eq d hd).trans (h.cursor_eq d hd)

theorem of_succ (h : Alike (depth + 1) t t') : Alike depth t t' where
  steps_eq := h.steps_eq
  list_eq d hd := h.list_eq d (Nat.lt_succ_of_lt hd)
  cursor_eq d hd := h.cursor_eq d (Nat.lt_succ_of_lt hd)

theorem mark (h : Alike depth t t') (v : Nat) (inUse : Bool) : Alike depth t (t'.mark v inUse) :=
  ⟨h.steps_eq, h.list_eq, h.cursor_eq⟩

theorem take (hdepth : depth < q.pattern.size) (t : Tables q) (u v : Nat) :
    Alike depth t (t.take depth u v) where
  steps_eq := rfl
  list_eq _ _ := rfl
  cursor_eq d hd := by rw [cursor_take t hdepth, if_neg (Nat.ne_of_lt hd)]

theorem enter (hdepth : depth < q.pattern.size) (t : Tables q) (s : Step) :
    Alike depth t (t.enter depth s) where
  steps_eq := rfl
  list_eq d hd := by rw [list_enter t hdepth, if_neg (Nat.ne_of_lt hd)]
  cursor_eq d hd := by rw [cursor_enter t hdepth, if_neg (Nat.ne_of_lt hd)]

end Alike

namespace Holds

theorem lt_size (h : t.Holds depth (s :: rest) p) : depth < q.pattern.size := by
  have := h.length_eq
  rw [List.length_cons] at this
  omega

theorem getElem?_steps (h : t.Holds depth (s :: rest) p) : t.steps[depth]? = some s := by
  rw [← List.head?_drop, h.steps_eq, List.head?_cons]

theorem drop_steps (h : t.Holds depth (s :: rest) p) : t.steps.drop (depth + 1) = rest := by
  rw [← List.tail_drop, h.steps_eq, List.tail_cons]

theorem getElem?_steps_succ (h : t.Holds depth (s :: rest) p) :
    t.steps[depth + 1]? = rest.head? := by
  rw [← List.head?_drop, h.drop_steps]

theorem ne_vertex (h : t.Holds depth (s :: rest) p) {u : Nat} (hu : u ∈ p.keys) :
    u ≠ s.vertex := by
  rintro rfl
  exact h.follows.2.1 hu

/-- Before anything is placed. -/
theorem start {root : Nat} (hroot : root < q.pattern.size) :
    (Tables.start q (plan q.pattern root)).Holds 0 (plan q.pattern root) [] where
  steps_eq := rfl
  length_eq := by simpa [Graph.ids] using (perm_plan hroot).length_eq
  follows := follows_plan hroot
  covers u hu := Or.inr ((perm_plan hroot).mem_iff.mpr ((Graph.mem_ids _).mpr hu))
  image_eq u hu := by cases hu
  isMarked_eq v hv := by simp [isMarked, Tables.start, Placement.uses, hv]

/-- An image that is written for the vertex of the next step is not one of the placement. -/
theorem take (h : t.Holds depth (s :: rest) p) (v : Nat) :
    (t.take depth s.vertex v).Holds depth (s :: rest) p where
  steps_eq := h.steps_eq
  length_eq := h.length_eq
  follows := h.follows
  covers := h.covers
  image_eq u hu := by
    rw [image_take t h.follows.1, if_neg (h.ne_vertex hu), h.image_eq u hu]
  isMarked_eq := h.isMarked_eq

/-- The lists and the cursors have nothing to do with the placement. -/
theorem enter (h : t.Holds depth (s :: rest) p) (d : Nat) (next : Step) :
    (t.enter d next).Holds depth (s :: rest) p :=
  ⟨h.steps_eq, h.length_eq, h.follows, h.covers, h.image_eq, h.isMarked_eq⟩

/-- A candidate that is taken and marked belongs to the placement. -/
theorem place (h : t.Holds depth (s :: rest) p) (hv : v < q.data.size) :
    ((t.take depth s.vertex v).mark v true).Holds (depth + 1) rest ((s.vertex, v) :: p) where
  steps_eq := h.drop_steps
  length_eq := by
    have := h.length_eq
    rw [List.length_cons] at this
    omega
  follows := h.follows.2.2.2
  covers u hu := by
    have := h.covers u hu
    rw [List.map_cons, List.mem_cons] at this
    rw [Placement.keys_cons, List.mem_cons]
    tauto
  image_eq u hu := by
    rw [image_mark, image_take t h.follows.1, Placement.image_cons]
    by_cases hs : u = s.vertex
    · rw [if_pos hs, if_pos hs.symm]
    · rw [if_neg hs, if_neg (Ne.symm hs)]
      exact h.image_eq u ((List.mem_cons.mp hu).resolve_left hs)
  isMarked_eq w hw := by
    rw [isMarked_mark _ hv, isMarked_take, h.isMarked_eq w hw]
    by_cases hwv : w = v
    · simp [Placement.uses, hwv]
    · simp [Placement.uses, hwv, Ne.symm hwv]

/-- Behind the last step the table of images is the embedding. -/
theorem images_eq (h : t.Holds depth [s] p) (v : Nat) :
    (t.take depth s.vertex v).images.toArray
      = Placement.toEmbedding q.pattern.size ((s.vertex, v) :: p) := by
  refine (Placement.toEmbedding_eq (by simp) fun u hu => ?_).symm
  have himage : (t.take depth s.vertex v).image u
      = Embedding.image (t.take depth s.vertex v).images.toArray u := by
    simp [image, Embedding.image, hu]
  rw [← himage, image_take t h.follows.1, Placement.image_cons]
  by_cases hs : u = s.vertex
  · rw [if_pos hs, if_pos hs.symm]
  · rw [if_neg hs, if_neg (Ne.symm hs)]
    have hmem := (h.covers u hu).resolve_right (by simpa using hs)
    exact (h.image_eq u hmem).symm

/-- The placement is left again: its last vertex is no longer in use.  The image stays. -/
theorem unplace (h : t.Holds depth (s :: rest) p)
    (h' : t'.Holds (depth + 1) rest ((s.vertex, v) :: p)) (halike : Alike (depth + 1) t t')
    (hv : v < q.data.size) (hfree : p.uses v = false) :
    (t'.mark v false).Holds depth (s :: rest) p where
  steps_eq := (congrArg (List.drop depth) halike.steps_eq).trans h.steps_eq
  length_eq := h.length_eq
  follows := h.follows
  covers := h.covers
  image_eq u hu := by
    rw [image_mark, h'.image_eq u (List.mem_cons_of_mem _ hu), Placement.image_cons,
      if_neg (h.ne_vertex hu).symm]
  isMarked_eq w hw := by
    rw [isMarked_mark _ hv]
    by_cases hwv : w = v
    · rw [if_pos hwv, hwv, hfree]
    · rw [if_neg hwv, h'.isMarked_eq w hw]
      simp [Placement.uses, Ne.symm hwv]

/-- The candidates made from the tables are those of the placement. -/
theorem candidatesWith_eq (h : t.Holds depth (s :: rest) p) :
    candidatesWith q t.isMarked t.image s = candidates q p s := by
  have hback : ∀ e ∈ s.back, t.image e.1 = p.image e.1 := fun e he =>
    h.image_eq e.1 ((h.follows.2.2.1 e.1 e.2).mp he).1
  have hpool : poolFrom q t.image s = poolFrom q p.image s := by
    unfold poolFrom
    cases hpivot : s.pivot? with
    | none => rfl
    | some w =>
      obtain ⟨e, he, rfl⟩ := Option.map_eq_some_iff.mp hpivot
      exact congrArg q.data.neighbors (hback e (List.mem_of_head? he))
  rw [candidatesWith, candidates, candidatesWith, hpool]
  refine List.filter_congr fun v hv => ?_
  rw [fitsWith, fitsWith, h.isMarked_eq v (lt_size_of_mem_pool hv)]
  refine congrArg _ (Bool.eq_iff_iff.mpr ?_)
  rw [List.all_eq_true, List.all_eq_true]
  exact forall₂_congr fun e he => by rw [hback e he]

end Holds

end Tables

/-! ## Single turns -/

namespace Progress

variable {σ : Type} {visit : σ → Embedding → ForInStep σ} {state : σ} {count : Nat}
variable {t t' : Tables q} {depth v : Nat} {s next : Step} {rest steps : List Step}
  {p : Placement}

theorem move_of_some (hlt : depth < q.pattern.size)
    (hv : (t.list depth)[t.cursor depth]? = some v) :
    move visit (.moving depth t state count) = descend visit depth v t state count := by
  rw [move, if_pos hlt, hv]

theorem move_of_none (hlt : depth < q.pattern.size)
    (hnone : (t.list depth)[t.cursor depth]? = none) :
    move visit (.moving depth t state count) = ascend t state count depth := by
  rw [move, if_pos hlt, hnone]

/-- At the last depth the visitor sees the placement with the candidate. -/
theorem descend_last (h : t.Holds depth [s] p) :
    descend visit depth v t state count
      = report visit depth (t.take depth s.vertex v) state count := by
  rw [descend, h.getElem?_steps, h.getElem?_steps_succ]
  simp only
  rw [if_pos h.follows.1]
  exact if_pos h.length_eq

/-- At any other depth the candidate is placed, and the next depth is entered. -/
theorem descend_next (h : t.Holds depth (s :: next :: rest) p) (hv : v < q.data.size) :
    descend visit depth v t state count
      = .moving (depth + 1) (((t.take depth s.vertex v).mark v true).enter (depth + 1) next)
        state count := by
  have hlength := h.length_eq
  rw [List.length_cons, List.length_cons] at hlength
  rw [descend, h.getElem?_steps, h.getElem?_steps_succ]
  simp only [List.head?_cons]
  rw [if_pos h.follows.1, if_neg (by omega), if_pos hv]

/-- From the depth behind a candidate the loop comes back to it, and clears its mark. -/
theorem ascend_succ (h : t.Holds depth (s :: rest) p) (hsteps : t'.steps = t.steps)
    (h' : t'.Holds (depth + 1) rest ((s.vertex, v) :: p)) (hv : v < q.data.size) :
    ascend t' state count (depth + 1) = .moving depth (t'.mark v false) state count := by
  have himage : t'.image s.vertex = v := by
    rw [h'.image_eq s.vertex List.mem_cons_self, Placement.image_cons, if_pos rfl]
  rw [ascend, hsteps, h.getElem?_steps]
  simp only
  rw [himage, if_pos ⟨h.follows.1, hv⟩]

/-! ## All turns at a depth and behind it -/

/-- The loop comes from one place to another one after finitely many turns. -/
def Reaches (visit : σ → Embedding → ForInStep σ) (a b : Progress q σ) : Prop :=
  ∃ n, (move visit)^[n] a = b

theorem Reaches.refl (visit : σ → Embedding → ForInStep σ) (a : Progress q σ) :
    Reaches visit a a :=
  ⟨0, rfl⟩

theorem Reaches.of_move {a b : Progress q σ} (h : Reaches visit (move visit a) b) :
    Reaches visit a b := by
  obtain ⟨n, hn⟩ := h
  exact ⟨n + 1, hn⟩

theorem Reaches.trans {a b c : Progress q σ} (h : Reaches visit a b) (h' : Reaches visit b c) :
    Reaches visit a c := by
  obtain ⟨n, rfl⟩ := h
  obtain ⟨m, rfl⟩ := h'
  exact ⟨m + n, Function.iterate_add_apply _ m n a⟩

/-- From a place the loop does what a search does, whose result is given: it ends where the
visitor stops, or else it comes to the depth with no candidate left, with the same placement
and with all lists and cursors in front as they were in the tables. -/
def Performs (visit : σ → Embedding → ForInStep σ) (start : Progress q σ) (t : Tables q)
    (depth : Nat) (steps : List Step) (p : Placement) : ForInStep (σ × Nat) → Prop
  | .done (state, count) => Reaches visit start (.ended ⟨state, count, true⟩)
  | .yield (state, count) =>
    ∃ t', Reaches visit start (.moving depth t' state count) ∧ t'.Holds depth steps p
      ∧ Tables.Alike depth t t' ∧ (t'.list depth)[t'.cursor depth]? = none

theorem Performs.of_reaches {a b : Progress q σ} {r : ForInStep (σ × Nat)}
    (hab : Reaches visit a b) (halike : Tables.Alike depth t t')
    (h : Performs visit b t' depth steps p r) : Performs visit a t depth steps p r := by
  cases r with
  | done r => exact hab.trans h
  | yield r =>
    obtain ⟨t'', hreach, hholds, halike', hnone⟩ := h
    exact ⟨t'', hab.trans hreach, hholds, halike.trans halike', hnone⟩

/-- What is still to be tried at a depth. -/
structure Remains (t : Tables q) (depth : Nat) (p : Placement) (remaining : List Nat) : Prop where
  drop_eq : (t.list depth).drop (t.cursor depth) = remaining
  free : ∀ v ∈ remaining, v < q.data.size ∧ p.uses v = false

namespace Remains

variable {remaining : List Nat}

theorem getElem?_of_nil (h : Remains t depth p []) :
    (t.list depth)[t.cursor depth]? = none :=
  List.getElem?_eq_none (List.drop_eq_nil_iff.mp h.drop_eq)

theorem getElem?_of_cons (h : Remains t depth p (v :: remaining)) :
    (t.list depth)[t.cursor depth]? = some v := by
  rw [← List.head?_drop, h.drop_eq, List.head?_cons]

/-- Behind the candidate at the cursor the others remain, as long as nobody else writes into the
list or moves the cursor. -/
theorem tail (h : Remains t depth p (v :: remaining)) (hlist : t'.list depth = t.list depth)
    (hcursor : t'.cursor depth = t.cursor depth + 1) : Remains t' depth p remaining where
  drop_eq := by rw [hlist, hcursor, ← List.tail_drop, h.drop_eq, List.tail_cons]
  free w hw := h.free w (List.mem_cons_of_mem v hw)

/-- When a depth is entered all candidates remain. -/
theorem enter (h : t.Holds depth (s :: rest) p) :
    Remains (t.enter depth s) depth p (candidates q p s) where
  drop_eq := by
    rw [Tables.list_enter t h.lt_size, Tables.cursor_enter t h.lt_size, if_pos rfl, if_pos rfl,
      List.drop_zero, h.candidatesWith_eq]
  free v hv := by
    obtain ⟨hpool, hfits⟩ := mem_candidates_iff.mp hv
    exact ⟨lt_size_of_mem_pool hpool, Placement.uses_eq_false_iff.mpr (fits_iff.mp hfits).1⟩

end Remains

/-- The turns at the last depth: every candidate completes an embedding. -/
theorem visitAll_moves_last {remaining : List Nat} (h : t.Holds depth [s] p)
    (hrem : Remains t depth p remaining) :
    Performs visit (.moving depth t state count) t depth [s] p
      (visitAll (fun r v => search q (counting visit) [] ((s.vertex, v) :: p) r) (state, count)
        remaining) := by
  induction remaining generalizing t state count with
  | nil => exact ⟨t, .refl visit _, h, .refl depth t, hrem.getElem?_of_nil⟩
  | cons v remaining ih =>
    have hmove : move visit (.moving depth t state count)
        = report visit depth (t.take depth s.vertex v) state count := by
      rw [move_of_some h.lt_size hrem.getElem?_of_cons, descend_last h]
    rw [visitAll, search, ← h.images_eq v, counting]
    rw [report] at hmove
    cases hvisit : visit state (t.take depth s.vertex v).images.toArray with
    | done final =>
      rw [hvisit] at hmove
      exact .of_move ⟨0, hmove⟩
    | yield final =>
      rw [hvisit] at hmove
      refine .of_reaches (.of_move ⟨0, hmove⟩) (.take h.lt_size t s.vertex v) (ih (h.take v) ?_)
      exact hrem.tail rfl (by rw [Tables.cursor_take t h.lt_size, if_pos rfl])

/-- The turns at a depth and behind it do what the search does with the candidates there. -/
theorem visitAll_moves {remaining : List Nat} (h : t.Holds depth (s :: rest) p)
    (hrem : Remains t depth p remaining) :
    Performs visit (.moving depth t state count) t depth (s :: rest) p
      (visitAll (fun r v => search q (counting visit) rest ((s.vertex, v) :: p) r) (state, count)
        remaining) := by
  induction rest generalizing s t depth p state count remaining with
  | nil => exact visitAll_moves_last h hrem
  | cons next rest deeper =>
    induction remaining generalizing t state count with
    | nil => exact ⟨t, .refl visit _, h, .refl depth t, hrem.getElem?_of_nil⟩
    | cons v remaining ih =>
      obtain ⟨hv, hfree⟩ := hrem.free v List.mem_cons_self
      have hplaced := h.place hv
      let below := ((t.take depth s.vertex v).mark v true).enter (depth + 1) next
      have hmove : move visit (.moving depth t state count)
          = .moving (depth + 1) below state count := by
        rw [move_of_some h.lt_size hrem.getElem?_of_cons, descend_next h hv]
      have hbelow : Tables.Alike (depth + 1) (t.take depth s.vertex v) below :=
        ((Tables.Alike.refl _ _).mark v true).trans (.enter hplaced.lt_size _ next)
      have hdown : Performs visit (.moving (depth + 1) below state count) below _ _ _ _ :=
        deeper (hplaced.enter (depth + 1) next) (.enter hplaced)
      rw [visitAll, search]
      generalize visitAll _ (state, count) (candidates q ((s.vertex, v) :: p) next) = r at hdown ⊢
      rcases r with ⟨final, sofar⟩ | ⟨final, sofar⟩
      · exact .of_move (.trans ⟨0, hmove⟩ hdown)
      · obtain ⟨t', hreach, hholds, halike, hnone⟩ := hdown
        have hback := hbelow.trans halike
        have hup : move visit (.moving (depth + 1) t' final sofar)
            = .moving depth (t'.mark v false) final sofar := by
          rw [move_of_none hholds.lt_size hnone, ascend_succ h hback.steps_eq hholds hv]
        refine .of_reaches (.of_move (.trans (hmove ▸ hreach) (.of_move ⟨0, hup⟩)))
          ((Tables.Alike.take h.lt_size t s.vertex v).trans (hback.of_succ.mark v false))
          (ih ((h.take v).unplace hholds hback hv hfree) (hrem.tail ?_ ?_))
        · exact hback.list_eq depth (Nat.lt_succ_self depth)
        · refine (hback.cursor_eq depth (Nat.lt_succ_self depth)).trans ?_
          rw [Tables.cursor_take t h.lt_size, if_pos rfl]

end Progress

/-- The loop ends after finitely many turns, with the run of the search. -/
theorem forEachEmbedding_moves {σ : Type} {root? : Option Nat}
    (visit : σ → Embedding → ForInStep σ) (state : σ) :
    Progress.Reaches visit (.entry q root? state)
      (.ended (forEachEmbedding q root? visit state)) := by
  unfold Progress.entry forEachEmbedding
  cases root?.or (defaultRoot? q.pattern) with
  | none => exact .refl visit _
  | some root =>
    simp only
    split
    · exact .refl visit _
    · rename_i hguard
      have hroot : root < q.pattern.size := by omega
      have hstart := Tables.Holds.start hroot
      rw [countedPlan_eq hroot]
      cases hplan : plan q.pattern root with
      | nil => cases hplan
      | cons s rest =>
        rw [hplan] at hstart
        have hall : Progress.Performs visit (.moving 0 _ state 0) _ _ _ _ _ :=
          Progress.visitAll_moves (hstart.enter 0 s) (.enter hstart)
        rw [search]
        generalize visitAll _ (state, 0) (candidates q [] s) = r at hall ⊢
        rcases r with ⟨final, count⟩ | ⟨final, count⟩
        · exact hall
        · obtain ⟨t, hreach, hholds, -, hnone⟩ := hall
          refine hreach.trans (.of_move ⟨0, ?_⟩)
          exact Progress.move_of_none hholds.lt_size hnone

/-- The loop ends after finitely many turns, whatever the visitor does.  A visitor that never
stops is called once with every embedding that the query accepts, whatever root is asked for.
Any other visitor is called with the same embeddings in the same order, up to the one at which
it stops; the run counts its calls and says whether it stopped. -/
theorem forEachEmbedding_exact (q : Query) (root? : Option Nat)
    (hroot : ∀ root ∈ root?, root < q.pattern.size) :
    (reported q root?).Nodup
      ∧ (∀ m, m ∈ reported q root? ↔ q.IsEmbedding m)
      ∧ (∀ other?, (∀ root ∈ other?, root < q.pattern.size) →
          (reported q root?).Perm (reported q other?))
      ∧ ∀ (σ : Type) (visit : σ → Embedding → ForInStep σ) (state : σ),
        (∃ turns, (Progress.move visit)^[turns] (.entry q root? state)
          = .ended (forEachEmbedding q root? visit state))
        ∧ (∀ final, visitAll visit state (reported q root?) = .yield final →
          calls q root? visit state = reported q root?
            ∧ forEachEmbedding q root? visit state
              = ⟨final, (reported q root?).length, false⟩)
        ∧ ∀ before m after mid final, reported q root? = before ++ m :: after →
          visitAll visit state before = .yield mid → visit mid m = .done final →
          calls q root? visit state = before ++ [m]
            ∧ forEachEmbedding q root? visit state = ⟨final, before.length + 1, true⟩ := by
  have hmem : ∀ m, m ∈ reported q root? ↔ q.IsEmbedding m := fun m => by
    rw [reported_eq_listed, mem_listed_iff hroot]
  refine ⟨?_, hmem, fun other? hother => ?_, fun σ visit state =>
    ⟨forEachEmbedding_moves visit state, fun final h => ?_, ?_⟩⟩
  · rw [reported_eq_listed]
    exact nodup_listed q root?
  · rw [reported_eq_listed, reported_eq_listed]
    refine (List.perm_ext_iff_of_nodup (nodup_listed q root?) (nodup_listed q other?)).mpr ?_
    intro m
    rw [mem_listed_iff hroot, mem_listed_iff hother]
  · rw [reported_eq_listed] at h ⊢
    exact ⟨calls_of_yield h, by rw [forEachEmbedding_eq_runOver, runOver_of_yield h]⟩
  · intro before m after mid final hlist h hm
    rw [reported_eq_listed] at hlist
    refine ⟨calls_of_done hlist h hm, ?_⟩
    rw [forEachEmbedding_eq_runOver, hlist, runOver_of_done h hm]

/-- A segment goes to itself, and not to one of its ends. -/
theorem forEachEmbedding_exact_segment :
    let q := Query.plain (.segment "a" "a" "e") (.segment "a" "a" "e")
    (∀ root ∈ some 1, root < q.pattern.size)
      ∧ #[0, 1] ∈ reported q (some 1) ∧ #[0, 0] ∉ reported q (some 1) := by
  intro q
  have hroot : ∀ root ∈ some 1, root < q.pattern.size := by decide
  have hmem := (forEachEmbedding_exact q (some 1) hroot).2.1
  refine ⟨hroot, (hmem _).mpr (isEmbedding_segment _ _ _), ?_⟩
  intro hzero
  exact absurd (((hmem _).mp hzero).injective 0 (by decide) 1 (by decide) rfl) (by decide)

end GraphDependency.Matching
