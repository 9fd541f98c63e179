import GraphDependency.Candidate.Moves
import GraphDependency.Proofs.Candidate.Session
import Mathlib.Logic.Function.Iterate

set_option autoImplicit false

/-!
# The moves of a search come to an end

A search that is carried out move by move ends after finitely many moves, with what the
search by recursion answers: whenever the recursion goes to the next position, so does a
move, and when it is through with the candidates there, a move leads back.

Main statements: `seek_moves` (the moves behind one position) and `next_moves`.
-/

namespace GraphDependency.Candidate.Cursor

variable {k : Course} {c c' : Cursor} {lo hi pos : Nat}

/-- Where a search is when it is through with a position and those behind it. -/
def leave (lo pos : Nat) : Bool × Cursor → Phase
  | (true, c) => .ended (true, c)
  | (false, c) => if pos = lo then .ended (false, c) else .moving (pos - 1) c

/-- Whether the slots fit the course never changes. -/
theorem kept_size (k : Course) : Kept k fun c => c.slots.size = k.length where
  release h pos := (size_slots_release _ pos).trans h
  setRemaining h _ _ := Array.size_setIfInBounds.trans h
  hold h _ _ _ _ := Array.size_setIfInBounds.trans h

/-- Moving on from a position that got its candidates back. -/
theorem move_reset (c : Cursor) (pos : Nat) :
    move k lo hi (.moving pos (c.reset k pos))
      = turn k lo hi pos (takeFrom k (c.reset k pos) pos ((c.reset k pos).slot pos).remaining) := by
  rw [move, advance, release_of_free (held?_reset c k pos)]

/-- Going back to a position whose other candidates a search has left alone. -/
theorem move_back {behind v : Nat} {rest : List Nat} (hsize : pos < c.slots.size)
    (hseek : seek k ((c.hold k pos v rest).reset k (pos + 1)) (pos + 1) behind
      (((c.hold k pos v rest).reset k (pos + 1)).slot (pos + 1)).remaining = (false, c')) :
    move k lo hi (.moving pos c')
      = turn k lo hi pos (takeFrom k (c'.release pos) pos rest) := by
  have hframe := seek_frame k ((c.hold k pos v rest).reset k (pos + 1)) (pos + 1) behind
    (((c.hold k pos v rest).reset k (pos + 1)).slot (pos + 1)).remaining (Nat.lt_succ_self pos)
  rw [hseek, slot_reset_of_ne _ k (by omega), slot_hold, if_pos ⟨rfl, hsize⟩] at hframe
  rw [move, advance, remaining_release, hframe]

/-- The moves that go through the candidates of a free position end like the search. -/
theorem seek_moves {behind : Nat} (remaining : List Nat) (hlo : lo ≤ pos)
    (hhi : pos + behind + 1 = hi) (hlen : hi ≤ k.length) (hsize : c.slots.size = k.length)
    (hfree : (c.slot pos).held? = none) :
    ∃ n, (move k lo hi)^[n] (turn k lo hi pos (takeFrom k c pos remaining))
      = leave lo pos (seek k c pos behind remaining) := by
  fun_induction seek k c pos behind remaining with
  | case1 c pos behind => exact ⟨0, rfl⟩
  | case2 c pos v rest hacc =>
    refine ⟨0, ?_⟩
    rw [takeFrom, if_pos hacc, turn, if_pos (by omega)]
    rfl
  | case3 c pos v rest hacc ih =>
    rw [takeFrom, if_neg hacc]
    exact ih hlo hhi hsize hfree
  | case4 c pos behind v rest hacc c₁ c₂ hseek ih =>
    have hheld := (kept_size k).hold hsize (by omega) hfree (notMem_used_of_acceptable hacc) rest
    obtain ⟨n, hn⟩ := ih (by omega) (by omega) ((kept_size k).reset hheld (pos + 1))
      (held?_reset _ k (pos + 1))
    refine ⟨n + 1, ?_⟩
    rw [takeFrom, if_pos hacc, turn, if_neg (by omega), Function.iterate_succ_apply, move_reset,
      hn, hseek]
    rfl
  | case5 c pos behind v rest hacc c₁ c₂ hseek ih₁ ih₂ =>
    have hheld := (kept_size k).hold hsize (by omega) hfree (notMem_used_of_acceptable hacc) rest
    have hreset := (kept_size k).reset hheld (pos + 1)
    obtain ⟨m, hm⟩ := ih₁ (by omega) (by omega) hreset (held?_reset _ k (pos + 1))
    have hsize₂ := (kept_size k).seek (c₁.slot (pos + 1)).remaining hreset
      (held?_reset _ k (pos + 1)) (show pos + 1 + behind < k.length by omega)
    rw [hseek] at hm hsize₂
    obtain ⟨n, hn⟩ := ih₂ hlo hhi ((kept_size k).release hsize₂ pos)
      (by rw [held?_release, if_pos rfl])
    have hforth : (move k lo hi)^[m + 1] (.moving (pos + 1) c₁) = .moving pos c₂ := by
      rw [Function.iterate_succ_apply, move_reset, hm, leave, if_neg (by omega),
        Nat.add_sub_cancel]
    refine ⟨n + 1 + (m + 1), ?_⟩
    rw [takeFrom, if_pos hacc, turn, if_neg (by omega), Function.iterate_add_apply, hforth,
      Function.iterate_succ_apply, move_back (by omega) hseek, hn]
  | case6 c pos behind v rest hacc ih =>
    rw [takeFrom, if_neg hacc]
    exact ih hlo hhi hsize hfree

/-- The moves from a position on end like the search that goes on there. -/
theorem seek_release_moves (hlo : lo ≤ pos) (hlt : pos < hi) (hlen : hi ≤ k.length)
    (hsize : c.slots.size = k.length) :
    ∃ n, (move k lo hi)^[n] (.moving pos c)
      = leave lo pos (seek k (c.release pos) pos (hi - 1 - pos)
          ((c.release pos).slot pos).remaining) := by
  obtain ⟨n, hn⟩ := seek_moves ((c.release pos).slot pos).remaining hlo
    (show pos + (hi - 1 - pos) + 1 = hi by omega) hlen ((kept_size k).release hsize pos)
    (by rw [held?_release, if_pos rfl])
  exact ⟨n + 1, by rw [Function.iterate_succ_apply, move, advance, hn]⟩

theorem resumeFrom_moves {offset : Nat} (hlt : lo + offset < hi) (hlen : hi ≤ k.length)
    (hsize : c.slots.size = k.length) :
    ∃ n, (move k lo hi)^[n] (.moving (lo + offset) c) = .ended (resumeFrom k lo hi offset c) := by
  induction offset generalizing c with
  | zero =>
    obtain ⟨n, hn⟩ := seek_release_moves (Nat.le_add_right lo 0) hlt hlen hsize
    refine ⟨n, ?_⟩
    rw [hn, resumeFrom]
    simp only
    split <;> (rename_i heq; rw [heq, leave])
    rw [if_pos (Nat.add_zero lo)]
  | succ offset ih =>
    obtain ⟨m, hm⟩ := seek_release_moves (Nat.le_add_right lo (offset + 1)) hlt hlen hsize
    have hsize₁ := (kept_size k).seek_release hsize hlt hlen
    rw [resumeFrom]
    simp only
    split
    · rename_i heq
      exact ⟨m, by rw [hm, heq, leave]⟩
    · rename_i heq
      rw [heq] at hsize₁
      obtain ⟨n, hn⟩ := ih (by omega) hsize₁
      refine ⟨n + m, ?_⟩
      rw [Function.iterate_add_apply, hm, heq, leave, if_neg (by omega)]
      exact hn

/-- Every search of a range ends after finitely many moves, with its answer. -/
theorem next_moves (hlt : lo < hi) (hlen : hi ≤ k.length) (hsize : c.slots.size = k.length)
    (resume : Bool) :
    ∃ n, (move k lo hi)^[n] (entry k lo hi resume c) = .ended (next k c lo hi resume) := by
  rw [next, if_neg (Nat.ne_of_lt hlt), entry]
  cases resume with
  | true =>
    have hlast : lo + (hi - 1 - lo) = hi - 1 := by omega
    have hmoves := resumeFrom_moves (show lo + (hi - 1 - lo) < hi by omega) hlen hsize
    rwa [hlast] at hmoves
  | false =>
    obtain ⟨n, hn⟩ := seek_moves ((c.reset k lo).slot lo).remaining (Nat.le_refl lo)
      (show lo + (hi - 1 - lo) + 1 = hi by omega) hlen ((kept_size k).reset hsize lo)
      (held?_reset c k lo)
    refine ⟨n + 1, ?_⟩
    rw [if_neg Bool.false_ne_true, if_neg Bool.false_ne_true, Function.iterate_succ_apply,
      move_reset, hn]
    cases seek k (c.reset k lo) lo (hi - 1 - lo) ((c.reset k lo).slot lo).remaining with
    | mk found c' => cases found with
      | true => rfl
      | false => rw [leave, if_pos rfl]

end GraphDependency.Candidate.Cursor
