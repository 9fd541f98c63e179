import GraphDependency.Candidate.Index
import GraphDependency.Proofs.Candidate.Filter
import Mathlib.Data.List.Induction

set_option autoImplicit false

/-!
# Counting rounds

A counter stands for the rounds in a row in which a data vertex was met.  It is
never ahead of the number of rounds, and it is equal to it only for a vertex that
was met in every round.

Main statements: `mem_reached_iff` (what a round meets), `count_round` (what it
does to the counters), `hitEveryRound_run_iff` and `rounds_exact`.
-/

namespace GraphDependency.Candidate.RoundCounter

variable {data pattern : Graph} {u y : Nat} {r : RoundCounter}

/-- A round meets the data vertices next to a source with label and degree of the
pattern vertex. -/
theorem mem_reached_iff {sources : List Nat} :
    y ∈ reached data pattern u sources
      ↔ labelDegreeOk data y pattern u = true ∧ ∃ x ∈ sources, y ∈ data.neighbors x := by
  simp only [reached, List.mem_flatMap, List.mem_filter]
  constructor
  · rintro ⟨x, hx, hy, hok⟩
    exact ⟨hok, x, hx, hy⟩
  · rintro ⟨hok, x, hx, hy⟩
    exact ⟨x, hx, hy, hok⟩

theorem lt_size_of_mem_reached {sources : List Nat} (h : y ∈ reached data pattern u sources) :
    y < data.size := by
  obtain ⟨-, x, -, hy⟩ := mem_reached_iff.mp h
  exact data.lt_size_of_mem_neighbors hy

/-! ## Hits -/

@[simp] theorem rounds_hit (r : RoundCounter) (y : Nat) : (r.hit y).rounds = r.rounds := by
  unfold hit
  split <;> rfl

@[simp] theorem size_hit (r : RoundCounter) (y : Nat) : (r.hit y).counts.size = r.counts.size := by
  unfold hit
  split <;> simp

theorem count_hit {x : Nat} (hx : x < r.counts.size) :
    (r.hit x).count y
      = if y = x ∧ r.count y = r.rounds then r.rounds + 1 else r.count y := by
  by_cases hxy : y = x
  · subst hxy
    unfold hit
    split
    · rename_i h
      rw [if_pos ⟨rfl, h⟩]
      simp [count, hx]
    · rename_i h
      simp [h]
  · unfold hit
    split
    · simp [hxy, count, Ne.symm hxy]
    · simp [hxy]

@[simp] theorem rounds_foldl_hit (ys : List Nat) (r : RoundCounter) :
    (ys.foldl hit r).rounds = r.rounds := by
  induction ys generalizing r with
  | nil => rfl
  | cons x ys ih => rw [List.foldl_cons, ih, rounds_hit]

@[simp] theorem size_foldl_hit (ys : List Nat) (r : RoundCounter) :
    (ys.foldl hit r).counts.size = r.counts.size := by
  induction ys generalizing r with
  | nil => rfl
  | cons x ys ih => rw [List.foldl_cons, ih, size_hit]

/-- However often a vertex is hit in a round, it is counted once, and only if it was
counted in every round before. -/
theorem count_foldl_hit {ys : List Nat} (hlt : ∀ x ∈ ys, x < r.counts.size) :
    (ys.foldl hit r).count y
      = if y ∈ ys ∧ r.count y = r.rounds then r.rounds + 1 else r.count y := by
  induction ys generalizing r with
  | nil => simp
  | cons x ys ih =>
    obtain ⟨hx, hys⟩ := List.forall_mem_cons.mp hlt
    rw [List.foldl_cons, ih (by simpa using hys), rounds_hit, count_hit hx]
    by_cases hcount : r.count y = r.rounds
    · by_cases hxy : y = x
      · simp [hxy, ← hcount]
      · simp [hxy, hcount]
    · simp [hcount]

/-! ## Rounds -/

theorem count_start (n y : Nat) : (start n).count y = 0 := by
  simp only [count, start, Array.getElem?_replicate]
  split <;> rfl

@[simp] theorem rounds_round (r : RoundCounter) (sources : List Nat) :
    (r.round data pattern u sources).rounds = r.rounds + 1 := by
  simp [round]

@[simp] theorem size_round (r : RoundCounter) (sources : List Nat) :
    (r.round data pattern u sources).counts.size = r.counts.size := by
  simp [round]

/-- What a round does to the counters. -/
theorem count_round (hsize : r.counts.size = data.size) (sources : List Nat) :
    (r.round data pattern u sources).count y
      = if y ∈ reached data pattern u sources ∧ r.count y = r.rounds then r.rounds + 1
        else r.count y := by
  have hlt : ∀ x ∈ reached data pattern u sources, x < r.counts.size := fun x hx =>
    hsize ▸ lt_size_of_mem_reached hx
  have h := count_foldl_hit (y := y) hlt
  simpa [round, count] using h

theorem run_append_singleton (sources : List (List Nat)) (s : List Nat) :
    run data pattern u (sources ++ [s]) = (run data pattern u sources).round data pattern u s := by
  simp [run]

theorem size_run (sources : List (List Nat)) :
    (run data pattern u sources).counts.size = data.size := by
  induction sources using List.reverseRecOn with
  | nil => simp [run, start]
  | append_singleton sources s ih => rw [run_append_singleton, size_round, ih]

theorem rounds_run (sources : List (List Nat)) :
    (run data pattern u sources).rounds = sources.length := by
  induction sources using List.reverseRecOn with
  | nil => rfl
  | append_singleton sources s ih => simp [run_append_singleton, ih]

/-- No counter is ahead of the rounds, and one that is not behind was raised in every
round. -/
theorem count_run (sources : List (List Nat)) :
    (run data pattern u sources).count y ≤ sources.length
      ∧ ((run data pattern u sources).count y = sources.length
        ↔ ∀ s ∈ sources, y ∈ reached data pattern u s) := by
  induction sources using List.reverseRecOn with
  | nil => simp [run, count_start]
  | append_singleton sources s ih =>
    obtain ⟨hle, hiff⟩ := ih
    rw [run_append_singleton, count_round (size_run sources), rounds_run, List.length_append,
      List.length_singleton, List.forall_mem_append, List.forall_mem_singleton]
    split
    · rename_i h
      exact ⟨Nat.le_refl _, iff_of_true rfl ⟨hiff.mp h.2, h.1⟩⟩
    · rename_i h
      refine ⟨by omega, iff_of_false (by omega) fun hall => h ⟨hall.2, hiff.mpr hall.1⟩⟩

/-- A vertex counts as hit in every round if every round meets it. -/
theorem hitEveryRound_run_iff {sources : List (List Nat)} :
    (run data pattern u sources).hitEveryRound y = true
      ↔ ∀ s ∈ sources, y ∈ reached data pattern u s := by
  rw [hitEveryRound, beq_iff_eq, rounds_run, (count_run sources).2]

/-- After a first round, a vertex hit in every round has been counted. -/
theorem count_run_pos {sources : List (List Nat)} (hne : sources ≠ [])
    (h : (run data pattern u sources).hitEveryRound y = true) :
    0 < (run data pattern u sources).count y := by
  rw [hitEveryRound, beq_iff_eq, rounds_run] at h
  rw [h]
  exact List.length_pos_iff.mpr hne

/-! ## Hits of a round -/

/-- How often a round hits a data vertex: once from each source next to it, if it has the label
and at least the degree of the pattern vertex. -/
def hits (data pattern : Graph) (u : Nat) (sources : List Nat) (y : Nat) : Nat :=
  if data.label y = pattern.label u ∧ pattern.degree u ≤ data.degree y then
    sources.countP fun x => (data.neighbors y).contains x
  else 0

theorem reached_cons (x : Nat) (sources : List Nat) :
    reached data pattern u (x :: sources)
      = (data.neighbors x).filter (fun y => labelDegreeOk data y pattern u)
        ++ reached data pattern u sources := rfl

theorem count_reached (sources : List Nat) :
    (reached data pattern u sources).count y = hits data pattern u sources y := by
  by_cases hok : labelDegreeOk data y pattern u = true
  · rw [hits, if_pos (labelDegreeOk_iff.mp hok)]
    induction sources with
    | nil => rfl
    | cons x sources ih =>
      rw [reached_cons, List.count_append,
        List.count_filter (p := fun y => labelDegreeOk data y pattern u) hok, ih,
        List.countP_cons, (data.nodup_neighbors x).count, Nat.add_comm]
      simp [data.mem_neighbors_comm (v := y)]
  · rw [hits, if_neg (mt labelDegreeOk_iff.mpr hok), List.count_eq_zero]
    exact fun hmem => hok (mem_reached_iff.mp hmem).1

/-- A round raises the counter of a vertex that it hits, once however often, if every round
before hit it as well. -/
theorem count_run_append_singleton (before : List (List Nat)) (s : List Nat) :
    (run data pattern u (before ++ [s])).count y
      = if y ∈ reached data pattern u s ∧ (run data pattern u before).hitEveryRound y = true then
          (run data pattern u before).count y + 1
        else (run data pattern u before).count y := by
  simp only [run_append_singleton, count_round (size_run before), hitEveryRound, beq_iff_eq]
  split
  · rename_i h
    rw [h.2]
  · rfl

/-- A vertex missed in a round is not counted in any round after it. -/
theorem count_run_of_missed {s : List Nat} (hmissed : y ∉ reached data pattern u s)
    (before after : List (List Nat)) :
    (run data pattern u (before ++ s :: after)).count y = (run data pattern u before).count y := by
  induction after using List.reverseRecOn with
  | nil => rw [count_run_append_singleton, if_neg fun h => hmissed h.1]
  | append_singleton after t ih =>
    have hbroken : ¬ (run data pattern u (before ++ s :: after)).hitEveryRound y = true := by
      rw [hitEveryRound_run_iff]
      exact fun hall => hmissed (hall s (by simp))
    rw [← List.cons_append, ← List.append_assoc, count_run_append_singleton,
      if_neg fun h => hbroken h.2, ih]

/-- After one round or more, a data vertex counts as hit in every round if it has the label of
the pattern vertex, at least its degree, and a neighbor among the sources of each round.  A round
that misses a vertex ends its counting for good, and one that hits it adds one, however many
hits there are. -/
theorem rounds_exact (data pattern : Graph) (u y : Nat) :
    (∀ s rest, (run data pattern u (s :: rest)).hitEveryRound y = true
        ↔ data.label y = pattern.label u ∧ pattern.degree u ≤ data.degree y
          ∧ ∀ t ∈ s :: rest, ∃ x ∈ t, x ∈ data.neighbors y)
      ∧ (∀ before s after, hits data pattern u s y = 0 →
          (run data pattern u (before ++ s :: after)).count y
            = (run data pattern u before).count y)
      ∧ ∀ before s, (run data pattern u before).hitEveryRound y = true →
          (run data pattern u (before ++ [s])).count y
            = (run data pattern u before).count y + min 1 (hits data pattern u s y) := by
  refine ⟨fun s rest => ?_, fun before s after hmissed => ?_, fun before s hall => ?_⟩
  · simp only [hitEveryRound_run_iff, mem_reached_iff, labelDegreeOk_iff,
      data.mem_neighbors_comm (v := y)]
    constructor
    · intro h
      obtain ⟨⟨hlabel, hdegree⟩, -⟩ := h s List.mem_cons_self
      exact ⟨hlabel, hdegree, fun t ht => (h t ht).2⟩
    · rintro ⟨hlabel, hdegree, hnear⟩ t ht
      exact ⟨⟨hlabel, hdegree⟩, hnear t ht⟩
  · rw [← count_reached, List.count_eq_zero] at hmissed
    exact count_run_of_missed hmissed before after
  · rw [count_run_append_singleton, ← count_reached]
    by_cases hmem : y ∈ reached data pattern u s
    · have hpos : 1 ≤ (reached data pattern u s).count y := List.count_pos_iff.mpr hmem
      rw [if_pos ⟨hmem, hall⟩, Nat.min_eq_left hpos]
    · rw [if_neg fun h => hmem h.1, List.count_eq_zero_of_not_mem hmem]
      rfl

end GraphDependency.Candidate.RoundCounter
