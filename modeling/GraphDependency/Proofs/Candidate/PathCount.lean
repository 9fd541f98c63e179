import GraphDependency.Candidate.Order
import GraphDependency.Proofs.Candidate.Completeness
import GraphDependency.Proofs.Counting
import Mathlib.Data.ENat.Lattice

set_option autoImplicit false

/-!
# Counting the ways along a path

How often the links of an index can be followed along a path is counted backwards: each
candidate of the last vertex counts once, and a data vertex before it counts as often as
those that it is linked to.  Sums stop at a cap, at every vertex and in the end, and what
counts zero times is dropped.  All the same the result is the number of sequences of data
vertices that follow the links, or the cap if there are more: a sum that has been stopped
stays at the cap, whatever is added, and as nothing is repeated in an index, every sequence is
counted once.

Main statements: `sumCapped_eq` (a capped sum), `weightsAlong_eq` (what is known behind each
vertex of the path) and `pathEmbeddings_exact`.
-/

namespace GraphDependency.Candidate

/-! ## Capped sums -/

theorem foldl_addCapped (ns : List Nat) (a : Nat) :
    ns.foldl addCapped (min a Text.max64) = min (a + ns.sum) Text.max64 := by
  induction ns generalizing a with
  | nil => rfl
  | cons n ns ih =>
    have hstep : addCapped (min a Text.max64) n = min (a + n) Text.max64 := by
      unfold addCapped
      omega
    rw [List.foldl_cons, hstep, ih, List.sum_cons, Nat.add_assoc]

/-- Adding up number by number with a cap caps the sum. -/
theorem sumCapped_eq (ns : List Nat) : sumCapped ns = min ns.sum Text.max64 := by
  have h := foldl_addCapped ns 0
  rwa [Nat.zero_min, Nat.zero_add] at h

/-! ## Sequences along a path -/

namespace Index

/-- The data vertices follow the links along a path from the position `start` to its end: each
but the first is linked to the one before it, and the last one is a candidate. -/
structure Leads (i : Index) (path : List Nat) (start : Nat) (xs : List Nat) : Prop where
  length_eq : start + xs.length = path.length
  last : ∃ u ∈ path.getLast?, ∃ x ∈ xs.getLast?, x ∈ i.candidates u
  linked : ∀ k u x y, path[start + k + 1]? = some u → xs[k]? = some x → xs[k + 1]? = some y →
    i.Linked u x y

/-! ## Following the links step by step -/

section Steps

variable {i : Index} {path xs : List Nat} {start u x y : Nat}

/-- At the end of the path there is one data vertex left, a candidate. -/
theorem leads_last_iff (hlast : start + 1 = path.length) (hu : path.getLast? = some u) :
    i.Leads path start (x :: xs) ↔ xs = [] ∧ x ∈ i.candidates u := by
  constructor
  · intro h
    have hlength := h.length_eq
    rw [List.length_cons] at hlength
    obtain rfl : xs = [] := List.length_eq_zero_iff.mp (by omega)
    obtain ⟨w, hw, y, hy, hmem⟩ := h.last
    rw [hu] at hw
    cases hw
    cases hy
    exact ⟨rfl, hmem⟩
  · rintro ⟨rfl, hx⟩
    exact ⟨by simpa using hlast, ⟨u, hu, x, rfl, hx⟩, fun k u y z _ _ hz => nomatch hz⟩

/-- Before the end, the next data vertex is linked to the first one, and the links lead on
from it. -/
theorem leads_cons_iff (hu : path[start + 1]? = some u) :
    i.Leads path start (x :: xs)
      ↔ (∃ y ∈ xs.head?, i.Linked u x y) ∧ i.Leads path (start + 1) xs := by
  have hlt : start + 1 < path.length := (List.getElem?_eq_some_iff.mp hu).1
  constructor
  · intro h
    have hlength := h.length_eq
    obtain ⟨y, ys, rfl⟩ : ∃ y ys, xs = y :: ys := by
      refine List.exists_cons_of_ne_nil fun hnil => ?_
      rw [hnil, List.length_singleton] at hlength
      omega
    refine ⟨⟨y, rfl, h.linked 0 u x y hu rfl rfl⟩, ?_, ?_, fun k w a b hw ha hb => ?_⟩
    · rw [← hlength, List.length_cons (a := x)]
      omega
    · simpa [List.getLast?_cons_cons] using h.last
    · refine h.linked (k + 1) w a b ?_ ha hb
      rwa [show start + (k + 1) + 1 = start + 1 + k + 1 by omega]
  · rintro ⟨⟨y, hy, hxy⟩, h⟩
    obtain ⟨ys, rfl⟩ : ∃ ys, xs = y :: ys := List.head?_eq_some_iff.mp hy
    have hlength := h.length_eq
    refine ⟨?_, ?_, fun k w a b hw ha hb => ?_⟩
    · rw [← hlength, List.length_cons (a := x)]
      omega
    · simpa [List.getLast?_cons_cons] using h.last
    · cases k with
      | zero =>
        cases ha
        cases hb
        obtain rfl : u = w := Option.some.inj (hu.symm.trans hw)
        exact hxy
      | succ k =>
        refine h.linked k w a b ?_ ha hb
        rwa [show start + 1 + k + 1 = start + (k + 1) + 1 by omega]

end Steps

/-- The ways on from `x` along the rest of a path that ends at `last`. -/
def waysFrom (i : Index) (last : Nat) : List Nat → Nat → List (List Nat)
  | [], x => if x ∈ i.candidates last then [[x]] else []
  | u :: rest, x => ((i.linked u x).flatMap (waysFrom i last rest)).map (x :: ·)

/-- Where ways along the rest of a path can begin. -/
def beginnings (i : Index) (last : Nat) : List Nat → List Nat
  | [] => i.candidates last
  | u :: _ => (i.links u).map Prod.fst

/-- All ways along the rest of a path. -/
def ways (i : Index) (last : Nat) (rest : List Nat) : List (List Nat) :=
  (beginnings i last rest).flatMap (waysFrom i last rest)

section Ways

variable {i : Index} {path rest xs : List Nat} {last start u x : Nat}

theorem mem_waysFrom_cons_iff :
    xs ∈ waysFrom i last (u :: rest) x
      ↔ ∃ y ∈ i.linked u x, ∃ ys ∈ waysFrom i last rest y, xs = x :: ys := by
  simp only [waysFrom, List.mem_map, List.mem_flatMap, eq_comm (b := xs)]
  constructor
  · rintro ⟨ys, ⟨y, hy, hys⟩, hxs⟩
    exact ⟨y, hy, ys, hys, hxs⟩
  · rintro ⟨y, hy, ys, hys, hxs⟩
    exact ⟨ys, ⟨y, hy, hys⟩, hxs⟩

theorem head?_of_mem_waysFrom (h : xs ∈ waysFrom i last rest x) : xs.head? = some x := by
  cases rest with
  | nil =>
    rw [waysFrom] at h
    split at h
    · rw [List.mem_singleton.mp h]
      rfl
    · cases h
  | cons u rest =>
    obtain ⟨-, -, ys, -, rfl⟩ := mem_waysFrom_cons_iff.mp h
    rfl

/-- No way begins anywhere else. -/
theorem waysFrom_eq_nil (h : x ∉ beginnings i last rest) : waysFrom i last rest x = [] := by
  cases rest with
  | nil => exact if_neg h
  | cons u rest =>
    have hnone : (i.links u).find? (fun e => e.1 = x) = none := by
      refine List.find?_eq_none.mpr fun e he hx => h ?_
      exact List.mem_map.mpr ⟨e, he, of_decide_eq_true hx⟩
    rw [waysFrom, linked, hnone]
    rfl

theorem length_waysFrom_cons :
    (waysFrom i last (u :: rest) x).length
      = ((i.linked u x).map fun y => (waysFrom i last rest y).length).sum := by
  rw [waysFrom, List.length_map, List.length_flatMap]

/-- Different beginnings are the beginnings of different ways. -/
theorem nodup_flatMap_waysFrom {ys : List Nat} (hys : ys.Nodup)
    (hways : ∀ y ∈ ys, (waysFrom i last rest y).Nodup) :
    (ys.flatMap (waysFrom i last rest)).Nodup := by
  refine List.nodup_flatMap.mpr ⟨hways, hys.imp fun {y z} hne xs hxs hxs' => hne ?_⟩
  exact Option.some.inj ((head?_of_mem_waysFrom hxs).symm.trans (head?_of_mem_waysFrom hxs'))

/-- The ways on from a data vertex are the sequences that begin with it and follow the
links. -/
theorem mem_waysFrom_iff (hstart : start < path.length) (hlast : path.getLast? = some last) :
    xs ∈ waysFrom i last (path.drop (start + 1)) x ↔ xs.head? = some x ∧ i.Leads path start xs := by
  generalize hrest : path.drop (start + 1) = rest
  induction rest generalizing start x xs with
  | nil =>
    have hend : start + 1 = path.length := by
      have := List.drop_eq_nil_iff.mp hrest
      omega
    rw [waysFrom]
    cases xs with
    | nil => simp
    | cons y ys =>
      rw [leads_last_iff hend hlast, List.head?_cons, Option.some_inj]
      split
      · rename_i hx
        rw [List.mem_singleton, List.cons.injEq]
        exact ⟨fun ⟨hy, hys⟩ => ⟨hy, hys, hy ▸ hx⟩, fun ⟨hy, hys, _⟩ => ⟨hy, hys⟩⟩
      · rename_i hx
        exact iff_of_false List.not_mem_nil fun ⟨hy, _, hmem⟩ => hx (hy ▸ hmem)
  | cons u rest ih =>
    have hu : path[start + 1]? = some u := by
      rw [← List.head?_drop, hrest]
      rfl
    have hlt : start + 1 < path.length := (List.getElem?_eq_some_iff.mp hu).1
    have hnext : path.drop (start + 1 + 1) = rest := by
      rw [← List.drop_drop, hrest]
      rfl
    have htail : ∀ {y ys}, ys ∈ waysFrom i last rest y
        ↔ ys.head? = some y ∧ i.Leads path (start + 1) ys := ih hlt hnext
    rw [mem_waysFrom_cons_iff]
    simp only [mem_linked_iff, htail]
    constructor
    · rintro ⟨y, hxy, ys, ⟨hy, hleads⟩, rfl⟩
      exact ⟨rfl, (leads_cons_iff hu).mpr ⟨⟨y, hy, hxy⟩, hleads⟩⟩
    · rintro ⟨hx, hleads⟩
      obtain ⟨ys, rfl⟩ := List.head?_eq_some_iff.mp hx
      obtain ⟨⟨y, hy, hxy⟩, hleads⟩ := (leads_cons_iff hu).mp hleads
      exact ⟨y, hxy, ys, ⟨hy, hleads⟩, rfl⟩

theorem nodup_waysFrom (i : Index) (last : Nat) (rest : List Nat) (x : Nat) :
    (waysFrom i last rest x).Nodup := by
  induction rest generalizing x with
  | nil =>
    rw [waysFrom]
    split
    · exact List.nodup_singleton _
    · exact List.nodup_nil
  | cons u rest ih =>
    have hways := nodup_flatMap_waysFrom ((i.linked_ascending u x).imp Nat.ne_of_lt)
      fun y _ => ih y
    exact hways.map List.cons_injective

theorem nodup_beginnings (i : Index) (last : Nat) (rest : List Nat) :
    (beginnings i last rest).Nodup := by
  cases rest with
  | nil => exact i.nodup_candidates last
  | cons u rest => exact i.nodup_keys u

theorem nodup_ways (i : Index) (last : Nat) (rest : List Nat) : (ways i last rest).Nodup :=
  nodup_flatMap_waysFrom (nodup_beginnings i last rest) fun x _ => nodup_waysFrom i last rest x

/-- The ways along a path are the sequences that follow the links. -/
theorem mem_ways_iff (hstart : start < path.length) (hlast : path.getLast? = some last) :
    xs ∈ ways i last (path.drop (start + 1)) ↔ i.Leads path start xs := by
  rw [ways, List.mem_flatMap]
  simp only [mem_waysFrom_iff hstart hlast]
  constructor
  · rintro ⟨x, -, -, h⟩
    exact h
  · intro h
    have hlength := h.length_eq
    obtain ⟨x, ys, rfl⟩ : ∃ x ys, xs = x :: ys := by
      refine List.exists_cons_of_ne_nil fun hnil => ?_
      rw [hnil, List.length_nil] at hlength
      omega
    refine ⟨x, ?_, rfl, h⟩
    -- Nothing leads on from anywhere else.
    by_contra hx
    have hway := (mem_waysFrom_iff hstart hlast).mpr ⟨rfl, h⟩
    rw [waysFrom_eq_nil hx] at hway
    cases hway

end Ways

end Index

/-! ## Weights along a path -/

section Weights

open Index

variable {i : Index} {path rest : List Nat} {last start : Nat}

/-- The weights with which a path is counted, behind its first vertex. -/
def weightsAlong (i : Index) (last : Nat) (rest : List Nat) : List (Nat × Nat) :=
  rest.foldr (fun u weights => weighLinks (i.links u) weights)
    ((i.candidates last).map fun y => (y, 1))

theorem pathEmbeddings_eq (hlast : path.getLast? = some last) :
    pathEmbeddings i path start
      = sumCapped ((weightsAlong i last (path.drop (start + 1))).map Prod.snd) := by
  rw [pathEmbeddings, hlast]
  rfl

/-- In a table of a function without its zeros, every value can be looked up. -/
theorem weightOf_filter_pos {f : Nat → Nat} {xs : List Nat} (hf : ∀ x, x ∉ xs → f x = 0) (y : Nat) :
    weightOf ((xs.map fun x => (x, f x)).filter fun e => 0 < e.2) y = f y := by
  unfold weightOf
  cases hfind : ((xs.map fun x => (x, f x)).filter fun e => 0 < e.2).find? fun e => e.1 = y with
  | some e =>
    obtain ⟨x, -, rfl⟩ := List.mem_map.mp (List.mem_of_mem_filter (List.mem_of_find?_eq_some hfind))
    have hxy : x = y := by simpa using List.find?_some hfind
    rw [hxy]
    rfl
  | none =>
    by_contra hne
    have hpos : 0 < f y := Nat.pos_of_ne_zero fun hzero => hne hzero.symm
    have hy : y ∈ xs := by
      by_contra hy
      rw [hf y hy] at hpos
      exact Nat.lt_irrefl 0 hpos
    have hmem : (y, f y) ∈ (xs.map fun x => (x, f x)).filter fun e => 0 < e.2 :=
      List.mem_filter.mpr ⟨List.mem_map_of_mem hy, decide_eq_true hpos⟩
    exact List.find?_eq_none.mp hfind _ hmem (decide_eq_true rfl)

/-- Behind any vertex of a path, a data vertex weighs as much as there are ways on from it, up
to the cap; without ways it has no weight. -/
theorem weightsAlong_eq (i : Index) (last : Nat) (rest : List Nat) :
    weightsAlong i last rest
      = ((beginnings i last rest).map fun x =>
          (x, min (waysFrom i last rest x).length Text.max64)).filter fun e => 0 < e.2 := by
  induction rest with
  | nil =>
    have hone : ∀ x ∈ i.candidates last,
        (x, min (waysFrom i last [] x).length Text.max64) = (x, 1) := by
      intro x hx
      rw [waysFrom, if_pos hx]
      rfl
    rw [beginnings, List.map_congr_left hone, List.filter_eq_self.mpr]
    · rfl
    · intro e he
      obtain ⟨x, -, rfl⟩ := List.mem_map.mp he
      rfl
  | cons u rest ih =>
    have hweight : ∀ y, weightOf (weightsAlong i last rest) y
        = min (waysFrom i last rest y).length Text.max64 := by
      rw [ih]
      refine weightOf_filter_pos fun x hx => ?_
      rw [waysFrom_eq_nil hx]
      rfl
    have hlinks : ∀ e ∈ i.links u,
        (e.1, sumCapped (e.2.map (weightOf (weightsAlong i last rest))))
          = (e.1, min (waysFrom i last (u :: rest) e.1).length Text.max64) := by
      intro e he
      rw [funext hweight, sumCapped_eq, min_sum_map_min, length_waysFrom_cons,
        linked_eq_of_mem he]
    change weighLinks (i.links u) (weightsAlong i last rest) = _
    rw [weighLinks, List.map_congr_left hlinks, beginnings, List.map_map]
    rfl

/-- The capped sum of the weights is the capped number of ways. -/
theorem sumCapped_weightsAlong (i : Index) (last : Nat) (rest : List Nat) :
    sumCapped ((weightsAlong i last rest).map Prod.snd)
      = min (ways i last rest).length Text.max64 := by
  rw [weightsAlong_eq, sumCapped_eq, sum_map_filter_pos, List.map_map, ways,
    List.length_flatMap]
  exact min_sum_map_min _ _ _

end Weights

/-- The number counted along a path is the number of sequences of data vertices that follow the
links from the given position to the end, or the largest number of 64 binary digits if there are
more of them.  A program that looks up every table with a check comes to the same number, if the
index knows the vertices of the path. -/
theorem pathEmbeddings_exact (i : Index) (path : List Nat) (start : Nat)
    (hstart : start < path.length) :
    (pathEmbeddings i path start : ℕ∞)
        = min {xs | i.Leads path start xs}.encard (2 ^ 64 - 1 : Nat)
      ∧ (start < Text.max64 → (∀ u ∈ path, u < i.candidateTable.size) →
          pathEmbeddings? i path start = some (pathEmbeddings i path start)) := by
  have hne : path ≠ [] := List.ne_nil_of_length_pos (Nat.zero_lt_of_lt hstart)
  have hlast : path.getLast? = some (path.getLast hne) := List.getLast?_eq_some_getLast hne
  constructor
  · have hways : {xs | i.Leads path start xs}
        = {xs | xs ∈ i.ways (path.getLast hne) (path.drop (start + 1))} :=
      Set.ext fun xs => (Index.mem_ways_iff hstart hlast).symm
    rw [pathEmbeddings_eq hlast, sumCapped_weightsAlong, hways,
      encard_setOf_mem (Index.nodup_ways i _ _)]
    exact Nat.mono_cast.map_min
  · intro hsmall hknown
    have hasked : ∀ u ∈ path.getLast?.toList ++ path.drop (start + 1),
        u < i.candidateTable.size := by
      intro u hu
      rcases List.mem_append.mp hu with hu | hu
      · rw [hlast, Option.toList_some, List.mem_singleton] at hu
        exact hu ▸ hknown _ (List.getLast_mem hne)
      · exact hknown u (List.mem_of_mem_drop hu)
    rw [pathEmbeddings?, if_neg (by simpa using hne), if_pos]
    rw [Bool.and_eq_true, List.all_eq_true]
    exact ⟨decide_eq_true hsmall, fun u hu => decide_eq_true (hasked u hu)⟩

/-- Two candidates, each linked to both. -/
def crossing : Index where
  candidateTable := #[[0, 1]]
  linkTable := #[[(0, [0, 1]), (1, [0, 1])]]
  candidateTable_ordered := by decide
  linkTable_ordered := by decide

/-- Along a path of seventy vertices with two choices each, the count ends at the cap. -/
theorem pathEmbeddings_exact_crossing :
    3 < (List.replicate 70 0).length
      ∧ (2 ^ 64 - 1 : Nat) ≤ {xs | crossing.Leads (List.replicate 70 0) 3 xs}.encard := by
  have hlength : 3 < (List.replicate 70 0).length := by decide
  have hcount : pathEmbeddings crossing (List.replicate 70 0) 3 = 2 ^ 64 - 1 := by decide +kernel
  obtain ⟨hexact, -⟩ := pathEmbeddings_exact crossing _ 3 hlength
  rw [hcount] at hexact
  exact ⟨hlength, min_eq_right_iff.mp hexact.symm⟩

end GraphDependency.Candidate
