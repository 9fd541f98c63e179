import GraphDependency.Pattern.Discovery
import GraphDependency.Proofs.Pattern.Forest
import GraphDependency.Proofs.Pattern.Tree

set_option autoImplicit false

/-!
# What a breadth-first search discovers

A search comes to the vertices of a level when it has seen all vertices that are nearer to
the root.  So the vertices that it finds are those of the next level, whatever the order of
the neighbors is; and as the vertices of a level are scanned in ascending order, each is
found by the lowest of its neighbors there.  Hence the search discovers the breadth-first
tree, in which the levels are the distances and every edge that is left out joins vertices
of one level or of two levels next to each other.

Main statements: `Agrees.meet` (what one step keeps), `scanned_foldl` (what a round sees),
`levelsFrom_spec` (what a search has seen in the end), and from them `discover_exact`.
-/

namespace GraphDependency.Pattern

open GraphDependency.Graph

namespace Tree

variable {g : Graph} {t : Tree} {root u w d : Nat} {level : List Nat}

/-- The level at a position is the set of vertices at that distance. -/
theorem mem_level_iff (ht : build? g root = some t) (hlevel : t.levels[d]? = some level) :
    u ∈ level ↔ g.AtDistance (· < g.size) root d u := by
  rw [← mem_levels_iff ht, hlevel]
  simp

theorem ne_nil_of_mem_levels (ht : build? g root = some t) (hlevel : level ∈ t.levels) :
    level ≠ [] := by
  have hspread : ∀ {depth : Nat} {frontier unseen : List Nat},
      level ∈ g.spread depth frontier unseen → level ≠ [] := by
    intro depth
    induction depth with
    | zero => exact fun h => absurd h List.not_mem_nil
    | succ depth ih =>
      intro frontier unseen h
      rw [spread] at h
      split at h
      · cases h
      · rename_i hne
        rcases List.mem_cons.mp h with rfl | h
        · rwa [List.isEmpty_iff] at hne
        · exact ih h
  rw [levels_eq ht] at hlevel
  rcases List.mem_cons.mp hlevel with rfl | h
  · exact List.cons_ne_nil _ _
  · exact hspread h

/-- A level with nothing further away is the last one. -/
theorem drop_levels_eq (ht : build? g root = some t) (hlevel : t.levels[d]? = some level)
    (hnone : ∀ c, ¬ g.AtDistance (· < g.size) root (d + 1) c) : t.levels.drop d = [level] := by
  obtain ⟨hlt, rfl⟩ := List.getElem?_eq_some_iff.mp hlevel
  rw [List.drop_eq_getElem_cons hlt, List.drop_eq_nil_of_le]
  by_contra hmore
  have hlt' : d + 1 < t.levels.length := by omega
  obtain ⟨c, hc⟩ := List.exists_mem_of_ne_nil _ (ne_nil_of_mem_levels ht (List.getElem_mem hlt'))
  exact hnone c ((mem_level_iff ht (List.getElem?_eq_getElem hlt')).mp hc)

theorem level_eq (ht : build? g root = some t) (h : g.AtDistance (· < g.size) root d u) :
    t.level u = d := by
  rw [level, levelIn, levels_eq ht, findIdx?_layers_eq_some_iff.mpr h, Option.getD_some]

/-- The parent is the first neighbor on the level above. -/
theorem parent?_eq_find? (ht : build? g root = some t)
    (h : g.AtDistance (· < g.size) root (d + 1) u) (hlevel : t.levels[d]? = some level) :
    t.parent? u = level.find? fun p => (g.neighbors u).contains p := by
  rw [levels_eq ht] at hlevel
  rw [parent?_eq ht, if_pos h.1.1, parentIn?, findIdx?_layers_eq_some_iff.mpr h]
  simp only [List.getD_eq_getElem?_getD, hlevel, Option.getD_some]

end Tree

namespace Discovery

variable {g : Graph} {t : Tree} {s : Discovery} {listing : Nat → List Nat}
  {root depth d u w : Nat} {level unseen : List Nat}

/-! ## What is written down -/

/-- What is known of the vertices seen so far is right, and nothing is known of others. -/
structure Agrees (t : Tree) (s : Discovery) : Prop where
  nodup_unseen : s.unseen.Nodup
  parents : ∀ u < t.pattern.size,
    s.parents[u]? = some (if u ∈ s.unseen then none else t.parent? u)
  size_parents : s.parents.size = t.pattern.size
  levelOf : ∀ u < t.pattern.size, s.levelOf[u]? = some (if u ∈ s.unseen then 0 else t.level u)
  children : ∀ u < t.pattern.size, ∃ list, s.children[u]? = some list ∧ list.Nodup
    ∧ ∀ w, w ∈ list ↔ w ∉ s.unseen ∧ t.parent? w = some u

/-- A vertex that is met for the first time gets its place in the tree. -/
theorem Agrees.meet (h : Agrees t s) (hparent : w ∈ s.unseen → t.parent? w = some u)
    (hlevel : w ∈ s.unseen → t.level w = depth) : Agrees t (s.meet depth u w) := by
  unfold Discovery.meet
  split
  · rename_i hcontains
    have hw : w ∈ s.unseen := List.contains_iff_mem.mp hcontains
    have herase : ∀ v, v ∈ s.unseen.erase w ↔ v ≠ w ∧ v ∈ s.unseen := fun v =>
      h.nodup_unseen.mem_erase_iff
    refine ⟨h.nodup_unseen.erase w, fun v hv => ?_, by simpa using h.size_parents,
      fun v hv => ?_, fun v hv => ?_⟩
    · rw [Array.getElem?_setIfInBounds, h.parents v hv, h.size_parents]
      by_cases heq : w = v
      · subst heq
        simp [hv, herase, hparent hw]
      · simp [heq, herase, Ne.symm heq]
    · have hsize : v < s.levelOf.size := (Array.getElem?_eq_some_iff.mp (h.levelOf v hv)).1
      rw [Array.getElem?_setIfInBounds, h.levelOf v hv]
      by_cases heq : w = v
      · subst heq
        simp [hsize, herase, hlevel hw]
      · simp [heq, herase, Ne.symm heq]
    · obtain ⟨list, hlist, hnodup, hmem⟩ := h.children v hv
      rw [Array.getElem?_modify, hlist]
      by_cases heq : u = v
      · subst heq
        refine ⟨list ++ [w], by simp, ?_, fun x => ?_⟩
        · exact List.nodup_append.mpr ⟨hnodup, List.nodup_singleton w, fun x hx y hy hxy =>
            ((hmem x).mp hx).1 (by rwa [hxy, List.mem_singleton.mp hy])⟩
        · rw [List.mem_append, List.mem_singleton, hmem, herase]
          by_cases hx : x = w
          · subst hx
            simp [hparent hw]
          · simp [hx]
      · refine ⟨list, by simp [heq], hnodup, fun x => ?_⟩
        rw [hmem, herase]
        by_cases hx : x = w
        · subst hx
          simp [hparent hw, hw, heq]
        · simp [hx]
  · exact h

/-! ## One round -/

/-- The edges that a round follows, one after the other. -/
def pairs (listing : Nat → List Nat) (level : List Nat) : List (Nat × Nat) :=
  level.flatMap fun u => (listing u).map fun w => (u, w)

theorem mem_map_snd_pairs :
    w ∈ (pairs listing level).map Prod.snd ↔ ∃ u ∈ level, w ∈ listing u := by
  simp [pairs]

theorem round_eq_foldl_pairs (listing : Nat → List Nat) (depth : Nat) (level : List Nat)
    (s : Discovery) :
    round listing depth level s
      = (pairs listing level).foldl (fun s e => s.meet depth e.1 e.2) { s with found := [] } := by
  rw [round, pairs, List.foldl_flatMap]
  congr 1
  funext s u
  rw [scan, List.foldl_map]

/-- The first edge to a vertex comes from the first vertex that is joined to it. -/
theorem find?_pairs (listing : Nat → List Nat) (level : List Nat) (w : Nat) :
    ((pairs listing level).find? fun e => e.2 = w).map Prod.fst
      = level.find? fun u => (listing u).contains w := by
  induction level with
  | nil => rfl
  | cons u level ih =>
    have hcons : pairs listing (u :: level)
        = ((listing u).map fun w => (u, w)) ++ pairs listing level := List.flatMap_cons
    rw [hcons, List.find?_append]
    by_cases hu : w ∈ listing u
    · obtain ⟨⟨u', w'⟩, hfind⟩ := Option.isSome_iff_exists.mp
        (List.find?_isSome (p := fun e : Nat × Nat => e.2 = w).mpr
          ⟨(u, w), List.mem_map.mpr ⟨w, hu, rfl⟩, decide_eq_true rfl⟩)
      obtain ⟨x, -, heq⟩ := List.mem_map.mp (List.mem_of_find?_eq_some hfind)
      cases heq
      have hfirst : (u :: level).find? (fun u => (listing u).contains w) = some u :=
        List.find?_cons_of_pos (List.contains_iff_mem.mpr hu)
      rw [hfind, hfirst]
      rfl
    · rw [List.find?_eq_none.mpr, List.find?_cons_of_neg (by simpa using hu), ← ih]
      · rfl
      · intro e he
        obtain ⟨x, hx, rfl⟩ := List.mem_map.mp he
        rw [decide_eq_true_eq]
        rintro rfl
        exact hu hx

/-- What a round has seen after some edges, when it began with the given unseen vertices. -/
structure Scanned (t : Tree) (unseen : List Nat) (done : List (Nat × Nat)) (s : Discovery) :
    Prop where
  agrees : Agrees t s
  mem_unseen : ∀ w, w ∈ s.unseen ↔ w ∈ unseen ∧ w ∉ done.map Prod.snd
  nodup_found : s.found.Nodup
  mem_found : ∀ w, w ∈ s.found ↔ w ∈ unseen ∧ w ∈ done.map Prod.snd

/-- An edge leads to a vertex seen before, or to one that it gives its place in the tree. -/
theorem Scanned.meet {done : List (Nat × Nat)} (h : Scanned t unseen done s)
    (hparent : w ∈ s.unseen → t.parent? w = some u) (hlevel : w ∈ s.unseen → t.level w = depth) :
    Scanned t unseen (done ++ [(u, w)]) (s.meet depth u w) := by
  have hdone : ∀ v, v ∈ (done ++ [(u, w)]).map Prod.snd ↔ v ∈ done.map Prod.snd ∨ v = w := by
    simp
  have hagrees := h.agrees.meet hparent hlevel
  unfold Discovery.meet at hagrees ⊢
  split at hagrees
  · rename_i hw
    obtain ⟨hunseen, hnew⟩ := (h.mem_unseen w).mp (List.contains_iff_mem.mp hw)
    rw [if_pos hw]
    refine ⟨hagrees, fun v => ?_, ?_, fun v => ?_⟩
    · rw [h.agrees.nodup_unseen.mem_erase_iff, h.mem_unseen, hdone]
      tauto
    · exact List.nodup_append.mpr ⟨h.nodup_found, List.nodup_singleton w, fun v hv x hx heq =>
        hnew (by rw [← List.mem_singleton.mp hx, ← heq]; exact ((h.mem_found v).mp hv).2)⟩
    · rw [List.mem_append, List.mem_singleton, h.mem_found, hdone]
      constructor
      · rintro (⟨hv, hin⟩ | rfl)
        · exact ⟨hv, Or.inl hin⟩
        · exact ⟨hunseen, Or.inr rfl⟩
      · tauto
  · rename_i hw
    -- The edge leads to a vertex seen before, so it says nothing new.
    have hold : ∀ v ∈ unseen, v ∈ (done ++ [(u, w)]).map Prod.snd ↔ v ∈ done.map Prod.snd := by
      intro v hv
      rw [hdone, or_iff_left_iff_imp]
      rintro rfl
      exact by_contra fun hnot => hw (List.contains_iff_mem.mpr ((h.mem_unseen v).mpr ⟨hv, hnot⟩))
    rw [if_neg hw]
    refine ⟨hagrees, fun v => ?_, h.nodup_found, fun v => ?_⟩
    · rw [h.mem_unseen]
      exact and_congr_right fun hv => not_congr (hold v hv).symm
    · rw [h.mem_found]
      exact and_congr_right fun hv => (hold v hv).symm

/-- If the first edge to every unseen vertex comes from its parent, a round gives everything
that it finds its place in the tree. -/
theorem scanned_foldl {edges : List (Nat × Nat)}
    (hparent : ∀ w ∈ unseen, w ∈ edges.map Prod.snd →
      t.parent? w = (edges.find? fun e => e.2 = w).map Prod.fst ∧ t.level w = depth)
    {done rest : List (Nat × Nat)} (heq : edges = done ++ rest) (h : Scanned t unseen done s) :
    Scanned t unseen edges (rest.foldl (fun s e => s.meet depth e.1 e.2) s) := by
  induction rest generalizing done s with
  | nil => rwa [heq, List.append_nil]
  | cons e rest ih =>
    obtain ⟨u, w⟩ := e
    have hw : w ∈ s.unseen → t.parent? w = some u ∧ t.level w = depth := by
      intro hw
      obtain ⟨hunseen, hdone⟩ := (h.mem_unseen w).mp hw
      obtain ⟨hfind, hlevel⟩ := hparent w hunseen (by rw [heq]; simp)
      refine ⟨?_, hlevel⟩
      have hnone : done.find? (fun e => e.2 = w) = none := by
        rw [List.find?_eq_none]
        intro e he heq
        exact hdone (List.mem_map.mpr ⟨e, he, of_decide_eq_true heq⟩)
      have hfirst : ((u, w) :: rest).find? (fun e => e.2 = w) = some (u, w) :=
        List.find?_cons_of_pos (decide_eq_true rfl)
      rw [hfind, heq, List.find?_append, hnone, hfirst]
      rfl
    exact ih (by rw [heq, List.append_assoc]; rfl)
      (h.meet (fun h => (hw h).1) fun h => (hw h).2)

/-! ## All rounds -/

section Search

variable (ht : Tree.build? g root = some t) (hlisting : ∀ u w, w ∈ listing u ↔ w ∈ g.neighbors u)

include ht hlisting

/-- A round that begins when everything up to a level is seen finds the next level. -/
theorem round_spec (hlevel : t.levels[d]? = some level) (h : Agrees t s)
    (hunseen : ∀ w, w ∈ s.unseen ↔ w < g.size ∧ ∀ k ≤ d, ¬ g.Walk (· < g.size) root k w) :
    Agrees t (round listing (d + 1) level s)
      ∧ (round listing (d + 1) level s).found.Nodup
      ∧ (∀ w, w ∈ (round listing (d + 1) level s).found
          ↔ g.AtDistance (· < g.size) root (d + 1) w)
      ∧ ∀ w, w ∈ (round listing (d + 1) level s).unseen
          ↔ w < g.size ∧ ∀ k ≤ d + 1, ¬ g.Walk (· < g.size) root k w := by
  have hfrontier := fun w => Tree.mem_level_iff (u := w) ht hlevel
  -- What the round comes to for the first time is further away by one.
  have hnext : ∀ w, w ∈ s.unseen ∧ w ∈ (pairs listing level).map Prod.snd
      ↔ g.AtDistance (· < g.size) root (d + 1) w := by
    intro w
    rw [mem_map_snd_pairs, ← mem_step_iff_atDistance hfrontier hunseen, mem_step_iff]
    simp only [hlisting, mem_neighbors_comm g (v := w)]
  have hscanned : Scanned t s.unseen (pairs listing level) (round listing (d + 1) level s) := by
    rw [round_eq_foldl_pairs]
    refine scanned_foldl (fun w hw hin => ?_) (List.nil_append _).symm
      ⟨⟨h.nodup_unseen, h.parents, h.size_parents, h.levelOf, h.children⟩, by simp,
        List.nodup_nil, by simp⟩
    have hat := (hnext w).mp ⟨hw, hin⟩
    refine ⟨?_, Tree.level_eq ht hat⟩
    rw [find?_pairs, Tree.parent?_eq_find? ht hat hlevel]
    congr 1
    funext p
    rw [Bool.eq_iff_iff, List.contains_iff_mem, List.contains_iff_mem, hlisting,
      mem_neighbors_comm]
  refine ⟨hscanned.agrees, hscanned.nodup_found, fun w => ?_, fun w => ?_⟩
  · rw [hscanned.mem_found, hnext]
  · rw [hscanned.mem_unseen]
    constructor
    · rintro ⟨hw, hnot⟩
      obtain ⟨hlt, hfar⟩ := (hunseen w).mp hw
      refine ⟨hlt, fun k hk hwalk => ?_⟩
      obtain rfl | hle : k = d + 1 ∨ k ≤ d := by omega
      · have hat := (hnext w).mpr ⟨hwalk, fun j hj => hfar j (by omega)⟩
        exact hnot hat.2
      · exact hfar k hle hwalk
    · rintro ⟨hlt, hfar⟩
      have hw := (hunseen w).mpr ⟨hlt, fun k hk => hfar k (by omega)⟩
      exact ⟨hw, fun hin => hfar (d + 1) (Nat.le_refl _) ((hnext w).mp ⟨hw, hin⟩).1⟩

/-- From a level on, a search finds the levels of the tree, and sees what can be reached. -/
theorem levelsFrom_spec (hlevel : t.levels[d]? = some level) (h : Agrees t s)
    (hunseen : ∀ w, w ∈ s.unseen ↔ w < g.size ∧ ∀ k ≤ d, ¬ g.Walk (· < g.size) root k w) :
    (levelsFrom listing (d + 1) level s).1 = t.levels.drop d
      ∧ Agrees t (levelsFrom listing (d + 1) level s).2
      ∧ ∀ w, w ∈ (levelsFrom listing (d + 1) level s).2.unseen
          ↔ w < g.size ∧ ∀ k, ¬ g.Walk (· < g.size) root k w := by
  generalize hdepth : d + 1 = depth
  fun_induction levelsFrom listing depth level s generalizing d with
  | case1 depth level s s' =>
    rename_i hfound
    subst hdepth
    obtain ⟨hagrees, -, hmem, hunseen'⟩ := round_spec ht hlisting hlevel h hunseen
    -- Nothing is further away than the last level.
    have hnone : ∀ c, ¬ g.AtDistance (· < g.size) root (d + 1) c := fun c hc =>
      List.ne_nil_of_mem ((hmem c).mpr hc) hfound
    refine ⟨(Tree.drop_levels_eq ht hlevel hnone).symm, hagrees, fun w => ?_⟩
    rw [hunseen']
    refine and_congr_right fun _ => ⟨fun hnear k hwalk => ?_, fun hnot k _ => hnot k⟩
    obtain ⟨j, hj, hwalk⟩ := hwalk.exists_lt hnone
    exact hnear j (by omega) hwalk
  | case2 depth level s s' hfound _ levels last heq =>
    rename_i ih
    subst hdepth
    obtain ⟨hagrees, hnodup, hmem, hunseen'⟩ := round_spec ht hlisting hlevel h hunseen
    obtain ⟨w, hw⟩ := List.exists_mem_of_ne_nil _ hfound
    obtain ⟨next, hnext, -⟩ := (Tree.mem_levels_iff ht).mpr ((hmem w).mp hw)
    have hsort : s'.found.mergeSort = next :=
      mergeSort_eq hnodup (Tree.pairwise_of_mem_levels ht (List.mem_of_getElem? hnext))
        fun x => (hmem x).trans (Tree.mem_level_iff ht hnext).symm
    have hrest := ih (by rw [hsort]; exact hnext) hagrees hunseen' rfl
    rw [heq] at hrest
    obtain ⟨hlevels, hrest⟩ := hrest
    refine ⟨?_, hrest⟩
    obtain ⟨hlt, rfl⟩ := List.getElem?_eq_some_iff.mp hlevel
    rw [List.drop_eq_getElem_cons hlt, ← hlevels]

end Search

end Discovery

namespace Tree

variable {g : Graph} {t : Tree} {listing : Nat → List Nat} {root p q u w d : Nat}

/-! ## The tables -/

/-- Before the search nothing is known but the root. -/
theorem agrees_start (ht : build? g root = some t) : Discovery.Agrees t (.start g root) := by
  have hpattern := pattern_eq ht
  have hunseen : ∀ u, u ∈ (Discovery.start g root).unseen ↔ u < g.size ∧ u ≠ root := by
    simp [Discovery.start]
  have hroot : t.level root = 0 := level_eq ht (atDistance_zero_iff.mpr rfl)
  refine ⟨g.nodup_ids.filter _, fun u hu => ?_, by simp [Discovery.start, hpattern],
    fun u hu => ?_, fun u hu => ⟨[], ?_, List.nodup_nil, fun w => ?_⟩⟩
  · simp only [hunseen]
    rw [hpattern] at hu
    by_cases h : u = root
    · subst h
      simp [Discovery.start, hu, parent?_root ht]
    · simp [Discovery.start, hu, h]
  · simp only [hunseen]
    rw [hpattern] at hu
    by_cases h : u = root
    · subst h
      simp [Discovery.start, hu, hroot]
    · simp [Discovery.start, hu, h]
  · rw [hpattern] at hu
    simp [Discovery.start, hu]
  · refine ⟨fun h => absurd h List.not_mem_nil, fun ⟨hseen, hparent⟩ => ?_⟩
    refine absurd ((hunseen w).mpr ⟨(parent?_lt_size ht hparent).2, ?_⟩) hseen
    rintro rfl
    rw [parent?_root ht] at hparent
    cases hparent

theorem getElem?_parents (ht : build? g root = some t) (hu : u < g.size) :
    t.parents[u]? = some (t.parent? u) := by
  have hsize : t.parents.size = g.size := by
    rw [(build?_eq_some_iff.mp ht).2, Array.size_ofFn]
  rw [parent?, Array.getElem?_eq_getElem (by rwa [hsize]), Option.join_some]

/-- The tables that a search fills are those of the breadth-first tree, whatever the order
of the neighbors. -/
theorem discover_eq (ht : build? g root = some t) (hconn : g.isConnected = true)
    (hlisting : ∀ u w, w ∈ listing u ↔ w ∈ g.neighbors u) :
    let tables := discover g listing root
    tables.root = root ∧ tables.levels = t.levels ∧ tables.parents = t.parents
      ∧ (∀ u < g.size, tables.levelOf[u]? = some (t.level u)
          ∧ tables.children[u]? = some (t.children u))
      ∧ tables.nonTree = t.nonTreeEdges := by
  have hroot : t.levels[0]? = some [root] := by
    rw [levels_eq ht]
    rfl
  obtain ⟨hlevels, hagrees, hunseen⟩ := Discovery.levelsFrom_spec ht hlisting hroot
    (agrees_start ht) (by simp [Discovery.start, Walk])
  unfold discover
  generalize Discovery.levelsFrom listing 1 [root] (.start g root) = search at *
  obtain ⟨levels, s⟩ := search
  obtain rfl := pattern_eq ht
  -- A connected pattern is seen as a whole.
  have hseen : ∀ w < t.pattern.size, w ∉ s.unseen := by
    intro w hw hin
    obtain ⟨n, hn⟩ := isConnected_iff.mp hconn root (root_lt ht) w hw
    exact ((hunseen w).mp hin).2 n hn
  have hparents : s.parents = t.parents := by
    refine Array.ext_getElem? fun u => ?_
    by_cases hu : u < t.pattern.size
    · rw [hagrees.parents u hu, if_neg (hseen u hu), getElem?_parents ht hu]
    · rw [Array.getElem?_eq_none (by rw [hagrees.size_parents]; omega), Array.getElem?_eq_none]
      rw [(build?_eq_some_iff.mp ht).2, Array.size_ofFn]
      omega
  refine ⟨rfl, hlevels, hparents, fun u hu => ⟨?_, ?_⟩, ?_⟩
  · rw [hagrees.levelOf u hu, if_neg (hseen u hu)]
  · obtain ⟨list, hlist, hnodup, hmem⟩ := hagrees.children u hu
    rw [Array.getElem?_map, hlist, Option.map_some]
    congr 1
    refine mergeSort_eq hnodup ((pairwise_ids _).filter _) fun w => ?_
    rw [hmem, mem_children_iff ht, and_iff_right_iff_imp]
    exact fun hw => hseen w (parent?_lt_size ht hw).2
  · simp only [nonTreeEdges, List.filter_map, hparents]
    congr 2
    funext e
    simp only [isTreeEdge, Function.comp_apply, Bool.not_or]
    rfl

/-! ## Levels and parents -/

section Connected

variable (ht : build? g root = some t) (hconn : g.isConnected = true)

include ht hconn

/-- The level of a vertex is its distance from the root. -/
theorem atDistance_level (hu : u < g.size) : g.AtDistance (· < g.size) root (t.level u) u := by
  obtain ⟨n, hn⟩ := isConnected_iff.mp hconn root (root_lt ht) u hu
  obtain ⟨d, -, hd⟩ := Walk.exists_atDistance hn
  rwa [level_eq ht hd]

/-- No neighbor of a vertex is further from the root by more than one. -/
theorem level_le_succ (hw : w ∈ g.neighbors u) : t.level w ≤ t.level u + 1 := by
  have hlt := g.lt_size_of_mem_neighbors hw
  have hu := g.lt_size_of_mem_neighbors ((mem_neighbors_comm g).mp hw)
  by_contra hfar
  exact (atDistance_level ht hconn hlt).2 (t.level u + 1) (by omega)
    ⟨hlt, u, (atDistance_level ht hconn hu).1, hw⟩

/-- The parent of a vertex is the lowest of its neighbors that are nearer to the root. -/
theorem exists_parent?_least (hu : u < g.size) (hne : u ≠ root) :
    ∃ p, t.parent? u = some p ∧ p ∈ g.neighbors u ∧ t.level p + 1 = t.level u
      ∧ ∀ q ∈ g.neighbors u, t.level q + 1 = t.level u → p ≤ q := by
  obtain ⟨p, hp⟩ := Option.ne_none_iff_exists'.mp
    (mt (parent?_eq_none_iff ht hconn hu).mp hne)
  obtain ⟨hmem, d, hdp, hdu⟩ := parent?_eq_some ht hp
  refine ⟨p, hp, hmem, by rw [level_eq ht hdp, level_eq ht hdu], fun q hq hlevel => ?_⟩
  have hdq : g.AtDistance (· < g.size) root d q := by
    have := atDistance_level ht hconn (g.lt_size_of_mem_neighbors hq)
    rwa [show t.level q = d by rw [level_eq ht hdu] at hlevel; omega] at this
  obtain ⟨level, hl, hqmem⟩ := (mem_levels_iff ht).mpr hdq
  rw [parent?_eq_find? ht hdu hl] at hp
  obtain ⟨-, as, bs, rfl, hbefore⟩ := List.find?_eq_some_iff_append.mp hp
  rcases List.mem_append.mp hqmem with hin | hin
  · have hnot := hbefore q hin
    rw [Bool.not_eq_true', List.contains_eq_mem, decide_eq_false_iff_not] at hnot
    exact absurd hq hnot
  · rcases List.mem_cons.mp hin with rfl | hin
    · exact Nat.le_refl _
    · have hsorted := (List.pairwise_append.mp
        (pairwise_of_mem_levels ht (List.mem_of_getElem? hl))).2.1
      exact Nat.le_of_lt (List.rel_of_pairwise_cons hsorted hin)

end Connected

/-! ## The edges of the tree -/

/-- The end of an edge of the tree that has the other one as its parent. -/
def childEnd (t : Tree) (e : Edge) : Nat :=
  if t.parent? e.first = some e.second then e.first else e.second

theorem exists_joins_childEnd {e : Edge} (h : t.isTreeEdge e.first e.second = true) :
    ∃ p, t.parent? (t.childEnd e) = some p ∧ e.Joins (t.childEnd e) p := by
  unfold childEnd
  split
  · rename_i hp
    exact ⟨e.second, hp, Or.inl ⟨rfl, rfl⟩⟩
  · rename_i hp
    exact ⟨e.first, (isTreeEdge_iff.mp h).resolve_left hp, Or.inr ⟨rfl, rfl⟩⟩

/-- Every vertex but the root is at the lower end of one edge of the tree. -/
theorem perm_map_childEnd (ht : build? g root = some t) (hconn : g.isConnected = true) :
    ((g.edges.toList.filter fun e => t.isTreeEdge e.first e.second).map t.childEnd).Perm
      (g.ids.erase root) := by
  have hnodup :
      ((g.edges.toList.filter fun e => t.isTreeEdge e.first e.second).map t.childEnd).Nodup := by
    rw [List.Nodup, List.pairwise_map]
    refine (g.simple.filter _).imp_of_mem fun {e f} he hf hnot heq => hnot ?_
    obtain ⟨p, hp, hep⟩ := exists_joins_childEnd (List.mem_filter.mp he).2
    obtain ⟨q, hq, hfq⟩ := exists_joins_childEnd (List.mem_filter.mp hf).2
    rw [heq] at hp hep
    obtain rfl : p = q := Option.some.inj (hp.symm.trans hq)
    exact hep.trans_endpoints hfq
  rw [List.perm_ext_iff_of_nodup hnodup (g.nodup_ids.erase _)]
  intro u
  rw [g.nodup_ids.mem_erase_iff, mem_ids, List.mem_map]
  constructor
  · rintro ⟨e, he, rfl⟩
    obtain ⟨p, hp, -⟩ := exists_joins_childEnd (List.mem_filter.mp he).2
    refine ⟨fun heq => ?_, (parent?_lt_size ht hp).2⟩
    rw [heq, parent?_root ht] at hp
    cases hp
  · rintro ⟨hne, hu⟩
    obtain ⟨p, hp⟩ := Option.ne_none_iff_exists'.mp
      (mt (parent?_eq_none_iff ht hconn hu).mp hne)
    obtain ⟨hmem, d, hdp, hdu⟩ := parent?_eq_some ht hp
    obtain ⟨e, he, hjoins⟩ := (mem_neighbors_iff g).mp hmem
    refine ⟨e, List.mem_filter.mpr ⟨Array.mem_toList_iff.mpr he, ?_⟩, ?_⟩
    · rw [isTreeEdge_iff]
      rcases hjoins with ⟨h₁, h₂⟩ | ⟨h₁, h₂⟩
      · exact Or.inl (by rw [h₁, h₂, hp])
      · exact Or.inr (by rw [h₁, h₂, hp])
    · unfold childEnd
      rcases hjoins with ⟨h₁, h₂⟩ | ⟨h₁, h₂⟩
      · rw [h₁, h₂, if_pos hp]
      · rw [h₁, h₂, if_neg (parent?_ne_some ht (Nat.le_succ d) hdp hdu)]

theorem length_nonTreeEdges (ht : build? g root = some t) (hconn : g.isConnected = true) :
    t.nonTreeEdges.length + g.size = g.edgeCount + 1 := by
  have htree := (perm_map_childEnd ht hconn).length_eq
  rw [List.length_map, List.length_erase_of_mem ((mem_ids g).mpr (root_lt ht)), ids,
    List.length_range] at htree
  have hpos := root_lt ht
  have hall := List.length_eq_length_filter_add (l := g.edges.toList)
    fun e => t.isTreeEdge e.first e.second
  have hout : t.nonTreeEdges.length
      = (g.edges.toList.filter fun e => !t.isTreeEdge e.first e.second).length := by
    rw [nonTreeEdges, List.filter_map, List.length_map, pattern_eq ht]
    rfl
  rw [edgeCount, ← Array.length_toList]
  omega

end Tree

/-- What a breadth-first search of a connected pattern comes to, whatever the order of the
neighbors is in which it looks at them. -/
theorem discover_exact (g : Graph) (hconn : g.isConnected = true) (root : Nat)
    (hroot : root < g.size) (listing : Nat → List Nat)
    (hlisting : ∀ u w, w ∈ listing u ↔ w ∈ g.neighbors u) :
    ∃ t, Tree.build? g root = some t
      ∧ (let tables := discover g listing root
        tables.root = root ∧ tables.levels = t.levels ∧ tables.parents = t.parents
          ∧ (∀ u < g.size, tables.levelOf[u]? = some (t.level u)
              ∧ tables.children[u]? = some (t.children u))
          ∧ tables.nonTree = t.nonTreeEdges)
      ∧ t.levels.flatten.Perm g.ids
      ∧ (∀ level ∈ t.levels, level ≠ [] ∧ level.Pairwise (· < ·))
      ∧ (∀ u < g.size, g.AtDistance (· < g.size) root (t.level u) u
          ∧ ∀ d, (∃ level, t.levels[d]? = some level ∧ u ∈ level) ↔ d = t.level u)
      ∧ t.parent? root = none
      ∧ (∀ u < g.size, u ≠ root → ∃ p, t.parent? u = some p ∧ p ∈ g.neighbors u
          ∧ t.level p + 1 = t.level u
          ∧ ∀ q ∈ g.neighbors u, t.level q + 1 = t.level u → p ≤ q)
      ∧ (∀ u, (t.children u).Pairwise (· < ·) ∧ ∀ w, w ∈ t.children u ↔ t.parent? w = some u)
      ∧ (∀ e ∈ g.edges, ((e.first, e.second) ∈ t.nonTreeEdges
            ↔ t.isTreeEdge e.first e.second = false)
          ∧ t.level e.first ≤ t.level e.second + 1 ∧ t.level e.second ≤ t.level e.first + 1)
      ∧ t.nonTreeEdges.length + g.size = g.edgeCount + 1 := by
  obtain ⟨t, ht⟩ : ∃ t, Tree.build? g root = some t := ⟨_, if_pos hroot⟩
  refine ⟨t, ht, Tree.discover_eq ht hconn hlisting, ?_, fun level hl =>
    ⟨Tree.ne_nil_of_mem_levels ht hl, Tree.pairwise_of_mem_levels ht hl⟩, fun u hu =>
    ⟨Tree.atDistance_level ht hconn hu, fun d => ?_⟩, Tree.parent?_root ht,
    fun u hu hne => Tree.exists_parent?_least ht hconn hu hne, fun u => ⟨?_, fun w =>
    Tree.mem_children_iff ht⟩, fun e he => ⟨?_, ?_⟩, Tree.length_nonTreeEdges ht hconn⟩
  · rw [List.perm_ext_iff_of_nodup (Tree.nodup_flatten_levels ht) g.nodup_ids]
    exact fun u => (Tree.mem_flatten_levels ht hconn).trans (mem_ids g).symm
  · rw [Tree.mem_levels_iff ht]
    constructor
    · exact fun h => (Tree.level_eq ht h).symm
    · rintro rfl
      exact Tree.atDistance_level ht hconn hu
  · exact (pairwise_ids _).filter _
  · obtain rfl := Tree.pattern_eq ht
    rw [Tree.nonTreeEdges, List.mem_filter, Bool.not_eq_true', and_iff_right_iff_imp]
    exact fun _ => List.mem_map.mpr ⟨e, Array.mem_toList_iff.mpr he, rfl⟩
  · have hmem : e.second ∈ g.neighbors e.first :=
      (mem_neighbors_iff g).mpr ⟨e, he, Or.inl ⟨rfl, rfl⟩⟩
    exact ⟨Tree.level_le_succ ht hconn ((mem_neighbors_comm g).mp hmem),
      Tree.level_le_succ ht hconn hmem⟩

example : (discover tadpole tadpole.neighbors 3).levels = [[3], [2, 4], [0, 1]] := by cbv

/-- From the middle of its tail, with the neighbors in reverse order, the tadpole is searched
as well, and one edge of its triangle is left out. -/
theorem discover_exact_tadpole : tadpole.isConnected = true ∧ 3 < tadpole.size
    ∧ (∀ u w, w ∈ (tadpole.neighbors u).reverse ↔ w ∈ tadpole.neighbors u)
    ∧ ∃ t, Tree.build? tadpole 3 = some t
      ∧ (discover tadpole (fun u => (tadpole.neighbors u).reverse) 3).levels = t.levels
      ∧ t.nonTreeEdges.length = 1 := by
  have hconn : tadpole.isConnected = true := by decide
  have hroot : 3 < tadpole.size := by decide
  have hlisting : ∀ u w, w ∈ (tadpole.neighbors u).reverse ↔ w ∈ tadpole.neighbors u :=
    fun _ _ => List.mem_reverse
  obtain ⟨t, ht, ⟨-, hlevels, -⟩, -, -, -, -, -, -, -, hcount⟩ :=
    discover_exact tadpole hconn 3 hroot _ hlisting
  exact ⟨hconn, hroot, hlisting, t, ht, hlevels, Nat.add_right_cancel hcount⟩

end GraphDependency.Pattern
