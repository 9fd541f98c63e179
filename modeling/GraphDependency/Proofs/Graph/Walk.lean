import GraphDependency.Graph.Reach
import GraphDependency.Proofs.Graph.Adjacency
import Mathlib.Data.List.Nodup
import Mathlib.Data.List.Perm.Subperm

set_option autoImplicit false

/-!
# Walks and distances

A walk goes from vertex to vertex along edges and, after its start, stays inside
a set of vertices.  The distance of a vertex is the length of a shortest walk to
it.  A breadth-first search finds in its `i`-th layer exactly the vertices at
distance `i`.

Main statements: `mem_spread_iff` (what one layer of a search contains),
`mem_layers_iff`, `mem_reachable_iff`, and `isConnected_iff`, a graph is connected
if any two of its vertices are joined by a walk.
-/

namespace GraphDependency.Graph

/-- A walk of `n` steps from `a`, all of whose later vertices lie inside. -/
def Walk (g : Graph) (inside : Nat → Prop) (a : Nat) : Nat → Nat → Prop
  | 0, b => b = a
  | n + 1, b => inside b ∧ ∃ c, Walk g inside a n c ∧ b ∈ g.neighbors c

/-- A walk of `n` steps through the graph. -/
def Hops (g : Graph) (a n b : Nat) : Prop := g.Walk (· < g.size) a n b

/-- The shortest walk has `n` steps. -/
def AtDistance (g : Graph) (inside : Nat → Prop) (a n b : Nat) : Prop :=
  g.Walk inside a n b ∧ ∀ k < n, ¬ g.Walk inside a k b

variable {g : Graph} {inside : Nat → Prop} {a b c m n : Nat}

/-! ## Walks -/

theorem Walk.inside_of_ne (h : g.Walk inside a n b) (hne : b ≠ a) : inside b := by
  cases n with
  | zero => exact absurd h hne
  | succ n => exact h.1

/-- A walk stays inside what is reached by walks of its kind. -/
theorem Walk.imp {inside' : Nat → Prop} (h : g.Walk inside a n b)
    (himp : ∀ k u, g.Walk inside a k u → inside' u) : g.Walk inside' a n b := by
  induction n generalizing b with
  | zero => exact h
  | succ n ih =>
    obtain ⟨-, c, hc, hcb⟩ := id h
    exact ⟨himp (n + 1) b h, c, ih hc, hcb⟩

theorem Walk.trans (h : g.Walk inside a m b) (h' : g.Walk inside b n c) :
    g.Walk inside a (m + n) c := by
  induction n generalizing c with
  | zero =>
    cases h'
    exact h
  | succ n ih =>
    obtain ⟨hc, d, hd, hdc⟩ := h'
    exact ⟨hc, d, ih hd, hdc⟩

theorem Hops.lt_size (h : g.Hops a n b) (ha : a < g.size) : b < g.size := by
  by_cases hne : b = a
  · rwa [hne]
  · have hwalk : g.Walk (· < g.size) a n b := h
    exact hwalk.inside_of_ne hne

theorem Hops.of_mem_neighbors (h : b ∈ g.neighbors a) : g.Hops a 1 b :=
  ⟨g.lt_size_of_mem_neighbors h, a, rfl, h⟩

theorem Hops.trans (h : g.Hops a m b) (h' : g.Hops b n c) : g.Hops a (m + n) c :=
  Walk.trans h h'

/-- A walk can be gone backwards. -/
theorem Hops.symm (h : g.Hops a n b) : g.Hops b n a := by
  induction n generalizing b with
  | zero => exact Eq.symm h
  | succ n ih =>
    obtain ⟨-, c, hc, hcb⟩ := h
    have hback : g.Hops b 1 c := Hops.of_mem_neighbors ((mem_neighbors_comm g).mp hcb)
    have := hback.trans (ih hc)
    rwa [Nat.add_comm] at this

/-- A walk that leaves a set of vertices has a step that leads out of it. -/
theorem Hops.exists_leaving (inside : Nat → Prop) (h : g.Hops a n b) (ha : inside a)
    (hb : ¬ inside b) : ∃ c d, inside c ∧ ¬ inside d ∧ d ∈ g.neighbors c := by
  induction n generalizing b with
  | zero =>
    cases h
    exact absurd ha hb
  | succ n ih =>
    obtain ⟨-, c, hc, hcb⟩ := h
    by_cases hinside : inside c
    · exact ⟨c, b, hinside, hb, hcb⟩
    · exact ih hc hinside

/-! ## Distances -/

theorem Walk.exists_atDistance (h : g.Walk inside a n b) :
    ∃ d ≤ n, g.AtDistance inside a d b := by
  induction n using Nat.strongRecOn with
  | ind n ih =>
    by_cases hk : ∃ k < n, g.Walk inside a k b
    · obtain ⟨k, hlt, hw⟩ := hk
      obtain ⟨d, hd, hat⟩ := ih k hlt hw
      exact ⟨d, by omega, hat⟩
    · exact ⟨n, Nat.le_refl n, h, fun k hlt hw => hk ⟨k, hlt, hw⟩⟩

theorem AtDistance.unique (h : g.AtDistance inside a m b) (h' : g.AtDistance inside a n b) :
    m = n := by
  rcases Nat.lt_trichotomy m n with hlt | heq | hgt
  · exact absurd h.1 (h'.2 m hlt)
  · exact heq
  · exact absurd h'.1 (h.2 n hgt)

/-- A vertex that is not the start has a neighbor that is nearer by one. -/
theorem AtDistance.pred (h : g.AtDistance inside a (n + 1) b) :
    inside b ∧ ∃ c, g.AtDistance inside a n c ∧ b ∈ g.neighbors c := by
  obtain ⟨⟨hb, c, hc, hcb⟩, hmin⟩ := h
  refine ⟨hb, c, ⟨hc, fun k hk hw => ?_⟩, hcb⟩
  exact hmin (k + 1) (by omega) ⟨hb, c, hw, hcb⟩

/-- On the way to a vertex every smaller distance occurs. -/
theorem AtDistance.exists_of_le (h : g.AtDistance inside a n b) (hle : m ≤ n) :
    ∃ c, g.AtDistance inside a m c := by
  induction n generalizing b with
  | zero => exact ⟨b, by rwa [Nat.le_zero.mp hle]⟩
  | succ n ih =>
    by_cases heq : m = n + 1
    · exact ⟨b, by rwa [heq]⟩
    · obtain ⟨-, c, hc, -⟩ := h.pred
      exact ih hc (by omega)

/-- If nothing is at a distance, all walks lead nearer. -/
theorem Walk.exists_lt (h : g.Walk inside a n b) (hnone : ∀ c, ¬ g.AtDistance inside a m c) :
    ∃ k < m, g.Walk inside a k b := by
  obtain ⟨k, -, hat⟩ := h.exists_atDistance
  refine ⟨k, ?_, hat.1⟩
  by_contra hge
  obtain ⟨c, hc⟩ := hat.exists_of_le (Nat.le_of_not_lt hge)
  exact hnone c hc

/-- No distance exceeds the number of vertices inside. -/
theorem AtDistance.le_length (h : g.AtDistance inside a n b) {all : List Nat}
    (hall : ∀ w, inside w → w ∈ all) : n ≤ all.length := by
  -- The vertices on the way are pairwise different, since their distances are.
  have hway : ∃ way : List Nat, way.Nodup ∧ way.length = n
      ∧ ∀ w ∈ way, inside w ∧ ∃ k, k ≤ n ∧ g.AtDistance inside a k w := by
    induction n generalizing b with
    | zero => exact ⟨[], List.nodup_nil, rfl, by simp⟩
    | succ n ih =>
      obtain ⟨hb, c, hc, -⟩ := h.pred
      obtain ⟨way, hnodup, hlen, hmem⟩ := ih hc
      refine ⟨b :: way, List.nodup_cons.mpr ⟨fun hin => ?_, hnodup⟩, by simp [hlen], ?_⟩
      · obtain ⟨-, k, hk, hat⟩ := hmem b hin
        have := h.unique hat
        omega
      · intro w hw
        rcases List.mem_cons.mp hw with rfl | hw
        · exact ⟨hb, n + 1, Nat.le_refl _, h⟩
        · obtain ⟨hin, k, hk, hat⟩ := hmem w hw
          exact ⟨hin, k, by omega, hat⟩
  obtain ⟨way, hnodup, hlen, hmem⟩ := hway
  have hsub : way ⊆ all := fun w hw => hall w (hmem w hw).1
  rw [← hlen]
  exact (hnodup.subperm hsub).length_le

/-! ## Layers -/

/-- The next layer of a search consists of the vertices that are further away by
one. -/
theorem mem_step_iff_atDistance {d w : Nat} {frontier unseen : List Nat}
    (hfrontier : ∀ w, w ∈ frontier ↔ g.AtDistance inside a d w)
    (hunseen : ∀ w, w ∈ unseen ↔ inside w ∧ ∀ k ≤ d, ¬ g.Walk inside a k w) :
    w ∈ g.step frontier unseen ↔ g.AtDistance inside a (d + 1) w := by
  rw [mem_step_iff, hunseen]
  constructor
  · rintro ⟨⟨hw, hfar⟩, u, hu, huw⟩
    have hwalk := ((hfrontier u).mp hu).1
    exact ⟨⟨hw, u, hwalk, (mem_neighbors_comm g).mp huw⟩, fun k hk => hfar k (by omega)⟩
  · intro h
    obtain ⟨hw, u, hu, huw⟩ := h.pred
    refine ⟨⟨hw, fun k hk => h.2 k (by omega)⟩, u, (hfrontier u).mpr hu, ?_⟩
    exact (mem_neighbors_comm g).mp huw

/-- What a layer of a search contains: the vertices at its distance. -/
theorem mem_spread_iff {d depth i w : Nat} {frontier unseen : List Nat}
    (hfrontier : ∀ w, w ∈ frontier ↔ g.AtDistance inside a d w)
    (hunseen : ∀ w, w ∈ unseen ↔ inside w ∧ ∀ k ≤ d, ¬ g.Walk inside a k w) :
    (∃ layer, (g.spread depth frontier unseen)[i]? = some layer ∧ w ∈ layer)
      ↔ i < depth ∧ g.AtDistance inside a (d + 1 + i) w := by
  induction depth generalizing d i frontier unseen with
  | zero => simp [spread]
  | succ depth ih =>
    have hnext := fun w => mem_step_iff_atDistance (w := w) hfrontier hunseen
    rw [spread]
    split
    · rename_i hempty
      rw [List.isEmpty_iff] at hempty
      simp only [List.getElem?_nil, reduceCtorEq, false_and, exists_false, false_iff, not_and]
      intro _ h
      obtain ⟨c, hc⟩ := h.exists_of_le (m := d + 1) (by omega)
      have := (hnext c).mpr hc
      simp [hempty] at this
    · cases i with
      | zero => simp [hnext]
      | succ i =>
        rw [List.getElem?_cons_succ, ih hnext]
        · rw [show d + 1 + (i + 1) = d + 1 + 1 + i by omega]
          exact and_congr_left' (by omega)
        · intro w
          rw [List.mem_filter, hunseen, Bool.not_eq_true', List.contains_eq_mem,
            decide_eq_false_iff_not, hnext]
          constructor
          · rintro ⟨⟨hw, hfar⟩, hne⟩
            refine ⟨hw, ?_⟩
            intro k hk hwalk
            by_cases heq : k = d + 1
            · subst heq
              exact hne ⟨hwalk, fun j hj => hfar j (by omega)⟩
            · exact hfar k (by omega) hwalk
          · rintro ⟨hw, hfar⟩
            exact ⟨⟨hw, fun k hk => hfar k (by omega)⟩, fun hat => hfar _ (Nat.le_refl _) hat.1⟩

theorem atDistance_zero_iff : g.AtDistance inside a 0 b ↔ b = a :=
  ⟨fun h => h.1, fun h => ⟨h, fun k hk => absurd hk (Nat.not_lt_zero k)⟩⟩

/-- The layer `i` around a vertex contains the vertices at distance `i`. -/
theorem mem_layersWithin_iff {depth start i w : Nat} :
    (∃ layer, (g.layersWithin depth start)[i]? = some layer ∧ w ∈ layer)
      ↔ i ≤ depth ∧ g.AtDistance (· < g.size) start i w := by
  cases i with
  | zero => simp [layersWithin, atDistance_zero_iff]
  | succ i =>
    have hfrontier : ∀ w, w ∈ [start] ↔ g.AtDistance (· < g.size) start 0 w := by
      simp [atDistance_zero_iff]
    have hunseen : ∀ w, w ∈ g.ids.filter (· != start)
        ↔ w < g.size ∧ ∀ j ≤ 0, ¬ g.Walk (· < g.size) start j w := by
      intro w
      simp only [List.mem_filter, mem_ids, bne_iff_ne, ne_eq, Nat.le_zero, forall_eq]
      exact Iff.rfl
    rw [layersWithin, List.getElem?_cons_succ, mem_spread_iff hfrontier hunseen,
      show 0 + 1 + i = i + 1 by omega]
    exact and_congr_left' (by omega)

/-- All distances occur among the layers. -/
theorem mem_layers_iff {start i w : Nat} :
    (∃ layer, (g.layers start)[i]? = some layer ∧ w ∈ layer)
      ↔ g.AtDistance (· < g.size) start i w := by
  rw [layers, mem_layersWithin_iff, and_iff_right_iff_imp]
  intro h
  have := h.le_length fun w hw => (mem_ids g).mpr hw
  simpa [ids] using this

theorem mem_flatten_layersWithin_iff {depth start w : Nat} :
    w ∈ (g.layersWithin depth start).flatten ↔ ∃ n ≤ depth, g.Hops start n w := by
  rw [List.mem_flatten]
  constructor
  · rintro ⟨layer, hl, hw⟩
    obtain ⟨i, hi⟩ := List.mem_iff_getElem?.mp hl
    obtain ⟨hle, hat⟩ := mem_layersWithin_iff.mp ⟨layer, hi, hw⟩
    exact ⟨i, hle, hat.1⟩
  · rintro ⟨n, hn, hw⟩
    obtain ⟨d, hd, hat⟩ := Walk.exists_atDistance hw
    obtain ⟨layer, hl, hmem⟩ := mem_layersWithin_iff.mpr ⟨Nat.le_trans hd hn, hat⟩
    exact ⟨layer, List.mem_iff_getElem?.mpr ⟨d, hl⟩, hmem⟩

theorem mem_ball_iff {radius center w : Nat} :
    w ∈ g.ball radius center ↔ ∃ n ≤ radius, g.Hops center n w :=
  mem_flatten_layersWithin_iff

/-- The vertices reached are those to which a walk leads. -/
theorem mem_reachable_iff {start w : Nat} : w ∈ g.reachable start ↔ ∃ n, g.Hops start n w := by
  rw [reachable, layers, mem_flatten_layersWithin_iff]
  constructor
  · rintro ⟨n, -, h⟩
    exact ⟨n, h⟩
  · rintro ⟨n, h⟩
    obtain ⟨d, -, hat⟩ := Walk.exists_atDistance h
    have := hat.le_length fun w hw => (mem_ids g).mpr hw
    exact ⟨d, by simpa [ids] using this, hat.1⟩

/-! ## Layers as lists -/

theorem pairwise_of_mem_spread {depth : Nat} {frontier unseen layer : List Nat}
    (h : unseen.Pairwise (· < ·)) (hl : layer ∈ g.spread depth frontier unseen) :
    layer.Pairwise (· < ·) := by
  induction depth generalizing frontier unseen with
  | zero => simp [spread] at hl
  | succ depth ih =>
    simp only [spread] at hl
    split at hl
    · simp at hl
    · rcases List.mem_cons.mp hl with rfl | hl
      · exact h.filter _
      · exact ih (h.filter _) hl

/-- Each layer is ascending. -/
theorem pairwise_of_mem_layersWithin {depth start : Nat} {layer : List Nat}
    (hl : layer ∈ g.layersWithin depth start) : layer.Pairwise (· < ·) := by
  rcases List.mem_cons.mp hl with rfl | hl
  · exact List.pairwise_singleton _ _
  · exact pairwise_of_mem_spread (g.pairwise_ids.filter _) hl

/-- No vertex is in two layers, or twice in one. -/
theorem nodup_flatten_layersWithin (depth start : Nat) :
    (g.layersWithin depth start).flatten.Nodup := by
  refine List.nodup_flatten.mpr ⟨fun layer hl => ?_, ?_⟩
  · exact (pairwise_of_mem_layersWithin hl).imp Nat.ne_of_lt
  · rw [List.pairwise_iff_getElem]
    intro i j hi hj hlt w hwi hwj
    have hi' := (mem_layersWithin_iff.mp ⟨_, List.getElem?_eq_getElem hi, hwi⟩).2
    have hj' := (mem_layersWithin_iff.mp ⟨_, List.getElem?_eq_getElem hj, hwj⟩).2
    exact Nat.ne_of_lt hlt (hi'.unique hj')

theorem nodup_reachable (start : Nat) : (g.reachable start).Nodup :=
  nodup_flatten_layersWithin g.size start

/-! ## Connectivity -/

theorem reachable_subset_ids {start : Nat} (h : start < g.size) :
    g.reachable start ⊆ g.ids := by
  intro w hw
  obtain ⟨n, hn⟩ := mem_reachable_iff.mp hw
  exact (mem_ids g).mpr (hn.lt_size h)

/-- In a connected graph there is a walk between any two vertices. -/
theorem isConnected_iff :
    g.isConnected = true ↔ ∀ a < g.size, ∀ b < g.size, ∃ n, g.Hops a n b := by
  rw [isConnected, Bool.or_eq_true, beq_iff_eq, isEmpty, beq_iff_eq]
  constructor
  · rintro (h | h) a ha b hb
    · omega
    · have hpos : 0 < g.size := by omega
      have hsub := (nodup_reachable (g := g) 0).subperm (reachable_subset_ids hpos)
      have hperm := hsub.perm_of_length_le (by simp [h, ids])
      obtain ⟨m, hm⟩ := mem_reachable_iff.mp (hperm.mem_iff.mpr ((mem_ids g).mpr ha))
      obtain ⟨n, hn⟩ := mem_reachable_iff.mp (hperm.mem_iff.mpr ((mem_ids g).mpr hb))
      exact ⟨m + n, hm.symm.trans hn⟩
  · intro h
    by_cases hpos : 0 < g.size
    · right
      have hsub : g.ids ⊆ g.reachable 0 := fun w hw =>
        mem_reachable_iff.mpr (h 0 hpos w ((mem_ids g).mp hw))
      have h₁ := (g.nodup_ids.subperm hsub).length_le
      have h₂ := ((nodup_reachable (g := g) 0).subperm (reachable_subset_ids hpos)).length_le
      simp only [ids, List.length_range] at h₁ h₂
      omega
    · left
      omega

/-- From every vertex of a connected graph the search finds every vertex. -/
theorem mem_reachable_of_isConnected (h : g.isConnected = true) {start w : Nat}
    (hs : start < g.size) : w ∈ g.reachable start ↔ w < g.size := by
  constructor
  · exact fun hw => (mem_ids g).mp (reachable_subset_ids hs hw)
  · exact fun hw => mem_reachable_iff.mpr (isConnected_iff.mp h start hs w hw)

end GraphDependency.Graph
