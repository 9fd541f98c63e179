import GraphDependency.Proofs.Validation.Ball
import GraphDependency.Validation.Stamps

set_option autoImplicit false

/-!
# Stamps from earlier searches do not matter

No stamp is greater than the number of the last search, so a search that begins finds no data
vertex stamped with its own number; when the numbers start again, this is so because the stamps
were cleared.  From then on exactly the data vertices in the ball carry the number.  The ball
grows by whole levels: what lies before the level that is scanned is nearer than the level, and
what is met while it is scanned is further away by one.

Main statements: `not_hasMet_next` (a new search), `Reaches.round` (what one level adds),
`weigh_next` (any search weighs the ball, whatever was weighed before) and
`generateMessages_exact`.
-/

namespace GraphDependency.Validation

open GraphDependency.Graph

/-! ## A new search -/

namespace Stamps

/-- Every data vertex has a stamp, of a search up to this one. -/
structure UpToDate (s : Stamps) (size : Nat) : Prop where
  size_eq : s.stamps.size = size
  le_epoch : ∀ (v : Nat) (x : UInt32), s.stamps[v]? = some x → x ≤ s.epoch

variable {s : Stamps} {size v w : Nat}

theorem upToDate_start (size : Nat) : (start size).UpToDate size where
  size_eq := Array.size_replicate
  le_epoch v x h := by
    obtain ⟨hlt, rfl⟩ := Array.getElem?_eq_some_iff.mp h
    simp [start]

theorem lt_add_one_of_ne_zero {x : UInt32} (h : x + 1 ≠ 0) : x < x + 1 := by
  rw [ne_eq, ← UInt32.toNat_inj, UInt32.toNat_add] at h
  rw [UInt32.lt_iff_toNat_lt, UInt32.toNat_add]
  have := x.toNat_lt
  simp only [UInt32.toNat_one, UInt32.toNat_zero] at *
  omega

theorem UpToDate.next (h : s.UpToDate size) : s.next.UpToDate size := by
  unfold Stamps.next
  split
  · refine ⟨(Array.size_map).trans h.size_eq, fun v x hx => ?_⟩
    obtain ⟨_, _, rfl⟩ := Option.map_eq_some_iff.mp ((Array.getElem?_map ..).symm.trans hx)
    exact (by decide : (0 : UInt32) ≤ 1)
  · rename_i hne
    refine ⟨h.size_eq, fun v x hx => ?_⟩
    exact UInt32.le_trans (h.le_epoch v x hx) (UInt32.le_of_lt (lt_add_one_of_ne_zero hne))

/-- A search that begins has met nothing, even if the numbers have started again. -/
theorem UpToDate.not_hasMet_next (h : s.UpToDate size) (v : Nat) : s.next.hasMet v = false := by
  rw [hasMet, beq_eq_false_iff_ne]
  unfold Stamps.next
  split
  · intro hv
    obtain ⟨_, _, hzero⟩ := Option.map_eq_some_iff.mp ((Array.getElem?_map ..).symm.trans hv)
    exact absurd hzero (by decide : (0 : UInt32) ≠ 1)
  · rename_i hne
    intro hv
    exact UInt32.lt_irrefl _ (UInt32.lt_of_lt_of_le (lt_add_one_of_ne_zero hne)
      (h.le_epoch v _ hv))

example : (Stamps.mk #[0, 7, 4294967295] 4294967295).next = ⟨#[0, 0, 0], 1⟩ := by cbv

theorem UpToDate.meet (h : s.UpToDate size) (w : Nat) : (s.meet w).UpToDate size := by
  refine ⟨(Array.size_setIfInBounds).trans h.size_eq, fun v x hx => ?_⟩
  rw [Stamps.meet, Array.getElem?_setIfInBounds] at hx
  split at hx
  · split at hx
    · cases hx
      exact UInt32.le_refl _
    · cases hx
  · exact h.le_epoch v x hx

theorem UpToDate.hasMet_meet_iff (h : s.UpToDate size) (hw : w < size) :
    (s.meet w).hasMet v = true ↔ v = w ∨ s.hasMet v = true := by
  have hbound : w < s.stamps.size := by rwa [h.size_eq]
  simp only [hasMet, Stamps.meet, beq_iff_eq, Array.getElem?_setIfInBounds]
  by_cases hvw : w = v
  · simp [hvw, hvw ▸ hbound]
  · simp [hvw, Ne.symm hvw]

end Stamps

/-! ## What a search has met -/

namespace GrowingBall

variable {data : Graph} {s : GrowingBall} {t : Stamps} {ws vs : List Nat}
  {v w k radius frontier center : Nat}

/-- The ball holds exactly the data vertices that the search has met, each of them once. -/
structure Tracks (s : GrowingBall) (data : Graph) : Prop where
  upToDate : s.stamps.UpToDate data.size
  hasMet_iff : ∀ v, s.stamps.hasMet v = true ↔ v ∈ s.ball.toList
  nodup : s.ball.toList.Nodup

theorem tracks_start (h : t.UpToDate data.size) (hfresh : ∀ v, t.hasMet v = false)
    (hcenter : center < data.size) : (start t center).Tracks data where
  upToDate := h.meet center
  hasMet_iff v := by
    rw [start, h.hasMet_meet_iff hcenter, hfresh]
    simp
  nodup := List.nodup_singleton center

theorem mem_visit_iff (h : s.Tracks data) :
    v ∈ (s.visit w).ball.toList ↔ v ∈ s.ball.toList ∨ v = w := by
  unfold visit
  split
  · rename_i hmet
    exact ⟨Or.inl, fun hv => hv.elim id fun heq => heq ▸ (h.hasMet_iff w).mp hmet⟩
  · rw [Array.toList_push, List.mem_append, List.mem_singleton]

theorem Tracks.visit (h : s.Tracks data) (hw : w < data.size) : (s.visit w).Tracks data := by
  unfold GrowingBall.visit
  split
  · exact h
  · rename_i hnew
    rw [Bool.not_eq_true] at hnew
    refine ⟨h.upToDate.meet w, fun v => ?_, ?_⟩
    · rw [h.upToDate.hasMet_meet_iff hw, h.hasMet_iff, Array.toList_push, List.mem_append,
        List.mem_singleton]
      exact or_comm
    · have hout : w ∉ s.ball.toList := fun hmem => by
        rw [← h.hasMet_iff, hnew] at hmem
        cases hmem
      rw [Array.toList_push]
      exact List.nodup_append.mpr ⟨h.nodup, List.nodup_singleton w, fun x hx y hy heq => by
        rw [List.mem_singleton.mp hy] at heq
        exact hout (heq ▸ hx)⟩

/-- Visiting data vertices one after the other adds exactly those to the ball. -/
theorem Tracks.foldl_visit (h : s.Tracks data) (hws : ∀ w ∈ ws, w < data.size) :
    (ws.foldl GrowingBall.visit s).Tracks data
      ∧ ∀ v, v ∈ (ws.foldl GrowingBall.visit s).ball.toList ↔ v ∈ s.ball.toList ∨ v ∈ ws := by
  induction ws generalizing s with
  | nil => exact ⟨h, fun v => by simp⟩
  | cons w ws ih =>
    obtain ⟨hw, hws⟩ := List.forall_mem_cons.mp hws
    obtain ⟨htracks, hmem⟩ := ih (h.visit hw) hws
    refine ⟨htracks, fun v => (hmem v).trans ?_⟩
    rw [mem_visit_iff h, List.mem_cons, or_assoc]

/-- A ball only grows at its end. -/
theorem prefix_foldl_visit (s : GrowingBall) (ws : List Nat) :
    s.ball.toList <+: (ws.foldl visit s).ball.toList := by
  induction ws generalizing s with
  | nil => exact List.prefix_rfl
  | cons w ws ih =>
    refine List.IsPrefix.trans ?_ (ih (s.visit w))
    unfold visit
    split
    · exact List.prefix_rfl
    · rw [Array.toList_push]
      exact List.prefix_append _ _

/-- While positions of the ball are scanned, what stands there does not change. -/
theorem foldl_scan_eq (hfront : vs <+: s.ball.toList) {count : Nat}
    (hcount : frontier + count = vs.length) :
    (List.range' frontier count).foldl (scan data) s
      = ((vs.drop frontier).flatMap data.neighbors).foldl visit s := by
  induction count generalizing frontier s with
  | zero =>
    rw [List.drop_eq_nil_of_le (by omega)]
    rfl
  | succ count ih =>
    have hlt : frontier < vs.length := by omega
    have hat : s.ball.getD frontier 0 = vs[frontier] := by
      rw [Array.getD_eq_getD_getElem?, ← Array.getElem?_toList,
        List.prefix_iff_getElem?.mp hfront frontier hlt, Option.getD_some]
    rw [List.range'_succ, List.foldl_cons, List.drop_eq_getElem_cons hlt, List.flatMap_cons,
      List.foldl_append, scan, hat]
    exact ih (hfront.trans (prefix_foldl_visit _ _)) (by omega)

/-! ## Level by level -/

/-- The ball holds what is within `k` hops, and before the level what is nearer. -/
structure Reaches (s : GrowingBall) (data : Graph) (center k frontier : Nat) : Prop where
  tracks : s.Tracks data
  frontier_le : frontier ≤ s.ball.size
  mem_iff : ∀ v, v ∈ s.ball.toList ↔ data.Within k center v
  nearer_iff : ∀ v, v ∈ s.ball.toList.take frontier ↔ ∃ n < k, data.Hops center n v

theorem reaches_start (h : (start t center).Tracks data) :
    (start t center).Reaches data center 0 0 where
  tracks := h
  frontier_le := Nat.zero_le _
  mem_iff v := by
    have hzero : data.Within 0 center v ↔ v = center := by
      simp only [Within, Nat.le_zero, exists_eq_left]
      exact Iff.rfl
    rw [hzero]
    exact List.mem_singleton
  nearer_iff v := by simp

/-- Within one more hop there is what was met, and what is next to the level. -/
theorem Reaches.within_succ_iff (h : s.Reaches data center k frontier) :
    data.Within (k + 1) center w
      ↔ w ∈ s.ball.toList ∨ w ∈ (s.ball.toList.drop frontier).flatMap data.neighbors := by
  constructor
  · rintro ⟨n, hn, hwalk⟩
    rcases Nat.le_succ_iff.mp hn with hn | rfl
    · exact Or.inl ((h.mem_iff w).mpr ⟨n, hn, hwalk⟩)
    · obtain ⟨-, v, hv, hadj⟩ := id hwalk
      -- The vertex before is on the level, or nearer; then nothing new is met from it.
      have hball : v ∈ s.ball.toList := (h.mem_iff v).mpr ⟨k, Nat.le_refl k, hv⟩
      rw [← List.take_append_drop frontier s.ball.toList, List.mem_append] at hball
      rcases hball with hnear | hlevel
      · obtain ⟨m, hm, hnear⟩ := (h.nearer_iff v).mp hnear
        exact Or.inl ((h.mem_iff w).mpr ⟨m + 1, hm, hnear.trans (Hops.of_mem_neighbors hadj)⟩)
      · exact Or.inr (List.mem_flatMap.mpr ⟨v, hlevel, hadj⟩)
  · rintro (hw | hw)
    · obtain ⟨n, hn, hwalk⟩ := (h.mem_iff w).mp hw
      exact ⟨n, Nat.le_succ_of_le hn, hwalk⟩
    · obtain ⟨v, hv, hadj⟩ := List.mem_flatMap.mp hw
      obtain ⟨n, hn, hwalk⟩ := (h.mem_iff v).mp (List.mem_of_mem_drop hv)
      exact ⟨n + 1, Nat.succ_le_succ hn, hwalk.trans (Hops.of_mem_neighbors hadj)⟩

/-- Scanning a level adds what is further away by one. -/
theorem Reaches.round (h : s.Reaches data center k frontier) :
    ((List.range' frontier (s.ball.size - frontier)).foldl (scan data) s).Reaches data center
      (k + 1) s.ball.size := by
  have hcount : frontier + (s.ball.size - frontier) = s.ball.toList.length := by
    have := h.frontier_le
    rw [Array.length_toList]
    omega
  rw [foldl_scan_eq List.prefix_rfl hcount]
  have hlt : ∀ w ∈ (s.ball.toList.drop frontier).flatMap data.neighbors, w < data.size := by
    intro w hw
    obtain ⟨v, -, hadj⟩ := List.mem_flatMap.mp hw
    exact data.lt_size_of_mem_neighbors hadj
  obtain ⟨htracks, hmem⟩ := h.tracks.foldl_visit hlt
  have hbefore := prefix_foldl_visit s ((s.ball.toList.drop frontier).flatMap data.neighbors)
  refine ⟨htracks, ?_, fun w => (hmem w).trans h.within_succ_iff.symm, fun w => ?_⟩
  · simpa using hbefore.length_le
  · obtain ⟨more, hmore⟩ := hbefore
    rw [← hmore, ← Array.length_toList, List.take_left, h.mem_iff]
    simp only [Within, Nat.lt_succ_iff]

/-- An empty level is the end: everything that can be reached was met. -/
theorem Reaches.within_of_frontier_eq (h : s.Reaches data center k frontier)
    (hend : frontier = s.ball.size) (hv : data.Within (k + radius) center v) :
    data.Within k center v := by
  have hnone : ∀ w, ¬ data.AtDistance (· < data.size) center k w := by
    intro w hw
    have hmem : w ∈ s.ball.toList := (h.mem_iff w).mpr ⟨k, Nat.le_refl k, hw.1⟩
    rw [← List.take_length (l := s.ball.toList), Array.length_toList, ← hend, h.nearer_iff] at hmem
    obtain ⟨n, hn, hwalk⟩ := hmem
    exact hw.2 n hn hwalk
  obtain ⟨n, -, hwalk⟩ := hv
  obtain ⟨m, hm, hwalk⟩ := Walk.exists_lt hwalk hnone
  exact ⟨m, Nat.le_of_lt hm, hwalk⟩

/-- A ball that is grown holds what is within the radius. -/
theorem Reaches.grow (h : s.Reaches data center k frontier) (radius : Nat) :
    (GrowingBall.grow data radius frontier s).Tracks data
      ∧ ∀ v, v ∈ (GrowingBall.grow data radius frontier s).ball.toList
        ↔ data.Within (k + radius) center v := by
  induction radius generalizing k frontier s with
  | zero => exact ⟨h.tracks, h.mem_iff⟩
  | succ radius ih =>
    rw [GrowingBall.grow]
    split
    · rename_i hend
      refine ⟨h.tracks, fun v => (h.mem_iff v).trans ⟨?_, h.within_of_frontier_eq hend⟩⟩
      rintro ⟨n, hn, hwalk⟩
      exact ⟨n, Nat.le_add_right_of_le hn, hwalk⟩
    · rw [show k + (radius + 1) = k + 1 + radius by omega]
      exact ih h.round

/-- What is counted are the edges between the data vertices of the ball. -/
theorem Tracks.innerEdgeCount_eq (h : s.Tracks data) :
    s.innerEdgeCount data = (innerEdges data s.ball.toList).length := by
  have hcount : ∀ v, (data.neighbors v).countP (fun w => v < w && s.stamps.hasMet w)
      = (((data.neighbors v).filter fun w => v < w && s.ball.toList.contains w).map
          fun w => (v, w)).length := by
    intro v
    rw [List.length_map, ← List.countP_eq_length_filter]
    refine List.countP_congr fun w _ => ?_
    rw [Bool.and_eq_true, Bool.and_eq_true, h.hasMet_iff, List.contains_iff_mem]
  rw [innerEdgeCount, innerEdges, List.length_flatMap, List.sum_eq_foldl, List.foldl_map,
    ← Array.foldl_toList]
  simp only [hcount]

end GrowingBall

/-! ## Weights -/

variable {data : Graph} {s : Stamps} {radius center weight : Nat} {v : Nat}

/-- Whatever was weighed before, the next search finds the weight of the ball. -/
theorem weigh_next (h : s.UpToDate data.size) (radius : Nat) (hcenter : center < data.size) :
    (weigh data s.next radius center).1 = ballWeight data radius center
      ∧ (weigh data s.next radius center).2.UpToDate data.size := by
  have hstart := GrowingBall.tracks_start h.next h.not_hasMet_next hcenter
  obtain ⟨htracks, hmem⟩ := (GrowingBall.reaches_start hstart).grow radius
  rw [Nat.zero_add] at hmem
  refine ⟨?_, htracks.upToDate⟩
  rw [weigh, htracks.innerEdgeCount_eq, ← Array.length_toList]
  exact length_add_length_innerEdges htracks.nodup hmem

/-- The weight is the number of data vertices within the radius and of the edges among them. -/
def IsBallWeight (data : Graph) (radius center weight : Nat) : Prop :=
  (weight : ℕ∞) = {v | data.Within radius center v}.encard
    + (data.edgesAmong (data.Within radius center)).encard

theorem isBallWeight_iff :
    IsBallWeight data radius center weight ↔ ballWeight data radius center = weight := by
  rw [IsBallWeight, ← ballWeight_eq, Nat.cast_inj]
  exact eq_comm

instance (data : Graph) (radius center weight : Nat) :
    Decidable (IsBallWeight data radius center weight) :=
  decidable_of_iff _ isBallWeight_iff.symm

/-! ## Filing -/

namespace Filed

theorem under_eq_of_mem {f : Filed} {ms : List Message} (h : (weight, ms) ∈ f.entries) :
    f.under weight = ms := by
  have hnodup : (f.entries.map Prod.fst).Nodup := f.ascending.imp Nat.ne_of_lt
  rw [Queues.under]
  cases hfind : f.entries.find? fun e => e.1 = weight with
  | none => exact absurd rfl (of_decide_eq_false (Bool.eq_false_iff.mpr
      (List.find?_eq_none.mp hfind _ h)))
  | some e =>
    have hweight : e.1 = weight := by simpa using List.find?_some hfind
    have heq := List.inj_on_of_nodup_map hnodup (List.mem_of_find?_eq_some hfind) h hweight
    rw [heq]
    rfl

/-- The entries are the weights with messages under them. -/
theorem mem_entries_iff {f : Filed} {ms : List Message} :
    (weight, ms) ∈ f.entries ↔ ms ≠ [] ∧ ms = f.under weight := by
  constructor
  · exact fun h => ⟨f.nonempty _ h, (under_eq_of_mem h).symm⟩
  · rintro ⟨hne, rfl⟩
    cases hfind : f.entries.find? fun e => e.1 = weight with
    | none =>
      rw [Queues.under, hfind] at hne
      exact absurd rfl hne
    | some e =>
      have hweight : e.1 = weight := by simpa using List.find?_some hfind
      have hunder : f.under weight = e.2 := by
        rw [Queues.under, hfind]
        rfl
      rw [hunder, ← hweight]
      exact List.mem_of_find?_eq_some hfind

end Filed

/-- What is to be weighed for requests, in order. -/
def candidatesOf (requests : List (Request data)) : List (Request data × Nat) :=
  requests.flatMap fun r => r.candidates.map fun v => (r, v)

theorem lt_size_of_mem_candidatesOf {requests : List (Request data)} :
    ∀ c ∈ candidatesOf requests, c.2 < data.size := by
  intro c hc
  obtain ⟨r, -, hc⟩ := List.mem_flatMap.mp hc
  obtain ⟨v, hv, rfl⟩ := List.mem_map.mp hc
  exact r.candidates_lt v hv

/-- The messages for what has a weight. -/
def messagesOfWeight (weight : Nat) (cs : List (Request data × Nat)) : List Message :=
  (cs.filter fun c => IsBallWeight data c.1.radius c.2 weight).map fun c => c.1.message c.2

theorem messagesOfWeight_cons (weight : Nat) (c : Request data × Nat)
    (cs : List (Request data × Nat)) :
    messagesOfWeight weight (c :: cs)
      = if ballWeight data c.1.radius c.2 = weight
        then c.1.message c.2 :: messagesOfWeight weight cs else messagesOfWeight weight cs := by
  simp only [messagesOfWeight, isBallWeight_iff, List.filter_cons, decide_eq_true_eq]
  split
  · rw [List.map_cons]
  · rfl

namespace Weighing

variable {k : Weighing}

/-- A candidate goes under the weight of its ball. -/
theorem candidate_eq (h : k.stamps.UpToDate data.size) (r : Request data) (hv : v < data.size) :
    ∃ stamps : Stamps, stamps.UpToDate data.size
      ∧ candidate r k v = ⟨stamps, k.filed.file (ballWeight data r.radius v) (r.message v)⟩ := by
  obtain ⟨hweight, hnext⟩ := weigh_next h r.radius hv
  refine ⟨_, hnext, ?_⟩
  rw [← hweight]
  rfl

/-- Candidate after candidate, the messages go under their weights. -/
theorem under_foldl_candidate {cs : List (Request data × Nat)} (hcs : ∀ c ∈ cs, c.2 < data.size)
    (h : k.stamps.UpToDate data.size) (weight : Nat) :
    (cs.foldl (fun k c => candidate c.1 k c.2) k).filed.under weight
      = k.filed.under weight ++ messagesOfWeight weight cs := by
  induction cs generalizing k with
  | nil => exact (List.append_nil _).symm
  | cons c cs ih =>
    obtain ⟨hc, hcs⟩ := List.forall_mem_cons.mp hcs
    obtain ⟨stamps, hstamps, hstep⟩ := candidate_eq h c.1 hc
    rw [List.foldl_cons, hstep, ih hcs hstamps, Filed.under_file, messagesOfWeight_cons]
    split
    · rw [List.append_assoc, List.singleton_append]
    · rfl

theorem foldl_request_eq (requests : List (Request data)) (k : Weighing) :
    requests.foldl request k
      = (candidatesOf requests).foldl (fun k c => candidate c.1 k c.2) k := by
  rw [candidatesOf, List.foldl_flatMap]
  simp only [List.foldl_map]
  rfl

end Weighing

theorem under_generateMessages (data : Graph) (requests : List (Request data)) (weight : Nat) :
    (generateMessages data requests).under weight
      = messagesOfWeight weight (candidatesOf requests) := by
  rw [generateMessages, Weighing.foldl_request_eq]
  exact Weighing.under_foldl_candidate lt_size_of_mem_candidatesOf
    (Stamps.upToDate_start data.size) weight

/-- A worker files every candidate's message under the number of data vertices within the radius
and of the edges among them.  Under each weight stand the messages of the candidates with that
weight, in the order in which they were requested, and nothing else is filed. -/
theorem generateMessages_exact (data : Graph) (requests : List (Request data)) :
    (∀ r ∈ requests, ∀ v ∈ r.candidates, ∃ weight ms,
        (weight, ms) ∈ (generateMessages data requests).entries ∧ r.message v ∈ ms
          ∧ IsBallWeight data r.radius v weight)
      ∧ ∀ weight ms, (weight, ms) ∈ (generateMessages data requests).entries
          ↔ ms ≠ [] ∧ ms = messagesOfWeight weight (candidatesOf requests) := by
  have hentries : ∀ weight ms, (weight, ms) ∈ (generateMessages data requests).entries
      ↔ ms ≠ [] ∧ ms = messagesOfWeight weight (candidatesOf requests) := fun weight ms => by
    rw [Filed.mem_entries_iff, under_generateMessages]
  refine ⟨fun r hr v hv => ?_, hentries⟩
  have hweight : IsBallWeight data r.radius v (ballWeight data r.radius v) :=
    isBallWeight_iff.mpr rfl
  have hmem : r.message v
      ∈ messagesOfWeight (ballWeight data r.radius v) (candidatesOf requests) := by
    refine List.mem_map.mpr ⟨(r, v), List.mem_filter.mpr ⟨?_, decide_eq_true hweight⟩, rfl⟩
    exact List.mem_flatMap.mpr ⟨r, hr, List.mem_map_of_mem hv⟩
  exact ⟨_, _, (hentries _ _).mpr ⟨List.ne_nil_of_mem hmem, rfl⟩, hmem, hweight⟩

end GraphDependency.Validation
