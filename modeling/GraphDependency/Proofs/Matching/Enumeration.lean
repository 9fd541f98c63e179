import GraphDependency.Proofs.Matching.Embedding
import GraphDependency.Proofs.Matching.Plan

set_option autoImplicit false

/-!
# The search visits every embedding once

A run of the matcher hands the embeddings of a list to its visitor, from the first
one up to the one at which the visitor stops.  The list depends on the query and
the root alone, has no repetitions, and consists of exactly the embeddings that the
query accepts.

Main statements: `forEachEmbedding_eq_runOver`, `mem_listed_iff` and `nodup_listed`.
-/

namespace GraphDependency.Matching

open Placement

/-! ## Runs over a list -/

section Runs

variable {σ : Type} (visit : σ → Embedding → ForInStep σ)

/-- The run of a visitor over a list of embeddings. -/
def runOver (state : σ) (ms : List Embedding) : Run σ :=
  match visitAll (counting visit) (state, 0) ms with
  | .done (state, count) => ⟨state, count, true⟩
  | .yield (state, count) => ⟨state, count, false⟩

variable {visit} {state mid final : σ} {count : Nat}

theorem visitAll_counting {ms : List Embedding} (h : visitAll visit state ms = .yield final) :
    visitAll (counting visit) (state, count) ms = .yield (final, count + ms.length) := by
  induction ms generalizing state count with
  | nil =>
    cases h
    rfl
  | cons m rest ih =>
    rw [visitAll] at h ⊢
    rw [counting]
    cases hv : visit state m with
    | done s => simp [hv] at h
    | yield s =>
      rw [hv] at h
      simp only [ih h, List.length_cons]
      congr 2
      omega

/-- A visitor that goes on everywhere sees the whole list. -/
theorem runOver_of_yield {ms : List Embedding} (h : visitAll visit state ms = .yield final) :
    runOver visit state ms = ⟨final, ms.length, false⟩ := by
  rw [runOver, visitAll_counting h, Nat.zero_add]

/-- A visitor that stops at an embedding sees those before it, and that one. -/
theorem runOver_of_done {before after : List Embedding} {m : Embedding}
    (h : visitAll visit state before = .yield mid) (hm : visit mid m = .done final) :
    runOver visit state (before ++ m :: after) = ⟨final, before.length + 1, true⟩ := by
  rw [runOver, visitAll_append, visitAll_counting h, Nat.zero_add]
  simp only [visitAll, counting, hm]

/-- A visitor that keeps what it sees has the whole list in the end. -/
theorem visitAll_snoc (seen ms : List Embedding) :
    visitAll (fun seen m => .yield (seen ++ [m])) seen ms = .yield (seen ++ ms) := by
  induction ms generalizing seen with
  | nil => simp [visitAll]
  | cons m rest ih => simp [visitAll, ih]

/-- A visitor that writes down, besides what it does, what it is called with. -/
def recording (visit : σ → Embedding → ForInStep σ) (state : σ × List Embedding)
    (m : Embedding) : ForInStep (σ × List Embedding) :=
  match visit state.1 m with
  | .done s => .done (s, state.2 ++ [m])
  | .yield s => .yield (s, state.2 ++ [m])

theorem visitAll_recording {seen ms : List Embedding}
    (h : visitAll visit state ms = .yield final) :
    visitAll (recording visit) (state, seen) ms = .yield (final, seen ++ ms) := by
  induction ms generalizing state seen with
  | nil =>
    cases h
    simp [visitAll]
  | cons m rest ih =>
    rw [visitAll] at h ⊢
    rw [recording]
    cases hv : visit state m with
    | done s => simp [hv] at h
    | yield s =>
      rw [hv] at h
      simp [ih h]

end Runs

/-! ## The list of a query -/

theorem search_eq_visitAll {σ : Type} (q : Query) (visit : σ → Embedding → ForInStep σ)
    (steps : List Step) (p : Placement) (state : σ) :
    search q visit steps p state
      = visitAll (fun s p => visit s (p.toEmbedding q.pattern.size)) state
        (extensions Step.vertex (candidates q) steps p) := by
  induction steps generalizing p state with
  | nil => rw [search, extensions, visitAll_singleton]
  | cons s rest ih =>
    rw [search, extensions, visitAll_flatMap]
    simp only [ih]

/-- The embeddings found from a root, in order. -/
def listedFrom (q : Query) (root : Nat) : List Embedding :=
  (extensions Step.vertex (candidates q) (plan q.pattern root) []).map
    (toEmbedding q.pattern.size)

/-- The embeddings found from the root that is asked for, or else from the default
one, in order. -/
def listed (q : Query) (root? : Option Nat) : List Embedding :=
  match root?.or (defaultRoot? q.pattern) with
  | none => []
  | some root =>
    if q.pattern.size ≤ root ∨ q.data.size < q.pattern.size then [] else listedFrom q root

/-- Every run is a run over the same list. -/
theorem forEachEmbedding_eq_runOver {σ : Type} (q : Query) (root? : Option Nat)
    (visit : σ → Embedding → ForInStep σ) (state : σ) :
    forEachEmbedding q root? visit state = runOver visit state (listed q root?) := by
  unfold forEachEmbedding listed
  cases root?.or (defaultRoot? q.pattern) with
  | none => rfl
  | some root =>
    simp only
    split
    · rfl
    · rw [search_eq_visitAll, ← visitAll_map]
      rfl

/-! ## Candidates -/

section Candidates

variable {q : Query} {p : Placement} {s : Step} {rest : List Step} {m : Embedding} {v : Nat}

theorem fits_iff :
    fits q p s v = true
      ↔ v ∉ p.images ∧ q.data.label v = q.pattern.label s.vertex
        ∧ q.pattern.degree s.vertex ≤ q.data.degree v ∧ q.vertexOk s.vertex v = true
        ∧ ∀ w label, (w, label) ∈ s.back →
          ∃ label', q.data.edgeLabel? v (p.image w) = some label'
            ∧ q.edgeOk label label' = true := by
  simp only [fits, fitsWith, Bool.and_eq_true, Bool.not_eq_true', uses_eq_false_iff, beq_iff_eq,
    decide_eq_true_eq, List.all_eq_true, Prod.forall, and_assoc]
  refine and_congr_right fun _ => and_congr_right fun _ => and_congr_right fun _ =>
    and_congr_right fun _ => forall_congr' fun w => forall_congr' fun label =>
    imp_congr_right fun _ => ?_
  cases q.data.edgeLabel? v (p.image w) <;> simp

theorem nodup_candidates (q : Query) (p : Placement) (s : Step) : (candidates q p s).Nodup := by
  refine List.Nodup.filter _ ?_
  unfold poolFrom
  split
  · exact q.data.nodup_neighbors _
  · exact (q.data.pairwise_withLabel _).imp Nat.ne_of_lt

theorem lt_size_of_mem_pool (h : v ∈ pool q p s) : v < q.data.size := by
  unfold pool poolFrom at h
  split at h
  · exact q.data.lt_size_of_mem_neighbors h
  · exact ((Graph.mem_withLabel_iff _).mp h).1

/-- The candidates of a plan are right for its query. -/
theorem exact_candidates (q : Query) :
    q.Exact Step.vertex (candidates q) (Follows q.pattern) where
  nodup := nodup_candidates q
  ready _ _ _ hfollows := ⟨hfollows.1, hfollows.2.1, hfollows.2.2.2⟩
  sound := by
    rintro s rest p v ⟨hlt, hkey, hsteps, -⟩ hp hv
    obtain ⟨hpool, hfits⟩ := mem_candidates_iff.mp hv
    obtain ⟨himage, hlabel, -, hok, hback⟩ := fits_iff.mp hfits
    refine hp.cons hlt (lt_size_of_mem_pool hpool) hkey himage hlabel hok ?_
    rintro ⟨w, x⟩ hf label hl
    have hw : w ∈ p.keys := List.mem_map.mpr ⟨_, hf, rfl⟩
    have := hback w label ((hsteps w label).mpr ⟨hw, hl⟩)
    rwa [image_of_mem hp.nodup_keys hf] at this
  complete := by
    rintro s rest p m ⟨hs, hkey, hsteps, -⟩ hm hagree
    refine mem_candidates_iff.mpr ⟨?_, fits_iff.mpr ⟨hagree.not_mem_images hm hs hkey,
      hm.label_eq _ hs, hm.degree_le _, hm.vertex_ok _ hs, ?_⟩⟩
    · unfold pool poolFrom
      split
      · rename_i w hw
        obtain ⟨⟨w, label⟩, hhead, rfl⟩ := Option.map_eq_some_iff.mp hw
        obtain ⟨hplaced, hl⟩ := (hsteps w label).mp (List.mem_of_head? hhead)
        rw [hagree.image hplaced]
        refine hm.mem_neighbors ?_
        exact (Graph.mem_neighbors_comm _).mp (q.pattern.mem_neighbors_of_edgeLabel? hl)
      · exact (Graph.mem_withLabel_iff _).mpr ⟨hm.image_lt _ hs, hm.label_eq _ hs⟩
    · intro w label hback
      obtain ⟨hplaced, hl⟩ := (hsteps w label).mp hback
      rw [hagree.image hplaced]
      exact hm.edgeLabel? hl

end Candidates

/-! ## What is listed -/

section Listed

variable {q : Query} {root : Nat} {root? : Option Nat} {m : Embedding}

theorem mem_listedFrom_iff (hroot : root < q.pattern.size) :
    m ∈ listedFrom q root ↔ q.IsEmbedding m :=
  (exact_candidates q).mem_map_extensions_iff (follows_plan hroot) (perm_plan hroot) (by omega)

theorem nodup_listedFrom (hroot : root < q.pattern.size) : (listedFrom q root).Nodup :=
  (exact_candidates q).nodup_map_extensions (follows_plan hroot) (perm_plan hroot)

theorem lt_size_of_defaultRoot? {pattern : Graph} (h : defaultRoot? pattern = some root) :
    root < pattern.size :=
  (Graph.mem_ids _).mp (mem_of_firstBest? h)

/-- The root of a search is a vertex if the one asked for is. -/
theorem lt_size_of_or_defaultRoot? (hroot : ∀ r ∈ root?, r < q.pattern.size)
    (h : root?.or (defaultRoot? q.pattern) = some root) : root < q.pattern.size := by
  cases root? with
  | none => exact lt_size_of_defaultRoot? h
  | some r =>
    cases h
    exact hroot root rfl

theorem nodup_listed (q : Query) (root? : Option Nat) : (listed q root?).Nodup := by
  unfold listed
  split
  · exact List.nodup_nil
  · split
    · exact List.nodup_nil
    · rename_i h
      exact nodup_listedFrom (by omega)

/-- The embeddings of the query are listed, and nothing else is. -/
theorem mem_listed_iff (hroot : ∀ r ∈ root?, r < q.pattern.size) :
    m ∈ listed q root? ↔ q.IsEmbedding m := by
  unfold listed
  split
  · rename_i h
    have hnone : defaultRoot? q.pattern = none := (Option.or_eq_none_iff.mp h).2
    have hids : q.pattern.ids = [] := firstBest?_eq_none_iff.mp hnone
    have hsize : q.pattern.size = 0 := by simpa [Graph.ids] using congrArg List.length hids
    simp only [List.not_mem_nil, false_iff]
    intro hm
    have := hm.nonempty
    omega
  · rename_i root h
    have hlt := lt_size_of_or_defaultRoot? hroot h
    split
    · simp only [List.not_mem_nil, false_iff]
      intro hm
      have := hm.size_le
      omega
    · exact mem_listedFrom_iff hlt

end Listed

/-! ## What a visitor sees -/

/-- The embeddings with which a visitor that never stops is called, in order. -/
def reported (q : Query) (root? : Option Nat) : List Embedding :=
  (forEachEmbedding q root? (fun seen m => .yield (seen ++ [m])) []).state

/-- The embeddings with which a visitor is called, in order. -/
def calls {σ : Type} (q : Query) (root? : Option Nat) (visit : σ → Embedding → ForInStep σ)
    (state : σ) : List Embedding :=
  (forEachEmbedding q root? (recording visit) (state, [])).state.2

theorem reported_eq_listed (q : Query) (root? : Option Nat) :
    reported q root? = listed q root? := by
  rw [reported, forEachEmbedding_eq_runOver, runOver_of_yield (visitAll_snoc [] _)]
  rfl

theorem calls_of_yield {σ : Type} {q : Query} {root? : Option Nat}
    {visit : σ → Embedding → ForInStep σ} {state final : σ}
    (h : visitAll visit state (listed q root?) = .yield final) :
    calls q root? visit state = listed q root? := by
  rw [calls, forEachEmbedding_eq_runOver, runOver_of_yield (visitAll_recording h)]
  rfl

theorem calls_of_done {σ : Type} {q : Query} {root? : Option Nat}
    {visit : σ → Embedding → ForInStep σ} {state mid final : σ} {m : Embedding}
    {before after : List Embedding} (hlist : listed q root? = before ++ m :: after)
    (h : visitAll visit state before = .yield mid) (hm : visit mid m = .done final) :
    calls q root? visit state = before ++ [m] := by
  have hdone : recording visit (mid, before) m = .done (final, before ++ [m]) := by
    rw [recording, hm]
  have hbefore : visitAll (recording visit) (state, []) before = .yield (mid, before) := by
    rw [visitAll_recording h, List.nil_append]
  rw [calls, forEachEmbedding_eq_runOver, hlist, runOver_of_done hbefore hdone]

end GraphDependency.Matching
