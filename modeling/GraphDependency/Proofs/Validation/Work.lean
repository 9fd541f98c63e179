import GraphDependency.Proofs.Validation.Partition
import GraphDependency.Proofs.Validation.Transfer
import Mathlib.Algebra.BigOperators.Group.List.Basic

set_option autoImplicit false

/-!
# The work of all workers

Around the data vertices to which the center of a pattern may go, the searches divide the
embeddings of the pattern among them: each is found around the image of the center, and
nowhere else.  As long as nothing is refuted no message is left out, so the work of all
workers is that of all messages, in whatever way they are shared out.

Main statements: `perm_flatMap_listedAt` (the embeddings are divided), `handleAll_eq` (what
a worker does) and `run_distributed_work`.
-/

namespace GraphDependency.Validation

open GraphDependency.Matching

/-! ## Sums of work -/

/-- The work of several runs is added up in both parts. -/
theorem total_eq_sum (stats : List Stats) :
    Stats.total stats
      = ⟨(stats.map Stats.matcherRuns).sum, (stats.map Stats.embeddingsChecked).sum⟩ := by
  have hfold : ∀ s : Stats, stats.foldl Stats.add s
      = s.add ⟨(stats.map Stats.matcherRuns).sum, (stats.map Stats.embeddingsChecked).sum⟩ := by
    induction stats with
    | nil => exact fun _ => rfl
    | cons t rest ih =>
      intro s
      rw [List.foldl_cons, ih]
      simp only [Stats.add, List.map_cons, List.sum_cons, Nat.add_assoc]
  rw [Stats.total, hfold, Stats.add, Stats.zero, Nat.zero_add, Nat.zero_add]

/-! ## Searches around the images of the center -/

section Center

variable {data : Graph} {d : Dependency} {center : Nat}

/-- The embeddings that are found with the center at a data vertex, in order. -/
def listedAt (data : Graph) (d : Dependency) (center v : Nat) : List Embedding :=
  listed ⟨d.pattern, data, Query.pinned center v, Query.equalLabels⟩ (some center)

theorem mem_listedAt_iff (hcenter : center < d.pattern.size) {v : Nat} {m : Embedding} :
    m ∈ listedAt data d center v
      ↔ (Query.plain d.pattern data).IsEmbedding m ∧ m.image center = v := by
  rw [listedAt, mem_listed_iff (by rintro r ⟨⟩; exact hcenter), isEmbedding_pinned_iff hcenter]

/-- The searches around the data vertices with the label of the center find every embedding
once. -/
theorem perm_flatMap_listedAt (hcenter : center < d.pattern.size) :
    ((data.withLabel (d.pattern.label center)).flatMap (listedAt data d center)).Perm
      (reported (Query.plain d.pattern data) none) := by
  have hnodup : ((data.withLabel (d.pattern.label center)).flatMap
      (listedAt data d center)).Nodup := by
    refine List.nodup_flatMap.mpr ⟨fun v _ => nodup_listed _ _, ?_⟩
    refine (data.pairwise_withLabel _).imp fun {v w} hlt m hv hw => ?_
    have hv := ((mem_listedAt_iff hcenter).mp hv).2
    have hw := ((mem_listedAt_iff hcenter).mp hw).2
    omega
  have hreported : (reported (Query.plain d.pattern data) none).Nodup := by
    rw [reported_eq_listed]
    exact nodup_listed _ _
  refine (List.perm_ext_iff_of_nodup hnodup hreported).mpr fun m => ?_
  rw [mem_reported_iff, List.mem_flatMap]
  constructor
  · rintro ⟨v, -, hm⟩
    exact ((mem_listedAt_iff hcenter).mp hm).1
  · intro hm
    have hlabel := (Graph.mem_withLabel_iff _).mpr
      ⟨hm.image_lt center hcenter, hm.label_eq center hcenter⟩
    exact ⟨m.image center, hlabel, (mem_listedAt_iff hcenter).mpr ⟨hm, rfl⟩⟩

/-- Without a counterexample, the search of a message goes on to the end. -/
theorem runMessage_of_not_violated {msg : Message} (hcenter : msg.center < d.pattern.size)
    (h : ¬ d.Violated data) :
    runMessage data d msg = ⟨(), (listedAt data d msg.center msg.candidate).length, false⟩ := by
  rw [runMessage, forEachEmbedding_eq_runOver]
  refine runOver_seekCounterexample (fun m hm => ?_) fun m _ hm => h ⟨m, hm⟩
  exact ((mem_listedAt_iff hcenter).mp hm).1

end Center

/-! ## The work for one dependency -/

section Rule

variable {data : Graph} {d : Dependency}

/-- The number of data vertices with the label of the center of the pattern. -/
def centerCount (data : Graph) (d : Dependency) : Nat :=
  match center? d.pattern with
  | none => 0
  | some (center, _) => data.ids.countP fun v => data.label v = d.pattern.label center

theorem length_withLabel (data : Graph) (label : String) :
    (data.withLabel label).length = data.ids.countP fun v => data.label v = label := by
  rw [List.countP_eq_length_filter]
  refine List.Perm.length_eq ((List.perm_ext_iff_of_nodup
    ((data.pairwise_withLabel _).imp Nat.ne_of_lt) (data.nodup_ids.filter _)).mpr fun v => ?_)
  simp

/-- A dependency that is not trivial calls for as many messages as there are data vertices
with the label of its center. -/
theorem length_messagesFor (data : Graph) (rule : Nat) (d : Dependency) :
    (messagesFor data rule d).length
      = if d.triviallyHolds data then 0 else centerCount data d := by
  unfold messagesFor centerCount
  split
  · rfl
  · cases center? d.pattern with
    | none => rfl
    | some c => simp only [List.length_map, length_withLabel]

/-- The searches for a dependency that holds find as many embeddings as the exhaustive
check. -/
theorem sum_embeddings_messagesFor (rule : Nat) (h : ¬ d.Violated data) :
    ((messagesFor data rule d).map fun msg => (runMessage data d msg).embeddings).sum
      = (checkExhaustive data d).2.embeddingsChecked := by
  by_cases htrivial : d.triviallyHolds data = true
  · rw [messagesFor, if_pos htrivial, checkExhaustive_of_triviallyHolds htrivial]
    rfl
  · obtain ⟨center, radius, hcenter⟩ := exists_center (by simpa using htrivial)
    have hlt := lt_size_of_center? hcenter
    have hlength := (@perm_flatMap_listedAt data d center hlt).length_eq
    rw [messagesFor, if_neg htrivial, hcenter, checkExhaustive_of_not_violated h, ← hlength,
      List.length_flatMap, List.map_map]
    refine congrArg List.sum (List.map_congr_left fun v _ => ?_)
    rw [Function.comp_apply, runMessage_of_not_violated hlt h]

end Rule

/-! ## What a worker does -/

section Worker

variable {data : Graph} {ds : List Dependency} (h : ∀ d ∈ ds, ¬ d.Violated data)

/-- The number of embeddings that the search of a message sees. -/
def embeddingsOf (data : Graph) (ds : List Dependency) (msg : Message) : Nat :=
  match ds[msg.rule]? with
  | none => 0
  | some d => (runMessage data d msg).embeddings

include h

/-- A worker that refutes nothing does the work of all of its messages. -/
theorem handleAll_eq {ms : List Message} (hms : ∀ msg ∈ ms, Called data ds msg) :
    handleAll data ds ms
      = .finished ([], ⟨ms.length, (ms.map (embeddingsOf data ds)).sum⟩) := by
  have hfold : ∀ s : Stats, ms.foldlM (handle data ds) ([], s)
      = .ok ([], s.add ⟨ms.length, (ms.map (embeddingsOf data ds)).sum⟩) := by
    induction ms with
    | nil => exact fun _ => rfl
    | cons msg rest ih =>
      intro s
      obtain ⟨hmsg, hrest⟩ := List.forall_mem_cons.mp hms
      obtain ⟨d, radius, hd, -, hcenter, -⟩ := hmsg
      have hrun := runMessage_of_not_violated (lt_size_of_center? hcenter)
        (h d (List.mem_of_getElem? hd))
      have hstep : handle data ds ([], s) msg
          = .ok ([], s.add ⟨1, embeddingsOf data ds msg⟩) := by
        simp [handle, embeddingsOf, hd, hrun]
      rw [List.foldlM_cons, hstep]
      refine (ih hrest _).trans ?_
      simp only [Stats.add, List.length_cons, List.map_cons, List.sum_cons, Nat.add_assoc,
        Nat.add_comm 1]
  rw [handleAll, hfold, Stats.add, Stats.zero, Nat.zero_add, Nat.zero_add]

end Worker

/-! ## The work for all dependencies -/

section Total

variable {data : Graph} {ds : List Dependency} {threads : Nat}

theorem map_zipIdx_fst {α β : Type} (xs : List α) (f : α → β) :
    xs.zipIdx.map (fun e => f e.1) = xs.map f := by
  conv_rhs => rw [← List.zipIdx_map_fst 0 xs, List.map_map]
  rfl

/-- Every dependency that is not trivial calls for its messages. -/
theorem length_messages (data : Graph) (ds : List Dependency) :
    (messages data ds).length
      = ((ds.filter fun d => !d.triviallyHolds data).map (centerCount data)).sum := by
  have hskip : ∀ ds : List Dependency,
      (ds.map fun d => if d.triviallyHolds data then 0 else centerCount data d).sum
        = ((ds.filter fun d => !d.triviallyHolds data).map (centerCount data)).sum := by
    intro ds
    induction ds with
    | nil => rfl
    | cons d rest ih => cases hd : d.triviallyHolds data <;> simp [hd, ih]
  rw [messages, List.length_flatMap, ← hskip, ← map_zipIdx_fst ds]
  simp only [length_messagesFor]

variable (h : ∀ d ∈ ds, ¬ d.Violated data)

include h

/-- All messages together see as many embeddings as the exhaustive check. -/
theorem sum_embeddings_messages :
    ((messages data ds).map (embeddingsOf data ds)).sum
      = (exhaustive data ds).2.embeddingsChecked := by
  have hrule : ∀ e ∈ ds.zipIdx, ((messagesFor data e.2 e.1).map (embeddingsOf data ds)).sum
      = (checkExhaustive data e.1).2.embeddingsChecked := by
    intro e he
    have hd : ds[e.2]? = some e.1 := List.mem_zipIdx_iff_getElem?.mp he
    rw [← sum_embeddings_messagesFor e.2 (h e.1 (List.mem_of_getElem? hd))]
    refine congrArg List.sum (List.map_congr_left fun msg hmsg => ?_)
    rw [embeddingsOf, rule_of_mem_messagesFor hmsg, hd]
  have hexhaustive : (exhaustive data ds).2.embeddingsChecked
      = (ds.map fun d => (checkExhaustive data d).2.embeddingsChecked).sum := by
    rw [exhaustive, collect, total_eq_sum]
    simp only [List.map_map]
    rfl
  rw [messages, List.map_flatMap, List.flatMap_def, List.sum_flatten, List.map_map, hexhaustive,
    ← map_zipIdx_fst ds]
  exact congrArg List.sum (List.map_congr_left hrule)

/-- What a worker finds that refutes nothing. -/
def workOf (data : Graph) (ds : List Dependency) (ms : List Message) : Findings :=
  ([], ⟨ms.length, (ms.map (embeddingsOf data ds)).sum⟩)

/-- The workers do the work of all of their messages. -/
theorem run_matching_assigned (hthreads : 0 < threads) :
    Phase.run "matching" ((assigned data ds threads).map (handleAll data ds))
      = .ok ((assigned data ds threads).map (workOf data ds)) := by
  have hworker : ∀ ms ∈ assigned data ds threads,
      handleAll data ds ms = .finished (workOf data ds ms) := fun ms hms =>
    handleAll_eq h fun msg hmsg =>
      (mem_assigned_iff hthreads).mp (List.mem_flatten_of_mem hms hmsg)
  rw [List.map_congr_left hworker, Phase.run_finished]

omit h in
/-- The workers together do the work of all messages. -/
theorem total_workOf (hthreads : 0 < threads) :
    Stats.total (((assigned data ds threads).map (workOf data ds)).map Prod.snd)
      = ⟨(messages data ds).length, ((messages data ds).map (embeddingsOf data ds)).sum⟩ := by
  have hperm := perm_assigned hthreads data ds
  rw [total_eq_sum, ← hperm.length_eq, ← (hperm.map _).sum_eq,
    List.length_flatten, List.map_flatten, List.sum_flatten]
  simp only [List.map_map]
  rfl

/-- Nothing is refuted. -/
theorem outcomes_exhaustive : (exhaustive data ds).1 = ds.map fun _ => .holds := by
  rw [exhaustive, collect, List.map_map]
  refine List.map_congr_left fun d hd => ?_
  rw [Function.comp_apply, checkExhaustive_of_not_violated (h d hd)]

end Total

/-- If every dependency holds and there is room for the lists of work, a distributed
validation makes one run for every dependency that is not trivial and every data vertex with
the label of its center, and tests as many embeddings as the exhaustive one; so its work does
not depend on the number of workers.  Without room there is no result. -/
theorem run_distributed_work (data : Graph) (ds : List Dependency)
    (hholds : ∀ d ∈ ds, ¬ d.Violated data) (threads : Nat) (hthreads : 0 < threads) :
    (Room ⟨.distributed, threads⟩ →
        run data ds ⟨.distributed, threads⟩
          = .ok (ds.map fun _ => .holds,
              ⟨((ds.filter fun d => !d.triviallyHolds data).map (centerCount data)).sum,
                (exhaustive data ds).2.embeddingsChecked⟩))
      ∧ (¬ Room ⟨.distributed, threads⟩ →
        run data ds ⟨.distributed, threads⟩ = .error (.capacity threads)) := by
  constructor
  · intro hroom
    obtain ⟨findings, hrun, houtcomes⟩ := @exists_findings_assigned data ds threads hthreads
    cases hrun.symm.trans (run_matching_assigned hholds hthreads)
    have hwork : (merge ds.length ((assigned data ds threads).map (workOf data ds))).2
        = ⟨((ds.filter fun d => !d.triviallyHolds data).map (centerCount data)).sum,
            (exhaustive data ds).2.embeddingsChecked⟩ := by
      rw [merge, total_workOf hthreads, length_messages, sum_embeddings_messages hholds]
    rw [run, distributed_eq hthreads (hroom rfl), hrun, ← outcomes_exhaustive hholds, ← houtcomes,
      ← hwork]
    rfl
  · exact run_of_not_room

/-- Three workers run once for each end of a segment. -/
theorem run_distributed_work_segment :
    let data := Graph.segment "a" "a" "e"
    let d : Dependency := ⟨data, [], [], by simp, by decide⟩
    (∀ d' ∈ [d], ¬ d'.Violated data) ∧ 0 < 3 ∧ Room ⟨.distributed, 3⟩
      ∧ run data [d] ⟨.distributed, 3⟩
        = .ok ([.holds], ⟨2, (exhaustive data [d]).2.embeddingsChecked⟩) := by
  intro data d
  have hholds : ∀ d' ∈ [d], ¬ d'.Violated data :=
    List.forall_mem_singleton.mpr (Dependency.not_violated_of_conclusion_eq_nil rfl)
  have hroom : Room ⟨.distributed, 3⟩ := by decide
  have hwork := (run_distributed_work data [d] hholds 3 (by decide)).1 hroom
  have hruns : (([d].filter fun d => !d.triviallyHolds data).map (centerCount data)).sum = 2 := by
    decide
  rw [hruns] at hwork
  exact ⟨hholds, by decide, hroom, hwork⟩

/-- One worker answers with its work, but so many workers have no room for their lists. -/
theorem run_distributed_crowded :
    let data := Graph.segment "a" "a" "e"
    let d : Dependency := ⟨data, [], [], by simp, by decide⟩
    let threads := 18446744073709551615
    (∀ d' ∈ [d], ¬ d'.Violated data) ∧ 0 < threads
      ∧ (∃ work, (run data [d] ⟨.distributed, 1⟩).map Prod.snd = .ok work)
      ∧ ¬ ∃ work, (run data [d] ⟨.distributed, threads⟩).map Prod.snd = .ok work := by
  intro data d threads
  have hroom : ¬ Room ⟨.distributed, threads⟩ := by decide
  obtain ⟨stats, hone⟩ := @run_eq_exhaustive data [d] ⟨.distributed, 1⟩ Nat.one_pos
    (by decide)
  refine ⟨List.forall_mem_singleton.mpr (Dependency.not_violated_of_conclusion_eq_nil rfl),
    by decide, ⟨stats, by rw [hone]; rfl⟩, ?_⟩
  rintro ⟨work, h⟩
  rw [run_of_not_room hroom] at h
  cases h

end GraphDependency.Validation
