import GraphDependency.Proofs.Validation.Exhaustive
import GraphDependency.Proofs.Validation.Messages

set_option autoImplicit false

/-!
# Sharing the work changes no outcome

An embedding sends the center of its pattern to one data vertex, and the message
with that data vertex finds it.  So a dependency is violated exactly if one of its
messages finds a counterexample, and it does not matter which worker is handed the
message.  A worker that leaves a message out has refuted the dependency already, and no
worker breaks down over a message, since each of them names a dependency.

Main statements: `stopped_runMessage_iff`, `exists_message_iff`, `exists_handleAll`
(a worker finishes, and what it finds) and, from them, `distributed_exact`.
-/

namespace GraphDependency

open GraphDependency.Matching

/-! ## Searches around a data vertex -/

namespace Matching

variable {pattern data : Graph} {c v : Nat} {m : Embedding}

/-- The embeddings found around a data vertex are those that send the center to
it. -/
theorem isEmbedding_pinned_iff (hc : c < pattern.size) :
    Query.IsEmbedding ⟨pattern, data, Query.pinned c v, Query.equalLabels⟩ m
      ↔ (Query.plain pattern data).IsEmbedding m ∧ m.image c = v := by
  have hpinned : ∀ u, Query.pinned c v u (m.image u) = true ↔ (u = c → m.image u = v) := by
    intro u
    simp only [Query.pinned, Bool.or_eq_true, bne_iff_ne, beq_iff_eq]
    exact Decidable.imp_iff_not_or.symm
  constructor
  · intro h
    exact ⟨⟨h.nonempty, h.size_eq, h.image_lt, h.injective, h.label_eq, fun _ _ => rfl,
      h.edge_ok⟩, (hpinned c).mp (h.vertex_ok c hc) rfl⟩
  · rintro ⟨h, himage⟩
    refine ⟨h.nonempty, h.size_eq, h.image_lt, h.injective, h.label_eq, ?_, h.edge_ok⟩
    intro u _
    exact (hpinned u).mpr fun hu => by rw [hu, himage]

end Matching

namespace Validation

/-! ## Messages and counterexamples -/

section Message

variable {data : Graph} {d : Dependency} {msg : Message}

/-- The search of a message stops at a counterexample with the center at its data
vertex. -/
theorem stopped_runMessage_iff (hcenter : msg.center < d.pattern.size) :
    (runMessage data d msg).stopped = true
      ↔ ∃ m, d.IsCounterexample data m ∧ m.image msg.center = msg.candidate := by
  have hroot : ∀ r ∈ some msg.center, r < d.pattern.size := by
    rintro r ⟨⟩
    exact hcenter
  rw [runMessage, forEachEmbedding_eq_runOver, stopped_runOver (halts_seekCounterexample d data) (),
    List.any_eq_true]
  refine exists_congr ?_
  intro m
  rw [mem_listed_iff hroot, isEmbedding_pinned_iff hcenter, Dependency.isCounterexample_iff,
    Bool.not_eq_true']
  exact and_right_comm

/-- A dependency is violated if one of its messages finds a counterexample. -/
theorem exists_message_iff (rule : Nat) :
    (∃ msg ∈ messagesFor data rule d, (runMessage data d msg).stopped = true)
      ↔ d.Violated data := by
  constructor
  · rintro ⟨msg, hmem, hstop⟩
    obtain ⟨-, center, radius, hcenter, v, -, rfl⟩ := mem_messagesFor_iff.mp hmem
    obtain ⟨m, hm, -⟩ := (stopped_runMessage_iff (lt_size_of_center? hcenter)).mp hstop
    exact ⟨m, hm⟩
  · intro hviolated
    have htrivial : d.triviallyHolds data = false := by
      rw [← Bool.not_eq_true]
      exact fun h => Dependency.not_violated_of_triviallyHolds h hviolated
    obtain ⟨m, hm⟩ := hviolated
    rcases hcenter : center? d.pattern with _ | ⟨center, radius⟩
    · exact absurd (center?_eq_none_iff.mp hcenter) hm.embedding.nonempty.ne'
    · have hlt := lt_size_of_center? hcenter
      have hlabel : m.image center ∈ data.withLabel (d.pattern.label center) :=
        (Graph.mem_withLabel_iff _).mpr ⟨hm.embedding.image_lt _ hlt, hm.embedding.label_eq _ hlt⟩
      refine ⟨⟨rule, center, m.image center⟩, ?_, (stopped_runMessage_iff hlt).mpr ⟨m, hm, rfl⟩⟩
      exact mem_messagesFor_iff.mpr ⟨htrivial, center, radius, hcenter, _, hlabel, rfl⟩

end Message

/-! ## What a worker finds -/

section Worker

variable {data : Graph} {ds : List Dependency} {found : Findings} {msg : Message}
  {ms : List Message} {lists : List (List Message)} {i : Nat}

/-- A message refutes the dependency at a position. -/
def Refutes (data : Graph) (ds : List Dependency) (i : Nat) (msg : Message) : Prop :=
  msg.rule = i ∧ ∃ d, ds[i]? = some d ∧ (runMessage data d msg).stopped = true

/-- A message that names a dependency adds the dependency if it refutes it, even if the message
is left out. -/
theorem exists_handle (hrule : msg.rule < ds.length) :
    ∃ found', handle data ds found msg = .ok found'
      ∧ ∀ i, i ∈ found'.1 ↔ i ∈ found.1 ∨ Refutes data ds i msg := by
  have hd : ds[msg.rule]? = some ds[msg.rule] := List.getElem?_eq_getElem hrule
  rw [handle, hd]
  split
  · rename_i hfound
    refine ⟨found, rfl, fun i => ⟨Or.inl, ?_⟩⟩
    rintro (h | ⟨rfl, -⟩)
    · exact h
    · exact List.contains_iff_mem.mp hfound
  · refine ⟨_, rfl, fun i => ?_⟩
    have hrefutes : Refutes data ds i msg
        ↔ msg.rule = i ∧ (runMessage data ds[msg.rule] msg).stopped = true := by
      refine and_congr_right ?_
      rintro rfl
      simp [hd]
    rw [hrefutes]
    dsimp only
    split
    · rename_i hstop
      rw [List.mem_cons, hstop, or_comm, eq_comm, and_iff_left rfl]
    · rename_i hstop
      simp [hstop]

/-- Over messages that name dependencies a worker finishes, and it has refuted what one of its
messages refutes. -/
theorem exists_handleAll (hms : ∀ msg ∈ ms, msg.rule < ds.length) :
    ∃ found, handleAll data ds ms = .finished found
      ∧ ∀ i, i ∈ found.1 ↔ ∃ msg ∈ ms, Refutes data ds i msg := by
  have hfold : ∀ start : Findings, ∃ found, ms.foldlM (handle data ds) start = .ok found
      ∧ ∀ i, i ∈ found.1 ↔ i ∈ start.1 ∨ ∃ msg ∈ ms, Refutes data ds i msg := by
    induction ms with
    | nil => exact fun start => ⟨start, rfl, by simp⟩
    | cons msg rest ih =>
      intro start
      obtain ⟨hmsg, hrest⟩ := List.forall_mem_cons.mp hms
      obtain ⟨next, hnext, hmem⟩ := exists_handle hmsg
      obtain ⟨found, hfound, hall⟩ := ih hrest next
      refine ⟨found, ?_, fun i => ?_⟩
      · rw [List.foldlM_cons, hnext]
        exact hfound
      · rw [hall, hmem, or_assoc, List.exists_mem_cons_iff]
  obtain ⟨found, hfound, hmem⟩ := hfold ([], .zero)
  refine ⟨found, by rw [handleAll, hfound], fun i => (hmem i).trans ?_⟩
  simp

/-- If all messages name dependencies, the phase of matching ends well, and the workers together
have refuted what some message refutes. -/
theorem exists_findings (hlists : ∀ ms ∈ lists, ∀ msg ∈ ms, msg.rule < ds.length) :
    ∃ findings, Phase.run "matching" (lists.map (handleAll data ds)) = .ok findings
      ∧ ∀ i, (findings.any fun f => f.1.contains i) = true
        ↔ ∃ msg ∈ lists.flatten, Refutes data ds i msg := by
  induction lists with
  | nil => exact ⟨[], rfl, by simp⟩
  | cons ms rest ih =>
    obtain ⟨hms, hrest⟩ := List.forall_mem_cons.mp hlists
    obtain ⟨found, hfound, hmem⟩ := exists_handleAll hms
    obtain ⟨findings, hrun, hall⟩ := ih hrest
    refine ⟨found :: findings, ?_, fun i => ?_⟩
    · rw [List.map_cons, Phase.run_cons, hfound, hrun]
      rfl
    · rw [List.any_cons, Bool.or_eq_true, hall, List.contains_iff_mem, hmem, List.flatten_cons]
      simp only [List.mem_append, or_and_right, exists_or]

end Worker

/-! ## What all workers find -/

section Workers

variable {data : Graph} {ds : List Dependency} {threads i : Nat}

/-- Some message refutes a dependency if it is violated. -/
theorem exists_refutes_iff (hi : i < ds.length) :
    (∃ msg ∈ messages data ds, Refutes data ds i msg) ↔ ds[i].Violated data := by
  have hget : ds[i]? = some ds[i] := List.getElem?_eq_getElem hi
  rw [← exists_message_iff i]
  constructor
  · rintro ⟨msg, hmem, rfl, d, hd, hstop⟩
    obtain ⟨d', hd', hmem⟩ := mem_messages_iff.mp hmem
    obtain rfl : d' = d := Option.some.inj (hd'.symm.trans hd)
    obtain rfl : d' = ds[msg.rule] := Option.some.inj (hd'.symm.trans hget)
    exact ⟨msg, hmem, hstop⟩
  · rintro ⟨msg, hmem, hstop⟩
    obtain rfl := rule_of_mem_messagesFor hmem
    exact ⟨msg, mem_messages_iff.mpr ⟨_, hget, hmem⟩, rfl, _, hget, hstop⟩

/-- The messages that the workers are handed name dependencies. -/
theorem rule_lt_of_mem_assigned (hthreads : 0 < threads) :
    ∀ ms ∈ assigned data ds threads, ∀ msg ∈ ms, msg.rule < ds.length := by
  intro ms hms msg hmsg
  have hmem := (perm_assigned hthreads data ds).mem_iff.mp (List.mem_flatten_of_mem hms hmsg)
  obtain ⟨d, hd, -⟩ := mem_messages_iff.mp hmem
  exact (List.getElem?_eq_some_iff.mp hd).1

/-- A validation with room for its lists is one of the messages that the workers are handed. -/
theorem distributed_eq (hthreads : 0 < threads)
    (hfits : Capacity.fits Capacity.listBytes threads = true) :
    distributed data ds threads
      = (Phase.run "matching" ((assigned data ds threads).map (handleAll data ds))).map
        (merge ds.length) := by
  rw [distributed, if_neg hthreads.ne', handOut_eq data ds hfits]
  change (Phase.run "matching" _).bind _ = _
  cases Phase.run "matching" ((assigned data ds threads).map (handleAll data ds)) <;> rfl

/-- No worker breaks down, and the workers together refute what is violated. -/
theorem exists_findings_assigned (hthreads : 0 < threads) :
    ∃ findings, Phase.run "matching" ((assigned data ds threads).map (handleAll data ds))
        = .ok findings
      ∧ (merge ds.length findings).1 = (exhaustive data ds).1 := by
  obtain ⟨findings, hrun, hany⟩ := exists_findings (rule_lt_of_mem_assigned hthreads)
  refine ⟨findings, hrun, ?_⟩
  rw [merge, exhaustive, collect]
  refine List.ext_getElem (by simp) ?_
  intro i hi hi'
  have hlt : i < ds.length := by simpa using hi
  simp only [List.getElem_map, List.getElem_range]
  refine outcome_ext ?_
  rw [checkExhaustive_iff, ← exists_refutes_iff hlt]
  simp only [← (perm_assigned hthreads data ds).mem_iff, ← hany]
  exact ite_eq_violated_iff

/-- With room for its lists, a validation has the outcomes of the exhaustive one. -/
theorem distributed_eq_exhaustive (hthreads : 0 < threads)
    (hfits : Capacity.fits Capacity.listBytes threads = true) :
    ∃ stats, distributed data ds threads = .ok ((exhaustive data ds).1, stats) := by
  obtain ⟨findings, hrun, houtcomes⟩ :=
    @exists_findings_assigned data ds threads hthreads
  rw [distributed_eq hthreads hfits, hrun, ← houtcomes]
  exact ⟨_, rfl⟩

/-- Whatever the number of workers is, if there is room for their lists the validation succeeds,
and its outcomes are those of the exhaustive one; so they are the same for any two such numbers.
Without room there is no result. -/
theorem distributed_exact (data : Graph) (ds : List Dependency) {threads : Nat}
    (hthreads : 0 < threads) :
    (Capacity.fits Capacity.listBytes threads = true →
        (∃ stats, distributed data ds threads = .ok ((exhaustive data ds).1, stats))
          ∧ ∀ others, 0 < others → Capacity.fits Capacity.listBytes others = true →
            (distributed data ds threads).map Prod.fst
              = (distributed data ds others).map Prod.fst)
      ∧ (Capacity.fits Capacity.listBytes threads ≠ true →
        distributed data ds threads = .error (.capacity threads)) := by
  refine ⟨fun hfits => ⟨distributed_eq_exhaustive hthreads hfits, ?_⟩,
    distributed_of_not_fits data ds⟩
  intro others hothers hfits'
  obtain ⟨stats, h⟩ := @distributed_eq_exhaustive data ds _ hthreads hfits
  obtain ⟨stats', h'⟩ := @distributed_eq_exhaustive data ds _ hothers hfits'
  rw [h, h']
  rfl

/-- Two workers find that a segment has a vertex without an attribute. -/
theorem distributed_exact_segment :
    let data := Graph.segment "a" "a" "e"
    let d : Dependency := ⟨data, [], [⟨.vertex 0 "x", .constant "1"⟩], by decide, by decide⟩
    0 < 2 ∧ Capacity.fits Capacity.listBytes 2 = true
      ∧ ∃ stats, distributed data [d] 2 = .ok ([.violated], stats) := by
  intro data d
  have hcounterexample : d.IsCounterexample data #[0, 1] :=
    ⟨isEmbedding_segment _ _ _, by decide, by decide⟩
  have houtcome : (exhaustive data [d]).1 = [.violated] :=
    congrArg (fun o => [o]) ((checkExhaustive_iff data d).mpr ⟨_, hcounterexample⟩)
  have hfits : Capacity.fits Capacity.listBytes 2 = true := by decide
  have h := ((distributed_exact data [d] Nat.two_pos).1 hfits).1
  rw [houtcome] at h
  exact ⟨Nat.two_pos, hfits, h⟩

/-- One worker finds it, but so many workers have no room for their lists. -/
theorem distributed_crowded :
    let data := Graph.segment "a" "a" "e"
    let d : Dependency := ⟨data, [], [⟨.vertex 0 "x", .constant "1"⟩], by decide, by decide⟩
    let threads := 18446744073709551615
    0 < threads ∧ (∃ result, distributed data [d] 1 = .ok result)
      ∧ ¬ ∃ result, distributed data [d] threads = .ok result := by
  intro data d threads
  obtain ⟨stats, hone⟩ := @distributed_eq_exhaustive data [d] 1 Nat.one_pos (by decide)
  refine ⟨by decide, ⟨_, hone⟩, fun ⟨result, h⟩ => ?_⟩
  rw [distributed_of_not_fits data [d] (by decide)] at h
  cases h

end Workers

end Validation

end GraphDependency
