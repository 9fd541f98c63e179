import GraphDependency.Proofs.Graph.Inside
import GraphDependency.Proofs.Validation.Distributed
import GraphDependency.Proofs.Validation.Indexed
import GraphDependency.Validation

set_option autoImplicit false

/-!
# Violations survive in other data

Matching does not ask that an edge be absent.  So a counterexample stays one where its vertices,
their attributes and the edges between them are found again: in a graph that has grown, in a
renumbered copy, for fewer premises and for a longer conclusion.

Main statements: `Dependency.Violated.transfer`, `satisfied_eq_filter` and, from them,
`leavesOut_transfer`.
-/

namespace GraphDependency

open GraphDependency.Matching

/-! ## Counterexamples in other data -/

section Transfer

variable {pattern data data' : Graph} {f : Nat → Nat} {m : Embedding} {u : Nat}
  {d d' : Dependency}

theorem image_map (hm : (Query.plain pattern data).IsEmbedding m) (hu : u < pattern.size)
    (f : Nat → Nat) : Embedding.image (m.map f) u = f (m.image u) := by
  have hlt : u < m.size := hm.size_eq.symm ▸ hu
  simp [Embedding.image, hlt]

/-- An embedding is carried along. -/
theorem Graph.MapsInto.isEmbedding (h : data.MapsInto data' f)
    (hm : (Query.plain pattern data).IsEmbedding m) :
    (Query.plain pattern data').IsEmbedding (m.map f) where
  nonempty := hm.nonempty
  size_eq := Array.size_map.trans hm.size_eq
  image_lt u hu := by
    rw [image_map hm hu]
    exact h.lt_size (hm.image_lt u hu)
  injective u hu w hw heq := by
    rw [image_map hm hu, image_map hm hw] at heq
    exact hm.injective u hu w hw (h.injective _ (hm.image_lt u hu) _ (hm.image_lt w hw) heq)
  label_eq u hu := by
    rw [image_map hm hu]
    exact (h.label_eq (hm.image_lt u hu)).trans (hm.label_eq u hu)
  vertex_ok _ _ := rfl
  edge_ok e he := by
    obtain ⟨hfirst, hsecond⟩ := pattern.inRange e he
    obtain ⟨label, hlabel, hok⟩ := hm.edge_ok e he
    rw [image_map hm hfirst, image_map hm hsecond]
    exact ⟨label, h.edgeLabel? hlabel, hok⟩

/-- Terms have the values that they had. -/
theorem Graph.MapsInto.resolve_map (h : data.MapsInto data' f)
    (hm : (Query.plain pattern data).IsEmbedding m) (t : Term) :
    t.resolve data' (m.map f) = t.resolve data m := by
  cases t with
  | constant value => rfl
  | vertex index name =>
    rw [Term.resolve, Term.resolve, Array.getElem?_map, Option.bind_map]
    refine Option.bind_congr fun v hv => h.value_eq ?_ name
    obtain ⟨hindex, hv⟩ := Array.getElem?_eq_some_iff.mp hv
    have himage : m.image index = v := by
      simp [Embedding.image, hindex, hv]
    exact himage ▸ hm.image_lt index (hm.size_eq ▸ hindex)

theorem Graph.MapsInto.holds_map (h : data.MapsInto data' f)
    (hm : (Query.plain pattern data).IsEmbedding m) (l : Literal) :
    l.holds data' (m.map f) = l.holds data m := by
  rw [Literal.holds, h.resolve_map hm, h.resolve_map hm, Literal.holds]

/-- A violation is found again in data that has what the data had, for the same pattern, some of
the premises and a conclusion that asks for more. -/
theorem Dependency.Violated.transfer (hmap : data.MapsInto data' f)
    (hpattern : d'.pattern = d.pattern) (hpremises : d'.premises ⊆ d.premises)
    (hconclusion : d.conclusion ⊆ d'.conclusion) (h : d.Violated data) : d'.Violated data' := by
  obtain ⟨m, hm, hholds, l, hl, hfails⟩ := h
  refine ⟨m.map f, ?_, fun l hl => ?_, l, hconclusion hl, ?_⟩
  · rw [hpattern]
    exact hmap.isEmbedding hm
  · rw [hmap.holds_map hm]
    exact hholds l (hpremises hl)
  · rwa [hmap.holds_map hm]

end Transfer

/-! ## What a validation leaves out -/

namespace Validation

variable {data data' : Graph} {ds : List Dependency} {d d' : Dependency} {c c' : Configuration}

/-- There is room for the lists of requests, one for each of the workers that share the work, if
they share it.  The threads themselves and their results are not counted. -/
def Room (c : Configuration) : Prop :=
  c.strategy = .distributed → Capacity.fits Capacity.listBytes c.threads = true

instance : DecidablePred Room := fun _ => inferInstanceAs (Decidable (_ → _))

/-- The outcomes of the indexed strategy are those of the exhaustive one. -/
theorem indexed_eq_exhaustive : (indexed data ds).1 = (exhaustive data ds).1 := by
  change (ds.map (checkIndexed data)).map Prod.fst = (ds.map (checkExhaustive data)).map Prod.fst
  rw [List.map_map, List.map_map]
  refine List.map_congr_left fun d _ => outcome_ext ?_
  exact (checkIndexed_iff data d).trans (checkExhaustive_iff data d).symm

/-- Every strategy that has room comes to the outcomes of the exhaustive one. -/
theorem run_eq_exhaustive (hthreads : 0 < c.threads) (hroom : Room c) :
    ∃ stats, run data ds c = .ok ((exhaustive data ds).1, stats) := by
  unfold run
  split
  · exact ⟨_, rfl⟩
  · rename_i hstrategy
    exact distributed_eq_exhaustive hthreads (hroom hstrategy)
  · rw [← indexed_eq_exhaustive]
    exact ⟨_, rfl⟩

theorem select_cons_map_succ (d : Dependency) (ds : List Dependency) (positions : List Nat) :
    select (d :: ds) (positions.map Nat.succ) = select ds positions := by
  rw [select, List.filterMap_map]
  rfl

/-- The dependencies at the positions that hold are the dependencies that hold. -/
theorem select_holding (outcome : Dependency → Outcome) (ds : List Dependency) :
    select ds ((List.range ds.length).filter fun i => (ds.map outcome)[i]? = some .holds)
      = ds.filter fun d => outcome d = .holds := by
  induction ds with
  | nil => rfl
  | cons d ds ih =>
    -- The positions after the first are those of the rest, moved by one.
    have hrest : select (d :: ds) (((List.range ds.length).map Nat.succ).filter fun i =>
        ((d :: ds).map outcome)[i]? = some .holds) = ds.filter fun d => outcome d = .holds := by
      rw [List.filter_map, select_cons_map_succ, ← ih]
      rfl
    rw [List.length_cons, List.range_succ_eq_map, List.filter_cons, List.filter_cons, ← hrest]
    by_cases hd : outcome d = .holds
    · simp [hd, select]
    · simp [hd]

/-- A validation keeps the dependencies that hold, whatever the strategy is. -/
theorem satisfied_eq_filter (hthreads : 0 < c.threads) (hroom : Room c) :
    satisfied data ds c
      = .ok (ds.filter fun d => (checkExhaustive data d).1 = .holds) := by
  obtain ⟨stats, hrun⟩ : ∃ stats, run data ds c = .ok ((exhaustive data ds).1, stats) :=
    run_eq_exhaustive hthreads hroom
  rw [satisfied, report, c.check_ok_iff.mpr hthreads, hrun, ← select_holding]
  simp [Except.map, Report.satisfiedIndices, Report.total, exhaustive, collect]

/-- Without room, there is no result. -/
theorem run_of_not_room (hroom : ¬Room c) : run data ds c = .error (.capacity c.threads) := by
  obtain ⟨hstrategy, hfits⟩ := Classical.not_imp.mp hroom
  rw [run, hstrategy]
  exact distributed_of_not_fits data ds hfits

theorem satisfied_of_not_room (hthreads : 0 < c.threads) (hroom : ¬Room c) :
    satisfied data ds c = .error (.capacity c.threads) := by
  rw [satisfied, report, c.check_ok_iff.mpr hthreads, run_of_not_room hroom]
  rfl

/-- A validation of the dependency alone gives a result, and the dependency is not in it. -/
def LeavesOut (data : Graph) (d : Dependency) (c : Configuration) : Prop :=
  ∃ kept, satisfied data [d] c = .ok kept ∧ d ∉ kept

/-- Only what is violated is left out. -/
theorem LeavesOut.violated (h : LeavesOut data d c) : d.Violated data := by
  obtain ⟨kept, hkept, hd⟩ := h
  have hthreads : 0 < c.threads := by
    refine Nat.pos_of_ne_zero fun hzero => ?_
    rw [satisfied, report, Configuration.check, if_pos hzero] at hkept
    cases hkept
  have hroom : Room c := by
    by_contra hroom
    rw [satisfied_of_not_room hthreads hroom] at hkept
    cases hkept
  rw [satisfied_eq_filter hthreads hroom, Except.ok.injEq] at hkept
  rw [← checkExhaustive_iff]
  cases houtcome : (checkExhaustive data d).1 with
  | violated => rfl
  | holds => exact absurd (hkept ▸ List.mem_filter.mpr ⟨List.mem_cons_self, by simp [houtcome]⟩) hd

theorem leavesOut_of_violated (hthreads : 0 < c.threads) (hroom : Room c) (h : d.Violated data) :
    LeavesOut data d c := by
  refine ⟨_, satisfied_eq_filter hthreads hroom, fun hd => ?_⟩
  have hholds := (List.mem_filter.mp hd).2
  rw [(checkExhaustive_iff data d).mpr h] at hholds
  cases hholds

/-- What one strategy leaves out, every strategy leaves out of data that has what the data had, for
the same pattern, some of the premises and a conclusion that asks for more; unless there is no
room for the lists of work, and then there is no result. -/
theorem leavesOut_transfer {f : Nat → Nat} (hmap : data.MapsInto data' f)
    (hpattern : d'.pattern = d.pattern) (hpremises : d'.premises ⊆ d.premises)
    (hconclusion : d.conclusion ⊆ d'.conclusion) (hout : LeavesOut data d c)
    (hthreads : 0 < c'.threads) :
    (Room c' → LeavesOut data' d' c')
      ∧ (¬Room c' → satisfied data' [d'] c' = .error (.capacity c'.threads)) := by
  have hviolated : d'.Violated data' :=
    hout.violated.transfer hmap hpattern hpremises hconclusion
  exact ⟨fun hroom => leavesOut_of_violated hthreads hroom hviolated,
    fun hroom => satisfied_of_not_room hthreads hroom⟩

/-- Two vertices without an attribute violate a dependency, and still do when the graph has grown
and the dependency asks for more. -/
theorem leavesOut_transfer_grown :
    let data := Graph.segment "a" "a" "e"
    let data' := data.afterAll [.vertex ⟨"b", .empty⟩, .edge ⟨2, 0, "e"⟩]
    let first : Literal := ⟨.vertex 0 "x", .constant "1"⟩
    let second : Literal := ⟨.vertex 1 "x", .constant "1"⟩
    let d : Dependency := ⟨data, [⟨.constant "1", .constant "1"⟩], [first], by decide, by decide⟩
    let d' : Dependency := ⟨data, [], [second, first], by decide, by decide⟩
    LeavesOut data d ⟨.naive, 1⟩ ∧ LeavesOut data' d' ⟨.distributed, 2⟩ := by
  intro data data' first second d d'
  have hviolated : d.Violated data := ⟨_, isEmbedding_segment _ _ _, by decide, by decide⟩
  have hout : LeavesOut data d ⟨.naive, 1⟩ :=
    leavesOut_of_violated Nat.one_pos (by decide) hviolated
  have hmap : data.MapsInto data' id := data.mapsInto_afterAll _
  have htransfer : (Room ⟨.distributed, 2⟩ → LeavesOut data' d' ⟨.distributed, 2⟩) ∧ _ :=
    leavesOut_transfer hmap (Eq.refl d.pattern) (List.nil_subset _) (by decide) hout Nat.two_pos
  exact ⟨hout, htransfer.1 (by decide)⟩

/-- One worker leaves a dependency out, but so many workers have no room for their lists. -/
theorem not_leavesOut_crowded :
    let data := Graph.segment "a" "a" "e"
    let d : Dependency := ⟨data, [], [⟨.vertex 0 "x", .constant "1"⟩], by decide, by decide⟩
    let c : Configuration := ⟨.index, 1⟩
    let c' : Configuration := ⟨.distributed, 18446744073709551615⟩
    data.MapsInto data id ∧ 0 < c.threads ∧ 0 < c'.threads
      ∧ LeavesOut data d c ∧ ¬LeavesOut data d c' := by
  intro data d c c'
  have hviolated : d.Violated data := ⟨_, isEmbedding_segment _ _ _, by decide, by decide⟩
  have hthreads : 0 < c'.threads := by decide
  refine ⟨data.mapsInto_id, Nat.one_pos, hthreads,
    leavesOut_of_violated Nat.one_pos (by decide) hviolated, fun ⟨kept, hkept, _⟩ => ?_⟩
  rw [satisfied_of_not_room hthreads (by decide)] at hkept
  cases hkept

end Validation

end GraphDependency
