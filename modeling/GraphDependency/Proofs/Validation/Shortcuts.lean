import GraphDependency.Proofs.Candidate.CoreOrder
import GraphDependency.Proofs.Validation.Indexed
import GraphDependency.Proofs.Counting
import Mathlib.Data.List.Permutation

set_option autoImplicit false

/-!
# What the indexed check counts

Where literals are about the core only, a placement of the core says of all its
extensions whether they satisfy the literals.  So when the check leaves out the forest
behind such a placement, the embeddings that it does not count are those of which the
core alone shows that they are no counterexamples.

Main statements: `eq_of_visitAll_countExtended` (what a run over placements of the core
counts) and `embeddingsChecked_checkIndexed`.
-/

namespace GraphDependency

open GraphDependency.Candidate GraphDependency.Matching GraphDependency.Matching.Placement
  GraphDependency.Pattern

namespace Dependency

/-- The literals refer to core vertices of the pattern only. -/
def OnCore (pattern : Graph) (literals : List Literal) : Prop :=
  ∀ l ∈ literals, ∀ u ∈ l.indices, u ∈ (decompose pattern).core

/-- The core alone shows that an embedding is no counterexample: the premises refer to
the core only and fail, or the conclusion refers to the core only and is satisfied. -/
def ClearedByCore (d : Dependency) (data : Graph) (m : Embedding) : Prop :=
  (OnCore d.pattern d.premises ∧ ∃ l ∈ d.premises, l.holds data m = false)
    ∨ (OnCore d.pattern d.conclusion ∧ ∀ l ∈ d.conclusion, l.holds data m = true)

end Dependency

namespace Validation

/-! ## Verdicts of the core -/

section Verdicts

variable {data : Graph} {d : Dependency} {m : Embedding} {literals : List Literal}

theorem onCore_iff {pattern : Graph} :
    onCore (decompose pattern) literals = true ↔ Dependency.OnCore pattern literals := by
  simp only [onCore, List.all_eq_true, marked_decompose pattern _, Dependency.OnCore]

theorem coreVerdict_eq_some_iff {decomposition : Decomposition} {value : Bool} :
    coreVerdict data decomposition m literals = some value
      ↔ onCore decomposition literals = true ∧ satisfied data m literals = value := by
  unfold coreVerdict
  split
  · rename_i hon
    simp [hon]
  · rename_i hon
    simp [hon]

theorem coreClears_iff :
    coreClears data d (decompose d.pattern) m = true ↔ d.ClearedByCore data m := by
  rw [coreClears, Bool.or_eq_true, beq_iff_eq, beq_iff_eq, coreVerdict_eq_some_iff,
    coreVerdict_eq_some_iff, onCore_iff, onCore_iff, Dependency.satisfied_eq_false_iff,
    satisfied_iff]
  exact Iff.rfl

end Verdicts

/-! ## Counting -/

/-- A run over placements that goes on to the end counts all of them. -/
theorem eq_of_visitAll_countTested {data : Graph} {d : Dependency} {count final : Nat}
    {ps : List Placement} (h : visitAll (countTested data d) count ps = .yield final) :
    final = count + ps.length := by
  induction ps generalizing count with
  | nil =>
    cases h
    rfl
  | cons p rest ih =>
    obtain ⟨mid, hmid, hrest⟩ := visitAll_cons_eq_yield_iff.mp h
    rw [countTested] at hmid
    split at hmid
    · cases hmid
      rw [ih hrest, List.length_cons]
      omega
    · cases hmid

/-- The forest behind the placement is left out. -/
def LeftOut (k : Course) (d : Dependency) (decomposition : Decomposition) (coreLength : Nat)
    (p : Placement) : Prop :=
  coreLength < k.length ∧ coreClears k.data d decomposition (p.toEmbedding d.pattern.size) = true

instance (k : Course) (d : Dependency) (decomposition : Decomposition) (coreLength : Nat)
    (p : Placement) : Decidable (LeftOut k d decomposition coreLength p) :=
  inferInstanceAs (Decidable (_ ∧ _))

/-- A run over placements of the core that goes on to the end counts the extensions that
are not left out, if leaving out does not depend on the extension. -/
theorem eq_of_visitAll_countExtended {k : Course} {d : Dependency} {decomposition : Decomposition}
    {coreLength count final : Nat} {ps : List Placement}
    (hsame : ∀ p ∈ ps, ∀ p' ∈ extended k coreLength p,
      LeftOut k d decomposition coreLength p' ↔ LeftOut k d decomposition coreLength p)
    (h : visitAll (countExtended k d decomposition coreLength) count ps = .yield final) :
    final = count + (ps.flatMap (extended k coreLength)).countP
      fun p => ¬ LeftOut k d decomposition coreLength p := by
  induction ps generalizing count with
  | nil =>
    cases h
    rfl
  | cons p rest ih =>
    obtain ⟨mid, hmid, hrest⟩ := visitAll_cons_eq_yield_iff.mp h
    obtain ⟨hp, hsame⟩ := List.forall_mem_cons.mp hsame
    rw [List.flatMap_cons, List.countP_append, ih hsame hrest, ← Nat.add_assoc]
    refine congrArg (· + _) ?_
    rw [countExtended] at hmid
    split at hmid
    · rename_i hout
      cases hmid
      have hnone : (extended k coreLength p).countP
          (fun p => ¬ LeftOut k d decomposition coreLength p) = 0 :=
        List.countP_eq_zero.mpr fun p' hp' => by simpa using (hp p' hp').mpr hout
      rw [hnone, Nat.add_zero]
    · rename_i hin
      have hall : (extended k coreLength p).countP
          (fun p => ¬ LeftOut k d decomposition coreLength p) = (extended k coreLength p).length :=
        List.countP_eq_length.mpr fun p' hp' => by simpa using fun hout => hin ((hp p' hp').mp hout)
      rw [hall, eq_of_visitAll_countTested hmid]

section Search

variable {data : Graph} {d : Dependency} {decomposition : Decomposition} {t : Tree} {i : Index}
  {order : Order} {count : Nat} (hpattern : t.pattern = d.pattern)
  (hcomplete : order.Complete t decomposition) (hmarked : decomposition.Marked)
  (hne : decomposition.core ≠ [])
  (hexact : (Query.plain t.pattern data).Exact Stop.vertex (choices data i) (Along t))

include hpattern hcomplete hmarked hne hexact

/-- A search that finds no counterexample counts the placements that are not left out. -/
theorem eq_of_searchIndexed
    (h : searchIndexed data d ⟨decomposition, t, i, order⟩ = .yield count) :
    count = (extensions Stop.vertex (choices data i) (stops t order) []).countP
      fun p => ¬ LeftOut (.ofOrder data i t order) d decomposition order.coreLength p := by
  rw [searchIndexed_eq hpattern hcomplete hmarked hne] at h
  rw [eq_of_visitAll_countExtended (fun p hp p' hp' => ?_) h, Nat.zero_add,
    ← stops_ofOrder data i t order, ← stopsFrom_append _ hcomplete.coreLength_le,
    extensions_append]
  · rw [← @length_ofOrder data i t order]
    rfl
  · have hcore := getElem?_core_of_mem_extended (d := d) hpattern hcomplete hexact hp hp'
    rw [LeftOut, LeftOut, coreClears, coreClears, coreVerdict_congr hmarked hcore,
      coreVerdict_congr hmarked hcore]

/-- A search that finds no counterexample counts the embeddings that the core does not
clear, or all of them if there is nothing behind the core. -/
theorem encard_of_searchIndexed
    (h : searchIndexed data d ⟨decomposition, t, i, order⟩ = .yield count) :
    {m | (Query.plain d.pattern data).IsEmbedding m
        ∧ ¬ (order.coreLength < order.sequence.length
          ∧ coreClears data d decomposition m = true)}.encard = count := by
  have hpos : 0 < t.pattern.size := by
    obtain ⟨c, hc⟩ := List.exists_mem_of_ne_nil _ hne
    exact Nat.zero_lt_of_lt
      (hcomplete.grown.lt_size c (List.mem_of_mem_take (hcomplete.core c hc)))
  have hlisted := fun m => hexact.mem_map_extensions_iff (along_stops hcomplete.grown)
    (perm_stops hcomplete) hpos (m := m)
  have hnodup := hexact.nodup_map_extensions (along_stops hcomplete.grown) (perm_stops hcomplete)
  have hcount := eq_of_searchIndexed hpattern hcomplete hmarked hne hexact h
  simp only [Query.plain, hpattern] at hlisted hnodup
  calc
    _ = {m | m ∈ ((extensions Stop.vertex (choices data i) (stops t order) []).map
          (toEmbedding d.pattern.size)).filter fun m =>
            ¬ (order.coreLength < order.sequence.length
              ∧ coreClears data d decomposition m = true)}.encard := by
      refine congrArg Set.encard (Set.ext fun m => ?_)
      rw [Set.mem_ofPred_eq, Set.mem_ofPred_eq, List.mem_filter, hlisted, decide_eq_true_eq]
      rfl
    _ = _ := encard_setOf_mem (hnodup.filter _)
    _ = count := by
      rw [← List.countP_eq_length_filter, List.countP_map, hcount]
      simp only [LeftOut, length_ofOrder]
      rfl

end Search

section Check

variable {data : Graph} {d : Dependency}

/-- Without a counterexample, the exhaustive check counts the embeddings. -/
theorem encard_isEmbedding (h : ¬ d.Violated data) :
    {m | (Query.plain d.pattern data).IsEmbedding m}.encard
      = (checkExhaustive data d).2.embeddingsChecked := by
  rw [checkExhaustive_of_not_violated h, reported_eq_listed, ← encard_setOf_mem (nodup_listed _ _)]
  exact congrArg Set.encard (Set.ext fun m => (mem_listed_iff (by simp)).symm)

theorem not_violated_of_checkIndexed (h : (checkIndexed data d).1 = .holds) :
    ¬ d.Violated data := fun hviolated => by
  rw [(checkIndexed_iff data d).mpr hviolated] at h
  cases h

/-- The check of a dependency that is not trivial and holds counts the embeddings that the
core does not clear, or all of them if there is no forest. -/
theorem checkIndexed_of_holds (hnontrivial : d.triviallyHolds data = false)
    (hholds : (checkIndexed data d).1 = .holds) :
    ∃ count, checkIndexed data d = (.holds, ⟨1, count⟩)
      ∧ {m | (Query.plain d.pattern data).IsEmbedding m
          ∧ ¬ ((decompose d.pattern).forest ≠ [] ∧ d.ClearedByCore data m)}.encard = count := by
  obtain ⟨t, ht, hroot, hprep⟩ := exists_prepare?_eq_some hnontrivial
  have hpattern := Tree.pattern_eq ht
  have ht' : Tree.build? t.pattern t.root = some t := hpattern ▸ ht
  have hconn : t.pattern.isConnected = true := hpattern ▸ d.connected
  have hcomplete := matchingOrder_complete ht' hconn ((Index.build data t).refine data t)
  have hlength := coreLength_lt_iff ht' hconn (by rwa [hpattern])
    ((Index.build data t).refine data t)
  rw [hpattern] at hcomplete hlength
  obtain ⟨count, hsearch, hcheck⟩ : ∃ count, searchIndexed data d
      ⟨decompose d.pattern, t, (Index.build data t).refine data t, matchingOrder t
        (decompose d.pattern) ((Index.build data t).refine data t)⟩ = .yield count
      ∧ checkIndexed data d = (.holds, ⟨1, count⟩) := by
    rw [checkIndexed, if_neg (by simp [hnontrivial]), hprep] at hholds ⊢
    simp only at hholds ⊢
    split at hholds
    · cases hholds
    · rename_i count hsearch
      exact ⟨count, hsearch, rfl⟩
  have hcounted := encard_of_searchIndexed hpattern hcomplete (marked_decompose d.pattern)
    (List.ne_nil_of_mem hroot) (exact_refine_build ht' hconn data) hsearch
  simp only [hlength, coreClears_iff] at hcounted
  exact ⟨count, hcheck, hcounted⟩

end Check

/-- A check of a dependency that is not trivial and holds is one run.  Without a forest it
counts all embeddings; otherwise it counts those that the core alone does not clear.  So it
never counts more than the exhaustive check, and counts as much exactly if there is no
forest or the core clears no embedding. -/
theorem embeddingsChecked_checkIndexed (data : Graph) (d : Dependency)
    (hnontrivial : d.triviallyHolds data = false) (hholds : (checkIndexed data d).1 = .holds) :
    let q := Query.plain d.pattern data
    let checked := (checkIndexed data d).2.embeddingsChecked
    (checkIndexed data d).2.matcherRuns = 1
      ∧ ((decompose d.pattern).forest = [] → {m | q.IsEmbedding m}.encard = checked)
      ∧ ((decompose d.pattern).forest ≠ [] →
          {m | q.IsEmbedding m ∧ ¬ d.ClearedByCore data m}.encard = checked)
      ∧ checked ≤ (checkExhaustive data d).2.embeddingsChecked
      ∧ (checked = (checkExhaustive data d).2.embeddingsChecked
          ↔ (decompose d.pattern).forest = []
            ∨ ∀ m, q.IsEmbedding m → ¬ d.ClearedByCore data m) := by
  intro q checked
  obtain ⟨count, hcheck, hcounted⟩ := checkIndexed_of_holds hnontrivial hholds
  have hall := encard_isEmbedding (not_violated_of_checkIndexed hholds)
  have hchecked : checked = count := by
    rw [show checked = (checkIndexed data d).2.embeddingsChecked from rfl, hcheck]
  rw [hchecked]
  have hsub : {m | q.IsEmbedding m ∧ ¬ ((decompose d.pattern).forest ≠ [] ∧ d.ClearedByCore data m)}
      ⊆ {m | q.IsEmbedding m} := fun _ hm => hm.1
  refine ⟨by rw [hcheck], fun hnil => ?_, fun hforest => ?_, ?_, ?_⟩
  · simpa [hnil] using hcounted
  · simpa [hforest] using hcounted
  · have hle := Set.encard_le_encard hsub
    rw [hall] at hle
    exact_mod_cast hcounted ▸ hle
  · have hsame : {m | q.IsEmbedding m
          ∧ ¬ ((decompose d.pattern).forest ≠ [] ∧ d.ClearedByCore data m)} = {m | q.IsEmbedding m}
        ↔ (decompose d.pattern).forest = [] ∨ ∀ m, q.IsEmbedding m → ¬ d.ClearedByCore data m := by
      rw [Set.ext_iff]
      by_cases hnil : (decompose d.pattern).forest = [] <;> simp [hnil]
    rw [← hsame, ← Nat.cast_inj (R := ENat), ← hcounted, ← hall]
    refine ⟨fun heq => ?_, congrArg Set.encard⟩
    exact (Set.finite_of_encard_eq_coe hcounted).eq_of_subset_of_encard_le hsub heq.ge

/-- A triangle with one more vertex at one of its corners. -/
def paw : Graph where
  vertices := #[⟨"a", .empty⟩, ⟨"a", .empty⟩, ⟨"a", .empty⟩, ⟨"a", .empty⟩]
  edges := #[⟨0, 1, "e"⟩, ⟨1, 2, "e"⟩, ⟨2, 0, "e"⟩, ⟨0, 3, "e"⟩]
  incidence := incidenceTable 4 #[⟨0, 1, "e"⟩, ⟨1, 2, "e"⟩, ⟨2, 0, "e"⟩, ⟨0, 3, "e"⟩]
  incidence_eq := rfl
  inRange := by simp
  loopless := by simp
  simple := by decide

/-- What hangs at a corner is peeled off. -/
theorem forest_paw : (decompose paw).forest ≠ [] := by
  have hforest : (decompose paw).forest = [[0, 3]] := by cbv
  rw [hforest]
  exact List.cons_ne_nil _ _

/-- Without literals the core clears all embeddings, so the forest is never searched. -/
theorem embeddingsChecked_checkIndexed_paw :
    let d : Dependency := ⟨paw, [], [], by simp, by decide⟩
    d.triviallyHolds paw = false ∧ (checkIndexed paw d).1 = .holds
      ∧ (decompose d.pattern).forest ≠ [] ∧ (checkIndexed paw d).2.embeddingsChecked = 0 := by
  intro d
  have hnontrivial : d.triviallyHolds paw = false := by decide
  have hholds : (checkIndexed paw d).1 = .holds := by
    cases houtcome : (checkIndexed paw d).1 with
    | holds => rfl
    | violated =>
      exact absurd ((checkIndexed_iff paw d).mp houtcome)
        (Dependency.not_violated_of_conclusion_eq_nil rfl)
  obtain ⟨-, -, hcount, -⟩ := embeddingsChecked_checkIndexed paw d hnontrivial hholds
  have hnone : {m | (Query.plain d.pattern paw).IsEmbedding m ∧ ¬ d.ClearedByCore paw m} = ∅ := by
    refine Set.eq_empty_of_forall_notMem fun m hm => hm.2 (Or.inr ⟨?_, ?_⟩)
    · simp [d, Dependency.OnCore]
    · simp [d]
  have hzero := hcount forest_paw
  rw [hnone, Set.encard_empty] at hzero
  exact ⟨hnontrivial, hholds, forest_paw, by exact_mod_cast hzero.symm⟩

end Validation

end GraphDependency
