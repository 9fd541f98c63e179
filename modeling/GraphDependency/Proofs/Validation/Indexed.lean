import GraphDependency.Proofs.Candidate.Enumeration
import GraphDependency.Proofs.Validation.Exhaustive
import GraphDependency.Validation.Indexed

set_option autoImplicit false

/-!
# The indexed check

The cursor of the indexed check visits the placements of the core, and behind each of
them those of the forest, like a search without a cursor would.  What literals about
the core say is the same for a placement of the core and for all its extensions, so
the placements that are left out hold no counterexample.

Main statements: `searchIndexed_eq` (the cursor visits placements) and
`checkIndexed_exact`.
-/

namespace GraphDependency.Validation

open GraphDependency.Candidate GraphDependency.Matching GraphDependency.Matching.Placement
  GraphDependency.Pattern

/-! ## Literals about some vertices -/

section Literals

variable {data : Graph} {m m' : Embedding}

theorem resolve_congr {term : Term} (h : ∀ u, term.index? = some u → m[u]? = m'[u]?) :
    term.resolve data m = term.resolve data m' := by
  cases term with
  | constant value => rfl
  | vertex index name =>
    rw [Term.resolve, Term.resolve, h index rfl]

/-- A literal depends on the images of the vertices that it refers to. -/
theorem holds_congr {l : Literal} (h : ∀ u ∈ l.indices, m[u]? = m'[u]?) :
    l.holds data m = l.holds data m' := by
  have hlhs : l.lhs.resolve data m = l.lhs.resolve data m' :=
    resolve_congr fun u hu => h u (by simp [Literal.indices, hu])
  have hrhs : l.rhs.resolve data m = l.rhs.resolve data m' :=
    resolve_congr fun u hu => h u (by simp [Literal.indices, hu])
  rw [Literal.holds, Literal.holds, hlhs, hrhs]

variable {decomposition : Decomposition} {literals : List Literal}
  (hmarked : decomposition.Marked) (hcore : ∀ u ∈ decomposition.core, m[u]? = m'[u]?)

include hmarked hcore

theorem satisfied_congr (hon : onCore decomposition literals = true) :
    satisfied data m literals = satisfied data m' literals := by
  have hholds : ∀ l ∈ literals, l.holds data m = l.holds data m' := by
    intro l hl
    have hl := List.all_eq_true.mp hon l hl
    exact holds_congr fun u hu => hcore u ((hmarked u).mp (List.all_eq_true.mp hl u hu))
  rw [satisfied, satisfied, Bool.eq_iff_iff, List.all_eq_true, List.all_eq_true]
  exact forall₂_congr fun l hl => by rw [hholds l hl]

/-- What is known from the core depends on the images of the core. -/
theorem coreVerdict_congr :
    coreVerdict data decomposition m literals = coreVerdict data decomposition m' literals := by
  unfold coreVerdict
  split
  · rename_i hon
    rw [satisfied_congr hmarked hcore hon]
  · rfl

/-- What is known from the core holds of all extensions. -/
theorem satisfied_eq_of_coreVerdict {value : Bool}
    (h : coreVerdict data decomposition m literals = some value) :
    satisfied data m' literals = value := by
  unfold coreVerdict at h
  split at h
  · rename_i hon
    rw [← satisfied_congr hmarked hcore hon]
    exact Option.some.inj h
  · cases h

end Literals

/-! ## Searching without a cursor -/

/-- Counts a placement of all vertices and goes on unless it is a counterexample. -/
def countTested (data : Graph) (d : Dependency) (count : Nat) (p : Placement) : ForInStep Nat :=
  if d.satisfiedBy data (p.toEmbedding d.pattern.size) then .yield (count + 1)
  else .done (count + 1)

theorem halts_countTested (data : Graph) (d : Dependency) (count : Nat) (p : Placement) :
    halts (countTested data d count p)
      = !d.satisfiedBy data (p.toEmbedding d.pattern.size) := by
  rw [countTested]
  cases d.satisfiedBy data (p.toEmbedding d.pattern.size) <;> rfl

/-- An assignment of the core shows that none of its extensions is a counterexample. -/
def coreClears (data : Graph) (d : Dependency) (decomposition : Decomposition)
    (m : Embedding) : Bool :=
  coreVerdict data decomposition m d.premises == some false
    || coreVerdict data decomposition m d.conclusion == some true

/-- The placements of the forest behind a placement of the core. -/
def extended (k : Course) (coreLength : Nat) (p : Placement) : List Placement :=
  extensions Stop.vertex (choices k.data k.index) (k.stopsFrom coreLength (k.length - coreLength)) p

/-- Tests the extensions of a placement of the core, unless it is cleared. -/
def countExtended (k : Course) (d : Dependency) (decomposition : Decomposition)
    (coreLength count : Nat) (p : Placement) : ForInStep Nat :=
  if coreLength < k.length ∧ coreClears k.data d decomposition (p.toEmbedding d.pattern.size) then
    .yield count
  else visitAll (countTested k.data d) count (extended k coreLength p)

section Search

variable {k : Course} {d : Dependency} {decomposition : Decomposition} {coreLength : Nat}
  (hk : k.Closed) (hsize : k.patternSize = d.pattern.size)
  (hcover : ∀ u < k.patternSize, ∃ pos < k.length, (k.stop pos).vertex = u)
  (hle : coreLength ≤ k.length)
  (hmarked : decomposition.Marked)
  (hcore : ∀ u ∈ decomposition.core, ∃ pos < coreLength, (k.stop pos).vertex = u)

theorem getElem?_toEmbedding {n u : Nat} (p : Placement) (hu : u < n) :
    (p.toEmbedding n)[u]? = some (p.image u) := by
  simp [toEmbedding, hu]

include hk hcore in
/-- Cursors with the same images at the positions of the core agree on the core. -/
theorem mapping_eq_on_core {c e : Cursor} (hvalid : c.Valid k) {pos : Nat} (hpos : coreLength ≤ pos)
    (hlen : pos ≤ k.length)
    (himage : ∀ q < coreLength, e.image (k.stop q).vertex = c.image (k.stop q).vertex) :
    ∀ u ∈ decomposition.core,
      c.mapping[u]? = ((e.placement k pos).toEmbedding k.patternSize)[u]? := by
  intro u hu
  obtain ⟨q, hq, rfl⟩ := hcore u hu
  have hlt := hk.vertex_lt q (by omega)
  rw [getElem?_toEmbedding _ hlt, Cursor.image_placement (by omega), himage q hq, Cursor.image,
    Array.getElem?_eq_getElem (by rwa [hvalid.size_mapping])]
  rfl

include hsize hcover in
/-- Testing what a cursor holds is testing its placement. -/
theorem testEmbedding_spec (count : Nat) {pos hi : Nat} {c : Cursor} (h : c.At k [] pos hi)
    (lo : Nat) :
    Cursor.Matches (· = c) (testEmbedding k d lo count c)
      (countTested k.data d count (c.placement k k.length)) := by
  rw [testEmbedding, countTested, Cursor.mapping_eq hcover h, hsize]
  split
  · exact ⟨rfl, rfl⟩
  · exact rfl

include hk hsize hle hmarked hcore in
/-- If the core satisfies the premises and fails the conclusion, its first extension is a
counterexample. -/
theorem next_forest_spec (count : Nat) {c : Cursor} (h : c.At k [] coreLength k.length)
    (hlt : coreLength < k.length)
    (hpremises : coreVerdict k.data decomposition c.mapping d.premises = some true)
    (hconclusion : coreVerdict k.data decomposition c.mapping d.conclusion = some false) :
    Cursor.Matches (fun c' => c'.At k [] coreLength k.length
        ∧ Cursor.Same k coreLength k.length c c')
      (match c.next k coreLength k.length false with
        | (true, c) => .done (count + 1, c.releaseRange coreLength k.length)
        | (false, c) => .yield (count, c))
      (visitAll (countTested k.data d) count
        (extended k coreLength (c.placement k coreLength))) := by
  have hanswer := Cursor.next_start_spec hk h hlt (Nat.le_refl _)
  rw [Course.offers_nil] at hanswer
  split
  · rename_i c' hnext
    rw [hnext] at hanswer
    obtain ⟨hat, hahead⟩ := hanswer.found rfl
    have hmapping := mapping_eq_on_core hk hcore (e := c') h.valid hle (Nat.le_refl _)
      fun q hq => hanswer.same.image q (by omega) (Or.inl hq)
    rw [hsize] at hmapping
    have htest : countTested k.data d count (c'.placement k k.length) = .done (count + 1) := by
      rw [countTested, if_neg]
      rw [Bool.not_eq_true, Dependency.satisfiedBy_eq_false_iff]
      exact ⟨satisfied_eq_of_coreVerdict hmarked hmapping hpremises,
        satisfied_eq_of_coreVerdict hmarked hmapping hconclusion⟩
    rw [extended, hahead, visitAll, htest]
    exact rfl
  · rename_i c' hnext
    rw [hnext] at hanswer
    obtain ⟨hat, hahead⟩ := hanswer.exhausted rfl
    rw [extended, hahead]
    exact ⟨rfl, hat, hanswer.same⟩

include hk hsize hcover in
/-- Visiting the forest behind a cursor is testing the extensions of its placement. -/
theorem visitForest_spec (count : Nat) {c : Cursor} (h : c.At k [] coreLength k.length)
    (hlt : coreLength < k.length) :
    Cursor.Matches (fun c' => c'.At k [] coreLength k.length
        ∧ Cursor.Same k coreLength k.length c c')
      (Cursor.visitRange k coreLength k.length (embeddingVisitor k d coreLength) count c)
      (visitAll (countTested k.data d) count
        (extended k coreLength (c.placement k coreLength))) := by
  have hvisit : ∀ count c, c.At k [] k.length k.length →
      Cursor.Matches (fun c' => c'.At k [] k.length k.length
          ∧ Cursor.Same k k.length k.length c c')
        ((embeddingVisitor k d coreLength).visit count c)
        (countTested k.data d count (c.placement k k.length)) := by
    intro count c hc
    refine (testEmbedding_spec hsize hcover count hc coreLength).imp ?_
    rintro c' rfl
    exact ⟨hc, .refl k _ _ c'⟩
  have hspec := Cursor.visitRange_spec hk hlt (Nat.le_refl _) hvisit count h
  rwa [Course.offers_nil] at hspec

include hk hsize hcover hle hmarked hcore in
/-- The test of a cursor that holds the core is the test of all extensions. -/
theorem testCore_spec (count : Nat) {c : Cursor} (h : c.At k [] coreLength coreLength) :
    Cursor.Matches (fun c' => c'.At k [] coreLength coreLength
        ∧ Cursor.Same k coreLength k.length c c')
      (testCore k d decomposition coreLength count c)
      (countExtended k d decomposition coreLength count (c.placement k coreLength)) := by
  have hat : c.At k [] coreLength k.length := h.of_nil hle
  rw [testCore]
  split
  · rename_i hlt
    -- The verdicts are those on the placement.
    have hmapping := mapping_eq_on_core hk hcore (e := c) h.valid (Nat.le_refl _) hle
      fun _ _ => rfl
    rw [hsize] at hmapping
    have hverdict : ∀ literals, coreVerdict k.data decomposition c.mapping literals
        = coreVerdict k.data decomposition
          ((c.placement k coreLength).toEmbedding d.pattern.size) literals :=
      fun _ => coreVerdict_congr hmarked hmapping
    split
    · rename_i hfails
      rw [hverdict] at hfails
      rw [countExtended, if_pos ⟨hlt, by rw [coreClears, hfails]; rfl⟩]
      exact ⟨rfl, h, .refl k _ _ c⟩
    · rename_i hholds _
      rw [hverdict] at hholds
      rw [countExtended, if_pos ⟨hlt, by rw [coreClears, hholds]; simp⟩]
      exact ⟨rfl, h, .refl k _ _ c⟩
    · rename_i hholds hfails
      have hspec := next_forest_spec hk hsize hle hmarked hcore count hat hlt hholds hfails
      rw [hverdict] at hholds hfails
      rw [countExtended, if_neg (by rw [coreClears, hholds, hfails]; simp)]
      exact hspec.imp fun c' hc' => ⟨hc'.1.of_nil (Nat.le_refl _), hc'.2⟩
    · rename_i hfails hholds _
      rw [hverdict] at hfails
      rw [hverdict] at hholds
      rw [countExtended, if_neg (by simpa [coreClears] using fun _ => ⟨hfails, hholds⟩)]
      have hspec := visitForest_spec hk hsize hcover count hat hlt
      exact hspec.imp fun c' hc' => ⟨hc'.1.of_nil (Nat.le_refl _), hc'.2⟩
  · rename_i hge
    obtain rfl : coreLength = k.length := by omega
    have hspec := testEmbedding_spec hsize hcover count h k.length
    have hextended : extended k k.length (c.placement k k.length) = [c.placement k k.length] := by
      rw [extended, Nat.sub_self]
      rfl
    rw [countExtended, if_neg (by simp), hextended, visitAll_singleton]
    refine hspec.imp ?_
    rintro c' rfl
    exact ⟨h, .refl k _ _ c'⟩

include hk hsize hcover hle hmarked hcore in
/-- Visiting the core of a new cursor is visiting the placements of the core. -/
theorem visitCore_start (hpos : 0 < coreLength) :
    Cursor.Matches (fun _ => True)
      (Cursor.visitRange k 0 coreLength
        ⟨testCore k d decomposition coreLength, testCore_frame⟩ 0 (.start k))
      (visitAll (countExtended k d decomposition coreLength) 0
        (extensions Stop.vertex (choices k.data k.index) (k.stopsFrom 0 coreLength) [])) := by
  have hspec := Cursor.visitRange_spec hk hpos hle
    (v := ⟨testCore k d decomposition coreLength, testCore_frame⟩)
    (fun count c hc => testCore_spec hk hsize hcover hle hmarked hcore count hc) 0
    (Cursor.at_start k coreLength)
  rw [Course.offers_nil, Nat.sub_zero] at hspec
  exact hspec.imp fun _ _ => trivial

end Search

/-! ## What the search finds -/

section Found

variable {data : Graph} {d : Dependency} {decomposition : Decomposition} {t : Tree} {i : Index}
  {order : Order} (hpattern : t.pattern = d.pattern) (hcomplete : order.Complete t decomposition)
  (hmarked : decomposition.Marked) (hne : decomposition.core ≠ [])

include hpattern hcomplete hmarked hne

/-- The search along an order visits the placements of the core. -/
theorem searchIndexed_eq :
    searchIndexed data d ⟨decomposition, t, i, order⟩
      = visitAll (countExtended (.ofOrder data i t order) d decomposition order.coreLength) 0
          (extensions Stop.vertex (choices data i)
            ((Course.ofOrder data i t order).stopsFrom 0 order.coreLength) []) := by
  obtain ⟨c, hc⟩ := List.exists_mem_of_ne_nil _ hne
  have hpos : 0 < order.coreLength := by
    obtain ⟨pos, hpos, -⟩ := exists_core_stop_ofOrder data i hcomplete c hc
    omega
  have hvisit := visitCore_start (d := d) (closed_ofOrder data i hcomplete.grown)
    (congrArg Graph.size hpattern) (exists_stop_ofOrder data i hcomplete)
    (by rw [length_ofOrder]; exact hcomplete.coreLength_le) hmarked
    (exists_core_stop_ofOrder data i hcomplete) hpos
  exact hvisit.forget_eq

variable (hexact : (Query.plain t.pattern data).Exact Stop.vertex (choices data i) (Along t))

omit hpattern hcomplete hmarked hne hexact in
/-- A placement and its extensions agree on what is placed. -/
theorem getElem?_of_suffix {p p' : Placement} {n u : Nat} (h : p <:+ p') (hnodup : p'.keys.Nodup)
    (hu : u ∈ p.keys) (hlt : u < n) : (p.toEmbedding n)[u]? = (p'.toEmbedding n)[u]? := by
  have hp : p.keys.Nodup := hnodup.sublist (h.sublist.map Prod.fst)
  have hmem : (u, p.image u) ∈ p' := h.subset (mem_of_mem_keys hp hu)
  rw [getElem?_toEmbedding p hlt, getElem?_toEmbedding p' hlt, image_of_mem hnodup hmem]

omit hpattern hmarked hne in
include hexact in
/-- The extensions of a placement of the core place different vertices. -/
theorem nodup_keys_of_mem_extended {p p' : Placement}
    (hp : p ∈ extensions Stop.vertex (choices data i)
      ((Course.ofOrder data i t order).stopsFrom 0 order.coreLength) [])
    (hp' : p' ∈ extended (.ofOrder data i t order) order.coreLength p) : p'.keys.Nodup := by
  have hmem : p' ∈ extensions Stop.vertex (choices data i) (stops t order) [] := by
    rw [← stops_ofOrder data i t order, ← stopsFrom_append _ hcomplete.coreLength_le,
      extensions_append]
    refine List.mem_flatMap.mpr ⟨p, hp, ?_⟩
    rwa [extended, length_ofOrder] at hp'
  exact (hexact.isPartial (along_stops hcomplete.grown) hmem).nodup_keys

omit hmarked hne in
include hexact in
/-- A placement of the core and its extensions have the same images of the core. -/
theorem getElem?_core_of_mem_extended {p p' : Placement}
    (hp : p ∈ extensions Stop.vertex (choices data i)
      ((Course.ofOrder data i t order).stopsFrom 0 order.coreLength) [])
    (hp' : p' ∈ extended (.ofOrder data i t order) order.coreLength p) :
    ∀ u ∈ decomposition.core,
      (p.toEmbedding d.pattern.size)[u]? = (p'.toEmbedding d.pattern.size)[u]? := by
  intro u hu
  have hlt : u < d.pattern.size := by
    rw [← hpattern]
    exact hcomplete.grown.lt_size u (List.mem_of_mem_take (hcomplete.core u hu))
  refine getElem?_of_suffix (suffix_of_mem_extensions hp')
    (nodup_keys_of_mem_extended hcomplete hexact hp hp') ?_ hlt
  obtain ⟨pos, hpos, rfl⟩ := exists_core_stop_ofOrder data i hcomplete u hu
  rw [keys_of_mem_extensions hp, List.mem_append, List.mem_reverse, Course.stopsFrom,
    List.map_map]
  exact Or.inl (List.mem_map.mpr ⟨pos, by simpa using hpos, rfl⟩)

omit hne in
include hexact in
/-- Every extension of a placement of the core decides for itself: if the core clears
them all, none is a counterexample. -/
theorem halts_countExtended {p : Placement}
    (hp : p ∈ extensions Stop.vertex (choices data i)
      ((Course.ofOrder data i t order).stopsFrom 0 order.coreLength) []) (count : Nat) :
    halts (countExtended (.ofOrder data i t order) d decomposition order.coreLength count p)
      = (extended (.ofOrder data i t order) order.coreLength p).any
          fun p => !d.satisfiedBy data (p.toEmbedding d.pattern.size) := by
  rw [countExtended]
  split
  · rename_i hclears
    rw [eq_comm, halts, List.any_eq_false]
    intro p' hp'
    have hcore := getElem?_core_of_mem_extended (d := d) hpattern hcomplete hexact hp hp'
    rw [coreClears, Bool.or_eq_true, beq_iff_eq, beq_iff_eq] at hclears
    rw [Bool.not_eq_true', Bool.not_eq_false, Dependency.satisfiedBy, Bool.or_eq_true,
      Bool.not_eq_true']
    exact hclears.2.imp (satisfied_eq_of_coreVerdict hmarked hcore)
      (satisfied_eq_of_coreVerdict hmarked hcore)
  · exact halts_visitAll (fun count p' _ => halts_countTested data d count p') count

include hexact in
/-- The search along any complete order finds the violations. -/
theorem halts_searchIndexed_iff :
    halts (searchIndexed data d ⟨decomposition, t, i, order⟩) = true ↔ d.Violated data := by
  have hlist : ∀ m, m ∈ (extensions Stop.vertex (choices data i) (stops t order) []).map
      (toEmbedding d.pattern.size) ↔ (Query.plain d.pattern data).IsEmbedding m := by
    intro m
    rw [← hpattern]
    refine hexact.mem_map_extensions_iff (along_stops hcomplete.grown) (perm_stops hcomplete) ?_
    obtain ⟨c, hc⟩ := List.exists_mem_of_ne_nil _ hne
    exact Nat.zero_lt_of_lt
      (hcomplete.grown.lt_size c (List.mem_of_mem_take (hcomplete.core c hc)))
  rw [← Dependency.any_iff_violated hlist, searchIndexed_eq hpattern hcomplete hmarked hne,
    halts_visitAll
      (fun count p hp => halts_countExtended hpattern hcomplete hmarked hexact hp count),
    List.any_map, ← stops_ofOrder data i t order,
    ← stopsFrom_append _ hcomplete.coreLength_le, extensions_append, List.any_flatMap]
  simp only [extended, length_ofOrder]
  exact Iff.rfl

end Found

/-! ## The check -/

/-- Every pattern with vertices can be made ready. -/
theorem prepare?_isSome (data : Graph) {pattern : Graph} (h : 0 < pattern.size) :
    (prepare? data pattern).isSome = true := by
  have hs := @selectRoot?_isSome pattern data _ (core_ne_nil h) fun u hu => mem_core_lt hu
  obtain ⟨root, hroot⟩ := Option.isSome_iff_exists.mp hs
  have hlt := (mem_of_selectRoot? hroot).2
  simp [prepare?, hroot, prepareFrom?, Tree.build?, hlt]

/-- The pattern of a dependency that is not trivial is made ready from a vertex of its
core. -/
theorem exists_prepare?_eq_some {data : Graph} {d : Dependency}
    (h : d.triviallyHolds data = false) :
    ∃ t, Tree.build? d.pattern t.root = some t ∧ t.root ∈ (decompose d.pattern).core
      ∧ prepare? data d.pattern
        = some ⟨decompose d.pattern, t, (Index.build data t).refine data t,
            matchingOrder t (decompose d.pattern) ((Index.build data t).refine data t)⟩ := by
  have hpos : 0 < d.pattern.size := Nat.pos_of_ne_zero fun hzero => by
    rw [Dependency.triviallyHolds_iff.mpr (Or.inl hzero)] at h
    cases h
  obtain ⟨prep, hprep⟩ := Option.isSome_iff_exists.mp (prepare?_isSome data hpos)
  obtain ⟨root, hselect, hfrom⟩ := Option.bind_eq_some_iff.mp hprep
  obtain ⟨t, ht, rfl⟩ := Option.map_eq_some_iff.mp hfrom
  obtain rfl := Tree.root_eq ht
  exact ⟨t, ht, (mem_of_selectRoot? hselect).1, hprep⟩

/-- The search finds the violations from every root and along every complete order. -/
theorem halts_searchIndexed_of_build {data : Graph} {d : Dependency} {root : Nat} {t : Tree}
    {order : Order} (ht : Tree.build? d.pattern root = some t)
    (hcomplete : order.Complete t (decompose d.pattern)) :
    halts (searchIndexed data d
        ⟨decompose d.pattern, t, (Index.build data t).refine data t, order⟩) = true
      ↔ d.Violated data := by
  have hpattern := Tree.pattern_eq ht
  obtain rfl := Tree.root_eq ht
  exact halts_searchIndexed_iff hpattern hcomplete (marked_decompose d.pattern)
    (core_ne_nil (Nat.zero_lt_of_lt (Tree.root_lt ht)))
    (exact_refine_build (hpattern ▸ ht) (hpattern ▸ d.connected) data)

theorem checkIndexed_iff (data : Graph) (d : Dependency) :
    (checkIndexed data d).1 = .violated ↔ d.Violated data := by
  unfold checkIndexed
  split
  · rename_i htrivial
    simp [Dependency.not_violated_of_triviallyHolds htrivial]
  · rename_i hnontrivial
    obtain ⟨t, ht, -, hprep⟩ := exists_prepare?_eq_some (by simpa using hnontrivial)
    have hpattern := Tree.pattern_eq ht
    have hcomplete := matchingOrder_complete (hpattern ▸ ht) (hpattern ▸ d.connected)
      ((Index.build data t).refine data t)
    rw [hpattern] at hcomplete
    rw [← halts_searchIndexed_of_build ht hcomplete, hprep]
    simp only
    cases searchIndexed data d _ <;> simp [halts]

/-- The indexed check says that a dependency is violated if it is, like the exhaustive one.
Every pattern with vertices can be made ready for it, and neither the root nor the order
of assignment matters. -/
theorem checkIndexed_exact (data : Graph) (d : Dependency) :
    (0 < d.pattern.size →
        (decompose d.pattern).core ≠ [] ∧ (prepare? data d.pattern).isSome = true)
      ∧ ((checkIndexed data d).1 = .violated ↔ d.Violated data)
      ∧ (checkIndexed data d).1 = (checkExhaustive data d).1
      ∧ ∀ root t order, Tree.build? d.pattern root = some t →
          order.Complete t (decompose d.pattern) →
          (halts (searchIndexed data d
              ⟨decompose d.pattern, t, (Index.build data t).refine data t, order⟩) = true
            ↔ d.Violated data) := by
  refine ⟨fun hpos => ⟨core_ne_nil hpos, prepare?_isSome data hpos⟩, checkIndexed_iff data d,
    outcome_ext ?_, fun root t order ht hcomplete => halts_searchIndexed_of_build ht hcomplete⟩
  rw [checkIndexed_iff, checkExhaustive_iff]

end GraphDependency.Validation
