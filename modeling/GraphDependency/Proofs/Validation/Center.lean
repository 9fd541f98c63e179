import GraphDependency.Proofs.Pattern.Forest
import GraphDependency.Proofs.Selection
import GraphDependency.Proofs.Validation.Ball
import GraphDependency.Proofs.Validation.Exhaustive
import GraphDependency.Proofs.Validation.Messages

set_option autoImplicit false

/-!
# Embeddings are local

An embedding carries walks of the pattern along, so it keeps every vertex as near to the
center as it is in the pattern.  All images lie in the ball of the pattern's radius around the
image of the center, and so do the images of the edges: the search around that data vertex is
weighed with at least the size of the pattern.

Main statements: `isEccentricity_iff`, `IsEmbedding.within` and `center?_local`.
-/

namespace GraphDependency

open GraphDependency.Matching

/-! ## Eccentricity -/

namespace Graph

/-- A vertex is at this distance, and none that can be reached is further away. -/
def IsEccentricity (g : Graph) (u r : Nat) : Prop :=
  IsGreatest {n | ∃ w, g.AtDistance (· < g.size) u n w} r

variable {g : Graph} {i u r : Nat}

theorem ne_nil_of_mem_spread {depth : Nat} {frontier unseen layer : List Nat}
    (h : layer ∈ g.spread depth frontier unseen) : layer ≠ [] := by
  induction depth generalizing frontier unseen with
  | zero => cases h
  | succ depth ih =>
    simp only [spread] at h
    split at h
    · cases h
    · rename_i hnext
      rcases List.mem_cons.mp h with rfl | h
      · exact fun hnil => hnext (List.isEmpty_iff.mpr hnil)
      · exact ih h

/-- There are as many layers as distances. -/
theorem lt_length_layers_iff :
    i < (g.layers u).length ↔ ∃ w, g.AtDistance (· < g.size) u i w := by
  constructor
  · intro hi
    have hlayer : (g.layers u)[i] ≠ [] := by
      rcases List.mem_cons.mp (List.getElem_mem hi) with heq | hmem
      · rw [heq]
        exact List.cons_ne_nil u []
      · exact ne_nil_of_mem_spread hmem
    obtain ⟨w, hw⟩ := List.exists_mem_of_ne_nil _ hlayer
    exact ⟨w, mem_layers_iff.mp ⟨_, List.getElem?_eq_getElem hi, hw⟩⟩
  · rintro ⟨w, hw⟩
    obtain ⟨layer, hlayer, -⟩ := mem_layers_iff.mpr hw
    exact (List.getElem?_eq_some_iff.mp hlayer).1

/-- The distance of the last layer is the greatest one. -/
theorem isEccentricity_iff : g.IsEccentricity u r ↔ r = g.eccentricity u := by
  have hgreatest : g.IsEccentricity u (g.eccentricity u) := by
    have hpos : 0 < (g.layers u).length := Nat.succ_pos _
    constructor
    · exact lt_length_layers_iff.mp (Nat.sub_lt hpos Nat.one_pos)
    · exact fun n hn => Nat.le_sub_one_of_lt (lt_length_layers_iff.mpr hn)
  constructor
  · exact fun h => h.unique hgreatest
  · rintro rfl
    exact hgreatest

end Graph

/-! ## The center -/

namespace Validation

open GraphDependency.Graph

variable {pattern data : Graph} {u center radius : Nat}

/-- The center is the first vertex of the least eccentricity. -/
theorem center?_least (h : center? pattern = some (center, radius)) :
    center < pattern.size ∧ radius = pattern.eccentricity center
      ∧ ∀ u < pattern.size, radius ≤ pattern.eccentricity u
        ∧ (u < center → radius < pattern.eccentricity u) := by
  obtain ⟨i, hi, hleast, hbefore⟩ := exists_getElem?_of_firstBest? h
  have hat : ∀ u < pattern.size, (pattern.ids.map fun u => (u, pattern.eccentricity u))[u]?
      = some (u, pattern.eccentricity u) := by
    intro u hu
    rw [List.getElem?_map, ids, List.getElem?_range hu, Option.map_some]
  have hlt : i < pattern.size := by
    have := (List.getElem?_eq_some_iff.mp hi).1
    simpa [ids] using this
  obtain ⟨rfl, rfl⟩ := Prod.mk.inj (Option.some.inj ((hat i hlt).symm.trans hi))
  refine ⟨hlt, rfl, fun u hu => ⟨?_, fun hbelow => ?_⟩⟩
  · exact hleast _ (List.mem_of_getElem? (hat u hu))
  · exact hbefore u _ hbelow (hat u hu)

/-- Around the center of a connected pattern, all vertices are within the radius. -/
theorem within_center (h : center? pattern = some (center, radius))
    (hconn : pattern.isConnected = true) (hu : u < pattern.size) :
    pattern.Within radius center u := by
  obtain ⟨hlt, hradius, -⟩ := center?_least h
  obtain ⟨n, hn⟩ := isConnected_iff.mp hconn center hlt u hu
  obtain ⟨d, -, hd⟩ := Walk.exists_atDistance hn
  exact ⟨d, (isEccentricity_iff.mpr hradius).2 ⟨u, hd⟩, hd.1⟩

end Validation

/-! ## Images of walks and edges -/

/-- An edge between the images of the ends. -/
def Embedding.imageEdge (m : Embedding) (e : Edge) : Edge :=
  ⟨m.image e.first, m.image e.second, e.label⟩

namespace Matching.Query.IsEmbedding

open GraphDependency.Graph GraphDependency.Validation

variable {q : Query} {m : Embedding} (h : q.IsEmbedding m) {c n r u w : Nat}

include h

theorem hops (hwalk : q.pattern.Hops u n w) : q.data.Hops (m.image u) n (m.image w) := by
  induction n generalizing w with
  | zero => exact congrArg m.image hwalk
  | succ n ih =>
    obtain ⟨hw, c, hc, hcw⟩ := hwalk
    exact ⟨h.image_lt w hw, m.image c, ih hc, h.mem_neighbors hcw⟩

theorem within (hnear : q.pattern.Within r u w) : q.data.Within r (m.image u) (m.image w) := by
  obtain ⟨n, hn, hwalk⟩ := hnear
  exact ⟨n, hn, h.hops hwalk⟩

/-- Different edges go between different vertices. -/
theorem injOn_ascendingEnds_imageEdge :
    Set.InjOn (ascendingEnds ∘ m.imageEdge) {e | e ∈ q.pattern.edges} := by
  intro e he f hf heq
  obtain ⟨hefirst, hesecond⟩ := q.pattern.inRange e he
  obtain ⟨hffirst, hfsecond⟩ := q.pattern.inRange f hf
  refine eq_of_joins_ends he hf ?_
  rcases ascendingEnds_eq_iff.mp heq with ⟨h₁, h₂⟩ | ⟨h₁, h₂⟩
  · exact Or.inl ⟨h.injective _ hefirst _ hffirst h₁, h.injective _ hesecond _ hfsecond h₂⟩
  · exact Or.inr ⟨h.injective _ hefirst _ hfsecond h₁, h.injective _ hesecond _ hffirst h₂⟩

variable {inside : Nat → Prop} (hinside : ∀ u < q.pattern.size, inside (m.image u))

include hinside

/-- Between the images of the ends there is an edge of the data graph. -/
theorem exists_mem_edgesAmong {e : Edge} (he : e ∈ q.pattern.edges) :
    ∃ f ∈ q.data.edgesAmong inside, ascendingEnds f = ascendingEnds (m.imageEdge e) := by
  obtain ⟨label, hlabel, -⟩ := h.edge_ok e he
  obtain ⟨f, hf, hjoins, -⟩ := q.data.edgeLabel?_eq_some_iff.mp hlabel
  obtain ⟨hfirst, hsecond⟩ := q.pattern.inRange e he
  have hends : inside f.first ∧ inside f.second := by
    rcases hjoins with ⟨h₁, h₂⟩ | ⟨h₁, h₂⟩ <;> rw [h₁, h₂]
    · exact ⟨hinside _ hfirst, hinside _ hsecond⟩
    · exact ⟨hinside _ hsecond, hinside _ hfirst⟩
  exact ⟨f, ⟨hf, hends⟩, ascendingEnds_eq_iff.mpr hjoins⟩

/-- Different vertices have different images. -/
theorem size_le_encard : (q.pattern.size : ℕ∞) ≤ {v | inside v}.encard := by
  have hnodup := h.nodup_map_image q.pattern.nodup_ids fun u hu => (mem_ids _).mp hu
  have himages : {v | v ∈ q.pattern.ids.map m.image} ⊆ {v | inside v} := by
    intro v hv
    obtain ⟨u, hu, rfl⟩ := List.mem_map.mp hv
    exact hinside u ((mem_ids _).mp hu)
  calc
    (q.pattern.size : ℕ∞) = (q.pattern.ids.map m.image).length := by
      rw [List.length_map, ids, List.length_range]
    _ = {v | v ∈ q.pattern.ids.map m.image}.encard := (encard_setOf_mem hnodup).symm
    _ ≤ {v | inside v}.encard := Set.encard_le_encard himages

/-- Different edges go to different edges. -/
theorem edgeCount_le_encard :
    (q.pattern.edgeCount : ℕ∞) ≤ (q.data.edgesAmong inside).encard := by
  have hcarried : ascendingEnds ∘ m.imageEdge '' {e | e ∈ q.pattern.edges}
      ⊆ ascendingEnds '' q.data.edgesAmong inside := by
    rintro _ ⟨e, he, rfl⟩
    exact h.exists_mem_edgesAmong hinside he
  calc
    (q.pattern.edgeCount : ℕ∞) = {e | e ∈ q.pattern.edges}.encard := q.pattern.encard_edges.symm
    _ = (ascendingEnds ∘ m.imageEdge '' {e | e ∈ q.pattern.edges}).encard :=
      h.injOn_ascendingEnds_imageEdge.encard_image.symm
    _ ≤ (ascendingEnds '' q.data.edgesAmong inside).encard := Set.encard_le_encard hcarried
    _ ≤ (q.data.edgesAmong inside).encard := Set.encard_image_le _ _

omit hinside in
/-- A pattern with an embedding has no more edges than the data graph. -/
theorem edgeCount_le : q.pattern.edgeCount ≤ q.data.edgeCount := by
  have hall : q.data.edgesAmong (fun _ => True) = {e | e ∈ q.data.edges} :=
    Set.ext fun e => and_iff_left ⟨trivial, trivial⟩
  have hle : (q.pattern.edgeCount : ℕ∞) ≤ (q.data.edgesAmong fun _ => True).encard :=
    h.edgeCount_le_encard fun _ _ => trivial
  rw [hall, q.data.encard_edges] at hle
  exact_mod_cast hle

end Matching.Query.IsEmbedding

/-! ## The messages that are weighed -/

namespace Validation

open GraphDependency.Graph

variable {pattern data : Graph} {ds : List Dependency} {d : Dependency} {m : Embedding}
  {threads weight center radius rule : Nat} {msg : Message}

theorem mem_weighRule_iff {worker : Nat} :
    (weight, msg) ∈ weighRule data threads worker rule d
      ↔ d.triviallyHolds data = false
        ∧ ∃ center radius, center? d.pattern = some (center, radius)
          ∧ ∃ v ∈ share (data.withLabel (d.pattern.label center)) threads worker,
            weight = ballWeight data radius v ∧ msg = ⟨rule, center, v⟩ := by
  unfold weighRule
  split
  · rename_i h
    simp [h]
  · rename_i h
    rcases hcenter : center? d.pattern with _ | ⟨center, radius⟩ <;> simp [h, eq_comm]

/-- A message is filed under the weight of the ball around its data vertex. -/
theorem mem_flatten_generated_iff (hthreads : 0 < threads) :
    (weight, msg) ∈ (generated data ds threads).flatten
      ↔ ∃ d, ds[msg.rule]? = some d ∧ d.triviallyHolds data = false
        ∧ ∃ radius, center? d.pattern = some (msg.center, radius)
          ∧ msg.candidate ∈ data.withLabel (d.pattern.label msg.center)
          ∧ weight = ballWeight data radius msg.candidate := by
  have hshares : ∀ (xs : List Nat) v,
      (∃ worker < threads, v ∈ share xs threads worker) ↔ v ∈ xs := by
    intro xs v
    conv_rhs => rw [← flatMap_share xs hthreads, List.mem_flatMap]
    simp only [List.mem_range]
  have hmem : (weight, msg) ∈ (generated data ds threads).flatten
      ↔ ∃ worker < threads, ∃ e ∈ ds.zipIdx,
        (weight, msg) ∈ weighRule data threads worker e.2 e.1 := by
    simp only [generated, ← List.flatMap_def, List.mem_flatMap, List.mem_range,
      (perm_listed_generateMessages data ds threads _).mem_iff, weighShare]
  rw [hmem]
  constructor
  · rintro ⟨worker, hworker, ⟨d, rule⟩, he, hrule⟩
    obtain ⟨htrivial, center, radius, hcenter, v, hv, rfl, rfl⟩ := mem_weighRule_iff.mp hrule
    refine ⟨d, List.mem_zipIdx_iff_getElem?.mp he, htrivial, radius, hcenter, ?_, rfl⟩
    exact (hshares _ v).mp ⟨worker, hworker, hv⟩
  · rintro ⟨d, hd, htrivial, radius, hcenter, hcandidate, hweight⟩
    obtain ⟨worker, hworker, hv⟩ := (hshares _ _).mpr hcandidate
    refine ⟨worker, hworker, (d, msg.rule), List.mem_zipIdx_iff_getElem?.mpr hd, ?_⟩
    exact mem_weighRule_iff.mpr ⟨htrivial, msg.center, radius, hcenter, _, hv, hweight, rfl⟩

/-- The message with the image of the center is weighed, with the ball around that image. -/
theorem mem_generated_image_iff (hthreads : 0 < threads) (hd : ds[rule]? = some d)
    (hcenter : center? d.pattern = some (center, radius))
    (h : (Query.plain d.pattern data).IsEmbedding m) :
    (weight, ⟨rule, center, m.image center⟩) ∈ (generated data ds threads).flatten
      ↔ weight = ballWeight data radius (m.image center) := by
  have htrivial : d.triviallyHolds data = false := Dependency.triviallyHolds_eq_false h
  have hlt := lt_size_of_center? hcenter
  rw [mem_flatten_generated_iff hthreads]
  constructor
  · rintro ⟨d', hd', -, radius', hcenter', -, hweight⟩
    obtain rfl := Option.some.inj (hd.symm.trans hd')
    obtain ⟨-, rfl⟩ := Prod.mk.inj (Option.some.inj (hcenter.symm.trans hcenter'))
    exact hweight
  · intro hweight
    refine ⟨d, hd, htrivial, radius, hcenter, (mem_withLabel_iff _).mpr ?_, hweight⟩
    exact ⟨h.image_lt center hlt, h.label_eq center hlt⟩

/-- The ball around the image of the center is at least as large as a connected pattern. -/
theorem size_add_edgeCount_le (hcenter : center? pattern = some (center, radius))
    (hconn : pattern.isConnected = true) (h : (Query.plain pattern data).IsEmbedding m) :
    pattern.size + pattern.edgeCount ≤ ballWeight data radius (m.image center) := by
  have hinside : ∀ u < pattern.size, data.Within radius (m.image center) (m.image u) :=
    fun u hu => h.within (within_center hcenter hconn hu)
  have hweight : ((pattern.size + pattern.edgeCount : Nat) : ℕ∞)
      ≤ (ballWeight data radius (m.image center) : ℕ∞) := by
    rw [ballWeight_eq, Nat.cast_add]
    exact add_le_add (h.size_le_encard hinside) (h.edgeCount_le_encard hinside)
  exact_mod_cast hweight

/-- A pattern that is not empty has as its center the first vertex of the least eccentricity.
If the pattern is connected, an embedding keeps all vertices within the radius around the image
of the center, and for the message with that data vertex, which any number of workers weigh, the
ball is at least as large as the pattern. -/
theorem center?_local (pattern : Graph) (hpos : 0 < pattern.size) :
    ∃ center radius, center? pattern = some (center, radius)
      ∧ center < pattern.size ∧ pattern.IsEccentricity center radius
      ∧ (∀ u < pattern.size, ∀ r, pattern.IsEccentricity u r →
          radius ≤ r ∧ (u < center → radius < r))
      ∧ (pattern.isConnected = true →
          ∀ (data : Graph) (m : Embedding), (Query.plain pattern data).IsEmbedding m →
            (∀ u < pattern.size, data.Within radius (m.image center) (m.image u))
            ∧ pattern.size + pattern.edgeCount ≤ ballWeight data radius (m.image center)
            ∧ ∀ (ds : List Dependency) (rule threads weight : Nat), 0 < threads →
                (ds[rule]?).map Dependency.pattern = some pattern →
                ((weight, ⟨rule, center, m.image center⟩) ∈ (generated data ds threads).flatten
                  ↔ weight = ballWeight data radius (m.image center))) := by
  obtain ⟨⟨center, radius⟩, hcenter⟩ : ∃ c, center? pattern = some c := by
    refine Option.ne_none_iff_exists'.mp fun hnone => ?_
    exact hpos.ne' (center?_eq_none_iff.mp hnone)
  obtain ⟨hlt, hradius, hleast⟩ := center?_least hcenter
  refine ⟨center, radius, hcenter, hlt, isEccentricity_iff.mpr hradius, fun u hu r hr => ?_, ?_⟩
  · rw [isEccentricity_iff.mp hr]
    exact hleast u hu
  · intro hconn data m hm
    refine ⟨fun u hu => hm.within (within_center hcenter hconn hu),
      size_add_edgeCount_le hcenter hconn hm, ?_⟩
    intro ds rule threads weight hthreads hrule
    obtain ⟨d, hd, rfl⟩ := Option.map_eq_some_iff.mp hrule
    exact mem_generated_image_iff hthreads hd hcenter hm

open Pattern in
/-- A tadpole, turned over: the corner with the tail is the center, before the vertex behind it,
and the end of the tail is as far from it as the radius. -/
theorem center?_local_tadpole :
    0 < tadpole.size ∧ center? tadpole = some (2, 2) ∧ tadpole.isConnected = true
      ∧ tadpole.eccentricity 3 = 2
      ∧ (Query.plain tadpole tadpole).IsEmbedding #[1, 0, 2, 3, 4]
      ∧ tadpole.Within 2 2 4 ∧ 10 ≤ ballWeight tadpole 2 2 := by
  have hpos : 0 < tadpole.size := by decide
  have hcenter : center? tadpole = some (2, 2) := by decide
  have hconn : tadpole.isConnected = true := by decide
  have hm : (Query.plain tadpole tadpole).IsEmbedding #[1, 0, 2, 3, 4] :=
    ⟨by decide, rfl, by decide, by decide, by decide, fun _ _ => rfl,
      by simp +decide⟩
  obtain ⟨center, radius, hlocal, -, -, -, hall⟩ := center?_local tadpole hpos
  obtain ⟨rfl, rfl⟩ := Prod.mk.inj (Option.some.inj (hlocal.symm.trans hcenter))
  obtain ⟨hwithin, hweight, -⟩ := hall hconn tadpole _ hm
  exact ⟨hpos, hcenter, hconn, by decide, hm, hwithin 4 (by decide), hweight⟩

end Validation

end GraphDependency
