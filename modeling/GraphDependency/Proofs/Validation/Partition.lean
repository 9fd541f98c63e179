import GraphDependency.Balance.Bounded
import GraphDependency.Proofs.Validation.Distributed

set_option autoImplicit false

/-!
# The work is cut up exactly

Every dependency that is not trivially satisfied calls for one message for each data vertex with
the label of its center.  The lists that are handed to the workers hold these messages, each
of them once, and nothing else; on the way every weight finds a message again.

Main statements: `nodup_messages`, `mem_messages_iff_called` and `handOut_exact`.
-/

namespace GraphDependency.Validation

variable {data : Graph} {ds : List Dependency} {d : Dependency} {msg : Message}
  {rule center radius threads : Nat}

/-! ## What is called for -/

/-- The dependency of the message is not trivially satisfied, and the center of its pattern, which
the message names, may go to the data vertex of the message. -/
def Called (data : Graph) (ds : List Dependency) (msg : Message) : Prop :=
  ∃ d radius, ds[msg.rule]? = some d ∧ d.triviallyHolds data = false
    ∧ center? d.pattern = some (msg.center, radius)
    ∧ msg.candidate < data.size ∧ data.label msg.candidate = d.pattern.label msg.center

theorem mem_messages_iff_called : msg ∈ messages data ds ↔ Called data ds msg := by
  simp only [mem_messages_iff, mem_messagesFor_iff, Called, Graph.mem_withLabel_iff]
  constructor
  · intro h
    obtain ⟨d, hd, htrivial, center, radius, hcenter, v, hv, hmsg⟩ := h
    obtain ⟨rule, _, _⟩ := msg
    cases hmsg
    exact ⟨d, radius, hd, htrivial, hcenter, hv⟩
  · intro h
    obtain ⟨d, radius, hd, htrivial, hcenter, hv⟩ := h
    exact ⟨d, hd, htrivial, msg.center, radius, hcenter, msg.candidate, hv, rfl⟩

/-- Only a pattern without vertices has no center, and there is nothing to search for then. -/
theorem exists_center (h : d.triviallyHolds data = false) :
    ∃ center radius, center? d.pattern = some (center, radius) := by
  cases hcenter : center? d.pattern with
  | some c => exact ⟨c.1, c.2, rfl⟩
  | none =>
    have hempty : d.pattern.isEmpty = true := by
      simpa [Graph.isEmpty] using center?_eq_none_iff.mp hcenter
    rw [Dependency.triviallyHolds, hempty] at h
    cases h

/-! ## Nothing is called for twice -/

theorem nodup_messagesFor (data : Graph) (rule : Nat) (d : Dependency) :
    (messagesFor data rule d).Nodup := by
  unfold messagesFor
  split
  · exact List.nodup_nil
  · split
    · exact List.nodup_nil
    · rename_i center radius hcenter
      have hvertices : (data.withLabel (d.pattern.label center)).Nodup :=
        (data.pairwise_withLabel _).imp Nat.ne_of_lt
      exact hvertices.map fun v w h => congrArg Message.candidate h

theorem nodup_messages (data : Graph) (ds : List Dependency) : (messages data ds).Nodup := by
  refine List.nodup_flatMap.mpr ⟨fun e _ => nodup_messagesFor data e.2 e.1, ?_⟩
  -- A message names the position of its dependency, and no two positions are the same.
  have hpositions : (ds.zipIdx.map Prod.snd).Nodup := by
    rw [List.zipIdx_map_snd]
    exact List.nodup_range'
  refine (List.pairwise_map.mp hpositions).imp fun {e e'} hne msg h h' => hne ?_
  rw [← rule_of_mem_messagesFor h, ← rule_of_mem_messagesFor h']

/-! ## What the workers are handed -/

theorem nodup_assigned (hthreads : 0 < threads) :
    (assigned data ds threads).flatten.Nodup :=
  (perm_assigned hthreads data ds).nodup_iff.mpr (nodup_messages data ds)

theorem mem_assigned_iff (hthreads : 0 < threads) :
    msg ∈ (assigned data ds threads).flatten ↔ Called data ds msg :=
  (perm_assigned hthreads data ds).mem_iff.trans mem_messages_iff_called

/-- With room for the lists, each worker is handed one.  Together they hold exactly one message
for every dependency that is not trivially satisfied and every data vertex with the label of its
center, and no other message.  The queues that they are taken out of are a stable sort by weight
of what the workers weigh, one worker after the other; the bins are those of the sharing out in 64
binary digits, if these hold twice the sum of the weights; each weight of each bin finds a message
that waits under it, and no message is left behind.  Over these lists, and no others, the workers
then search.  Without room nothing is handed out. -/
theorem handOut_exact (data : Graph) (ds : List Dependency) (hthreads : 0 < threads) :
    (Capacity.fits Capacity.listBytes threads = true →
        ∃ lists, handOut data ds threads = .ok lists ∧ lists.length = threads
          ∧ (∀ rule d, ds[rule]? = some d → d.triviallyHolds data = false →
              ∃ center radius, center? d.pattern = some (center, radius)
                ∧ ∀ v, v < data.size → data.label v = d.pattern.label center →
                  lists.flatten.count ⟨rule, center, v⟩ = 1)
          ∧ (∀ msg ∈ lists.flatten, Called data ds msg)
          ∧ (gathered data ds threads).listed
              = ((List.range threads).flatMap (weighShare data ds threads)).mergeSort
                (fun a b => a.1 ≤ b.1)
          ∧ (∃ bins, shareWeights (gathered data ds threads).weights threads = .ok bins
              ∧ (2 * Balance.load (gathered data ds threads).weights ≤ Text.max64 →
                balance? (gathered data ds threads).weights threads = some bins)
              ∧ ∃ picked : List (List (Nat × Message)), picked.map (List.map Prod.fst) = bins
                ∧ picked.map (List.map Prod.snd) = lists
                ∧ picked.flatten.Perm (gathered data ds threads).listed)
          ∧ distributed data ds threads
              = (Phase.run "matching" (lists.map (handleAll data ds))).map (merge ds.length))
      ∧ (Capacity.fits Capacity.listBytes threads ≠ true →
        handOut data ds threads = .error (.capacity threads)) := by
  refine ⟨fun hfits => ⟨assigned data ds threads, handOut_eq data ds hfits,
    length_assigned hthreads, ?once, fun msg => (mem_assigned_iff hthreads).mp,
    listed_gathered data ds threads, ?picked, distributed_eq hthreads hfits⟩,
    handOut_of_not_fits data ds⟩
  case once =>
    intro rule d hd htrivial
    obtain ⟨center, radius, hcenter⟩ := exists_center htrivial
    refine ⟨center, radius, hcenter, fun v hv hlabel => ?_⟩
    apply List.count_eq_one_of_mem (nodup_assigned hthreads)
    exact (mem_assigned_iff hthreads).mpr ⟨d, radius, hd, htrivial, hcenter, hv, hlabel⟩
  case picked =>
    exact ⟨_, shareWeights_eq _ hfits, fun hload => balance?_eq_some hload hfits,
      exists_picked_assigned hthreads data ds⟩

/-- Two workers are handed the four messages of two dependencies on a segment, all of the same
weight. -/
theorem handOut_exact_segment :
    let data := Graph.segment "a" "a" "e"
    let d : Dependency := ⟨data, [], [⟨.vertex 0 "x", .constant "1"⟩], by decide, by decide⟩
    0 < 2 ∧ Capacity.fits Capacity.listBytes 2 = true
      ∧ ∃ lists, handOut data [d, d] 2 = .ok lists ∧ lists.length = 2
        ∧ lists.flatten.count ⟨0, 0, 1⟩ = 1 ∧ lists.flatten.count ⟨1, 0, 1⟩ = 1 := by
  intro data d
  have hcenter : center? d.pattern = some (0, 1) := by decide
  have hfits : Capacity.fits Capacity.listBytes 2 = true := by decide
  obtain ⟨lists, hlists, hlength, honce, -⟩ := (handOut_exact data [d, d] Nat.two_pos).1 hfits
  have hcount : ∀ rule, [d, d][rule]? = some d → lists.flatten.count ⟨rule, 0, 1⟩ = 1 := by
    intro rule hd
    obtain ⟨center, radius, hcenter', hcount⟩ := honce rule d hd (by decide)
    cases hcenter.symm.trans hcenter'
    exact hcount 1 (by decide) (by decide)
  exact ⟨Nat.two_pos, hfits, lists, hlists, hlength, hcount 0 rfl, hcount 1 rfl⟩

/-- A dependency that is not trivially satisfied calls for messages, but so many workers are not
handed any. -/
theorem handOut_crowded :
    let data := Graph.segment "a" "a" "e"
    let d : Dependency := ⟨data, [], [⟨.vertex 0 "x", .constant "1"⟩], by decide, by decide⟩
    let threads := 18446744073709551615
    0 < threads ∧ d.triviallyHolds data = false ∧ Called data [d] ⟨0, 0, 1⟩
      ∧ ¬ ∃ lists, handOut data [d] threads = .ok lists ∧ lists.flatten.count ⟨0, 0, 1⟩ = 1 := by
  intro data d threads
  have hcalled : Called data [d] ⟨0, 0, 1⟩ :=
    ⟨d, 1, rfl, by decide, by decide, by decide, by decide⟩
  refine ⟨by decide, by decide, hcalled, fun ⟨lists, h, _⟩ => ?_⟩
  rw [handOut_of_not_fits data [d] (by decide)] at h
  cases h

end GraphDependency.Validation
