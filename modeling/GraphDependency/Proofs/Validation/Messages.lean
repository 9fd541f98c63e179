import GraphDependency.Proofs.Balance
import GraphDependency.Proofs.Validation.Queue
import GraphDependency.Proofs.Validation.Stamps

set_option autoImplicit false

/-!
# No message is lost

The data vertices that the dependencies call for are shared out, weighed and filed by the
workers; what they have filed is put together, balanced by the weights alone and taken out of
the queues again.  All workers together are handed the messages that the dependencies call for,
each of them once.

Main statements: `flatMap_share`, `listed_gathered` (the queues are a stable sort of what the
workers weigh), `handOut_eq` and `perm_assigned`.
-/

namespace GraphDependency.Validation

/-! ## Shares -/

section Share

variable {α : Type} (xs : List α) (parts : Nat)

/-- The shares before a position are the front of the list. -/
theorem flatMap_share_eq_take (n : Nat) :
    (List.range n).flatMap (share xs parts)
      = xs.take (n * (xs.length / parts) + min n (xs.length % parts)) := by
  induction n with
  | zero => simp
  | succ n ih =>
    have hnext : (n + 1) * (xs.length / parts) + min (n + 1) (xs.length % parts)
        = n * (xs.length / parts) + min n (xs.length % parts)
          + (if n < xs.length % parts then xs.length / parts + 1 else xs.length / parts) := by
      rw [Nat.succ_mul]
      split <;> omega
    rw [List.range_succ, List.flatMap_append, List.flatMap_singleton, ih, hnext]
    exact List.take_add.symm

variable {parts}

/-- The shares together are the list. -/
theorem flatMap_share (hparts : 0 < parts) :
    (List.range parts).flatMap (share xs parts) = xs := by
  have hextra := Nat.mod_lt xs.length hparts
  have hlength : parts * (xs.length / parts) + min parts (xs.length % parts) = xs.length := by
    rw [Nat.min_eq_right (Nat.le_of_lt hextra)]
    exact Nat.div_add_mod xs.length parts
  rw [flatMap_share_eq_take, hlength, List.take_length]

end Share

/-! ## The messages that are called for -/

/-- The messages for one dependency: one for every data vertex to which the center
of its pattern may go. -/
def messagesFor (data : Graph) (rule : Nat) (d : Dependency) : List Message :=
  if d.triviallyHolds data then []
  else
    match center? d.pattern with
    | none => []
    | some (center, _) =>
      (data.withLabel (d.pattern.label center)).map fun candidate => ⟨rule, center, candidate⟩

/-- The messages for all dependencies. -/
def messages (data : Graph) (ds : List Dependency) : List Message :=
  ds.zipIdx.flatMap fun e => messagesFor data e.2 e.1

/-- The messages of one worker for one dependency, with their weights. -/
def weighRule (data : Graph) (threads worker rule : Nat) (d : Dependency) :
    List (Nat × Message) :=
  if d.triviallyHolds data then []
  else
    match center? d.pattern with
    | none => []
    | some (center, radius) =>
      (share (data.withLabel (d.pattern.label center)) threads worker).map fun candidate =>
        (ballWeight data radius candidate, ⟨rule, center, candidate⟩)

/-- The messages of one worker with their weights, in the order in which it weighs them. -/
def weighShare (data : Graph) (ds : List Dependency) (threads worker : Nat) :
    List (Nat × Message) :=
  ds.zipIdx.flatMap fun e => weighRule data threads worker e.2 e.1

/-- What each worker has filed. -/
def generated (data : Graph) (ds : List Dependency) (threads : Nat) :
    List (List (Nat × Message)) :=
  (List.range threads).map fun i => (generateMessages data (requestsOf data ds threads i)).listed

/-- The queues with what all workers have filed. -/
def gathered (data : Graph) (ds : List Dependency) (threads : Nat) : Filed :=
  .gather ((List.range threads).map fun i => generateMessages data (requestsOf data ds threads i))

/-- The lists of messages that the workers are handed if there is room for the lists. -/
def assigned (data : Graph) (ds : List Dependency) (threads : Nat) : List (List Message) :=
  fillBins (balance (gathered data ds threads).weights threads) (gathered data ds threads).toQueues

section Called

variable {data : Graph} {ds : List Dependency} {d : Dependency} {msg : Message}
  {rule center radius : Nat}

theorem lt_size_of_center? {pattern : Graph} (h : center? pattern = some (center, radius)) :
    center < pattern.size := by
  obtain ⟨u, hu, heq⟩ := List.mem_map.mp (mem_of_firstBest? h)
  cases heq
  exact (Graph.mem_ids _).mp hu

theorem mem_messagesFor_iff :
    msg ∈ messagesFor data rule d
      ↔ d.triviallyHolds data = false
        ∧ ∃ center radius, center? d.pattern = some (center, radius)
          ∧ ∃ v ∈ data.withLabel (d.pattern.label center), msg = ⟨rule, center, v⟩ := by
  unfold messagesFor
  split
  · rename_i h
    simp [h]
  · rename_i h
    rcases hcenter : center? d.pattern with _ | ⟨center, radius⟩ <;> simp [h, eq_comm]

theorem rule_of_mem_messagesFor (h : msg ∈ messagesFor data rule d) : msg.rule = rule := by
  obtain ⟨-, center, radius, -, v, -, rfl⟩ := mem_messagesFor_iff.mp h
  rfl

theorem mem_messages_iff :
    msg ∈ messages data ds
      ↔ ∃ d, ds[msg.rule]? = some d ∧ msg ∈ messagesFor data msg.rule d := by
  rw [messages, List.mem_flatMap]
  constructor
  · rintro ⟨⟨d, i⟩, he, hmem⟩
    obtain rfl := rule_of_mem_messagesFor hmem
    exact ⟨d, List.mem_zipIdx_iff_getElem?.mp he, hmem⟩
  · rintro ⟨d, hd, hmem⟩
    exact ⟨(d, msg.rule), List.mem_zipIdx_iff_getElem?.mpr hd, hmem⟩

end Called

/-! ## What the workers file -/

section Filed

variable {data : Graph} {ds : List Dependency} {threads : Nat}

theorem map_candidatesOf_requestFor (data : Graph) (threads worker rule : Nat) (d : Dependency) :
    (candidatesOf (requestFor data threads worker rule d).toList).map
        (fun c => (ballWeight data c.1.radius c.2, c.1.message c.2))
      = weighRule data threads worker rule d := by
  unfold requestFor weighRule
  split
  · rfl
  · cases center? d.pattern with
    | none => rfl
    | some c =>
      simp only
      split
      · rename_i hempty
        rw [List.isEmpty_iff.mp hempty]
        rfl
      · rw [Option.toList_some, candidatesOf, List.flatMap_singleton, List.map_map]
        rfl

/-- The worker files what it weighs for all dependencies. -/
theorem under_generateMessages_requestsOf (data : Graph) (ds : List Dependency)
    (threads worker weight : Nat) :
    (generateMessages data (requestsOf data ds threads worker)).under weight
      = ((weighShare data ds threads worker).filter fun e => e.1 = weight).map Prod.snd := by
  have hweighed : weighShare data ds threads worker
      = (candidatesOf (requestsOf data ds threads worker)).map
        fun c => (ballWeight data c.1.radius c.2, c.1.message c.2) := by
    rw [requestsOf, candidatesOf, List.filterMap_eq_flatMap_toList, List.flatMap_assoc,
      List.map_flatMap, weighShare]
    exact congrArg (List.flatMap · _)
      (funext fun e => (map_candidatesOf_requestFor data threads worker e.2 e.1).symm)
  rw [under_generateMessages, hweighed, List.filter_map, List.map_map, messagesOfWeight]
  simp only [isBallWeight_iff]
  rfl

/-- What a worker has filed is what it weighed, sorted by weight. -/
theorem perm_listed_generateMessages (data : Graph) (ds : List Dependency)
    (threads worker : Nat) :
    (generateMessages data (requestsOf data ds threads worker)).listed.Perm
      (weighShare data ds threads worker) := by
  rw [Queues.listed_eq_mergeSort (under_generateMessages_requestsOf data ds threads worker)]
  exact List.mergeSort_perm _ _

/-- The queues are a stable sort by weight of what the workers weigh, one worker after the
other. -/
theorem listed_gathered (data : Graph) (ds : List Dependency) (threads : Nat) :
    (gathered data ds threads).listed
      = ((List.range threads).flatMap (weighShare data ds threads)).mergeSort
        fun a b => a.1 ≤ b.1 := by
  refine Queues.listed_eq_mergeSort fun weight => ?_
  rw [gathered, Filed.under_gather, List.flatMap_map, List.filter_flatMap, List.map_flatMap]
  simp only [under_generateMessages_requestsOf]

theorem flatMap_weighRule (hthreads : 0 < threads) (rule : Nat) (d : Dependency) :
    ((List.range threads).flatMap fun i => (weighRule data threads i rule d).map Prod.snd)
      = messagesFor data rule d := by
  unfold weighRule messagesFor
  split
  · simp
  · cases center? d.pattern with
    | none => simp
    | some c =>
      simp only [List.map_map]
      have hshare := flatMap_share (data.withLabel (d.pattern.label c.1)) hthreads
      conv_rhs => rw [← hshare, List.map_flatMap]
      rfl

theorem perm_flatMap_swap {α β γ : Type} (xs : List α) (ys : List β) (f : α → β → List γ) :
    (xs.flatMap fun x => ys.flatMap fun y => f x y).Perm
      (ys.flatMap fun y => xs.flatMap fun x => f x y) := by
  induction xs with
  | nil => simp
  | cons x rest ih =>
    simp only [List.flatMap_cons]
    exact (ih.append_left _).trans (List.flatMap_append_perm ys _ _)

/-- All workers together file every message once. -/
theorem perm_gathered (hthreads : 0 < threads) :
    ((gathered data ds threads).listed.map Prod.snd).Perm (messages data ds) := by
  have hshares : ((List.range threads).flatMap (weighShare data ds threads)).map Prod.snd
      = (List.range threads).flatMap fun i =>
        ds.zipIdx.flatMap fun e => (weighRule data threads i e.2 e.1).map Prod.snd := by
    rw [List.map_flatMap]
    simp only [weighShare, List.map_flatMap]
  have hrules : messages data ds = ds.zipIdx.flatMap fun e =>
      (List.range threads).flatMap fun i => (weighRule data threads i e.2 e.1).map Prod.snd := by
    simp only [messages, flatMap_weighRule hthreads]
  rw [listed_gathered]
  refine ((List.mergeSort_perm _ _).map Prod.snd).trans ?_
  rw [hshares, hrules]
  exact perm_flatMap_swap _ _ _

end Filed

/-! ## What the workers are handed -/

section Assigned

variable {data : Graph} {ds : List Dependency} {threads : Nat}

theorem roomFor_eq (hfits : Capacity.fits Capacity.listBytes threads = true) :
    roomFor threads = .ok () :=
  if_pos hfits

theorem shareWeights_eq (weights : List Nat)
    (hfits : Capacity.fits Capacity.listBytes threads = true) :
    shareWeights weights threads = .ok (balance weights threads) := by
  rw [shareWeights, roomFor_eq hfits]
  rfl

/-- With room for the lists, all workers are handed their messages. -/
theorem handOut_eq (data : Graph) (ds : List Dependency)
    (hfits : Capacity.fits Capacity.listBytes threads = true) :
    handOut data ds threads = .ok (assigned data ds threads) := by
  have hrequests : requests data ds threads
      = .ok ((List.range threads).map (requestsOf data ds threads)) := by
    rw [requests, roomFor_eq hfits]
    rfl
  rw [handOut, hrequests]
  change (Phase.run "message generation" _).bind _ = _
  rw [Phase.run_finished, List.map_map]
  change (shareWeights _ threads).bind _ = _
  rw [shareWeights_eq _ hfits]
  rfl

/-- The workers are handed what was filed: a message of its weight for every weight of their
bins. -/
theorem exists_picked_assigned (hthreads : 0 < threads) (data : Graph) (ds : List Dependency) :
    ∃ picked : List (List (Nat × Message)),
      picked.map (List.map Prod.fst) = balance (gathered data ds threads).weights threads
        ∧ picked.map (List.map Prod.snd) = assigned data ds threads
        ∧ picked.flatten.Perm (gathered data ds threads).listed := by
  refine exists_picked ?_
  rw [← Queues.weights_eq]
  exact perm_balance _ hthreads

/-- All workers together are handed the messages that are called for. -/
theorem perm_assigned (hthreads : 0 < threads) (data : Graph) (ds : List Dependency) :
    (assigned data ds threads).flatten.Perm (messages data ds) := by
  obtain ⟨picked, -, hmessages, hpicked⟩ := exists_picked_assigned hthreads data ds
  rw [← hmessages, ← List.map_flatten]
  exact (hpicked.map Prod.snd).trans (perm_gathered hthreads)

/-- Every worker has a list. -/
theorem length_assigned (hthreads : 0 < threads) :
    (assigned data ds threads).length = threads := by
  obtain ⟨picked, hweights, hmessages, -⟩ := exists_picked_assigned hthreads data ds
  rw [← hmessages, List.length_map, ← List.length_map (List.map Prod.fst), hweights,
    length_balance]

end Assigned

end GraphDependency.Validation
