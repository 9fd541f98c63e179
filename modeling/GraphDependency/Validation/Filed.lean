set_option autoImplicit false

/-!
# Messages by weight

A message asks for the search around one data vertex.  Messages wait in queues, one for each
weight; a worker files a message behind those of the same weight, and what several workers
have filed is put together in the order of the workers.  From the queues messages are taken
by their weights alone.

Main statements: `under_file` (looking up after filing), `under_gather` (what all workers
have filed under a weight) and `under_pop?` (what is left when a message was taken).
-/

namespace GraphDependency.Validation

/-- The search for counterexamples to one dependency around one data vertex. -/
structure Message where
  /-- The position of the dependency. -/
  rule : Nat
  center : Nat
  candidate : Nat
  deriving DecidableEq, Repr, Inhabited

/-! ## Queues -/

/-- A queue of messages for each of some weights. -/
structure Queues where
  entries : List (Nat × List Message)
  ascending : (entries.map Prod.fst).Pairwise (· < ·)
  deriving DecidableEq, Repr

namespace Queues

/-- The messages under a weight. -/
def under (q : Queues) (weight : Nat) : List Message :=
  ((q.entries.find? fun e => e.1 = weight).map Prod.snd).getD []

/-- All messages with their weights, in ascending order of the weights. -/
def listed (q : Queues) : List (Nat × Message) :=
  q.entries.flatMap fun e => e.2.map fun msg => (e.1, msg)

/-- The weight of every message, in ascending order. -/
def weights (q : Queues) : List Nat :=
  q.entries.flatMap fun e => List.replicate e.2.length e.1

/-- Puts other messages under a weight. -/
def set (q : Queues) (weight : Nat) (msgs : List Message) : Queues where
  entries := q.entries.map fun e => if e.1 = weight then (e.1, msgs) else e
  ascending := by
    have hsame : ∀ e : Nat × List Message,
        (if e.1 = weight then (e.1, msgs) else e).1 = e.1 := fun e => by split <;> rfl
    have hkeys := q.ascending
    simpa only [List.map_map, Function.comp_def, hsame] using hkeys

/-- Takes the first message out of the queue of a weight. -/
def pop? (q : Queues) (weight : Nat) : Option (Message × Queues) :=
  match q.under weight with
  | [] => none
  | msg :: msgs => some (msg, q.set weight msgs)

theorem weights_eq (q : Queues) : q.weights = q.listed.map Prod.fst := by
  rw [weights, listed, List.map_flatMap]
  simp only [List.map_map, Function.comp_def, List.map_const']

/-- At most one queue has the weight. -/
theorem under_eq_flatMap (q : Queues) (weight : Nat) :
    q.under weight = q.entries.flatMap fun e => if e.1 = weight then e.2 else [] := by
  obtain ⟨es, ascending⟩ := q
  rw [under]
  induction es with
  | nil => rfl
  | cons e rest ih =>
    obtain ⟨hfirst, hrest⟩ := List.pairwise_cons.mp ascending
    rw [List.flatMap_cons]
    by_cases he : e.1 = weight
    · have hnone : (rest.flatMap fun e => if e.1 = weight then e.2 else []) = [] := by
        refine List.flatMap_eq_nil_iff.mpr fun x hx => if_neg fun h => ?_
        exact Nat.lt_irrefl _ (he.symm ▸ h ▸ hfirst x.1 (List.mem_map_of_mem hx))
      simp [he, hnone]
    · simpa [he] using ih hrest

theorem under_set {q : Queues} {weight other : Nat} {msgs : List Message}
    (h : q.under weight ≠ []) :
    (q.set weight msgs).under other = if weight = other then msgs else q.under other := by
  have hkey : (fun e : Nat × List Message => decide (e.1 = other))
      ∘ (fun e => if e.1 = weight then (e.1, msgs) else e) = fun e => decide (e.1 = other) := by
    funext e
    by_cases he : e.1 = weight <;> simp [he]
  simp only [under, set, List.find?_map, hkey] at h ⊢
  cases hfind : q.entries.find? fun e => e.1 = other with
  | none =>
    have hne : weight ≠ other := by
      rintro rfl
      simp [hfind] at h
    simp [hne]
  | some e =>
    have he : e.1 = other := by simpa using List.find?_some hfind
    by_cases ho : weight = other
    · simp [ho, he]
    · simp [ho, he, Ne.symm ho]

/-- What is left when a message was taken: the queue of its weight is shorter by it. -/
theorem under_pop? {q q' : Queues} {weight : Nat} {msg : Message}
    (h : q.pop? weight = some (msg, q')) (other : Nat) :
    q.under other = if weight = other then msg :: q'.under other else q'.under other := by
  rw [pop?] at h
  split at h
  · cases h
  · rename_i first msgs hunder
    cases h
    rw [under_set (by rw [hunder]; exact List.cons_ne_nil _ _)]
    split
    · rename_i heq
      rw [← heq, hunder]
    · rfl

end Queues

/-! ## Filing -/

/-- Queues with a message in each of them. -/
structure Filed extends Queues where
  nonempty : ∀ e ∈ entries, e.2 ≠ []
  deriving DecidableEq, Repr

namespace Filed

/-- Nothing is filed. -/
def empty : Filed := ⟨⟨[], List.Pairwise.nil⟩, by simp⟩

/-- Puts a message at the end of its entry, which is made if there is none. -/
def put (weight : Nat) (msg : Message) : List (Nat × List Message) → List (Nat × List Message)
  | [] => [(weight, [msg])]
  | e :: rest =>
    if weight < e.1 then (weight, [msg]) :: e :: rest
    else if weight = e.1 then (e.1, e.2 ++ [msg]) :: rest
    else e :: put weight msg rest

variable {weight other : Nat} {msg : Message} {es : List (Nat × List Message)}

theorem mem_map_fst_put :
    other ∈ (put weight msg es).map Prod.fst ↔ other = weight ∨ other ∈ es.map Prod.fst := by
  induction es with
  | nil => simp [put]
  | cons e rest ih =>
    rw [put]
    split
    · simp
    · split
      · rename_i h
        simp [h]
      · rw [List.map_cons, List.mem_cons, ih, List.map_cons, List.mem_cons]
        exact or_left_comm

theorem ascending_put (h : (es.map Prod.fst).Pairwise (· < ·)) :
    ((put weight msg es).map Prod.fst).Pairwise (· < ·) := by
  induction es with
  | nil => exact List.pairwise_singleton _ _
  | cons e rest ih =>
    obtain ⟨hfirst, hrest⟩ := List.pairwise_cons.mp h
    rw [put]
    split
    · rename_i hlt
      refine List.pairwise_cons.mpr ⟨List.forall_mem_cons.mpr ⟨hlt, fun w hw => ?_⟩, h⟩
      exact Nat.lt_trans hlt (hfirst w hw)
    · split
      · exact h
      · rename_i hle hne
        refine List.pairwise_cons.mpr ⟨fun w hw => ?_, ih hrest⟩
        rcases mem_map_fst_put.mp hw with rfl | hw
        · omega
        · exact hfirst w hw

theorem nonempty_put (h : ∀ e ∈ es, e.2 ≠ []) : ∀ e ∈ put weight msg es, e.2 ≠ [] := by
  induction es with
  | nil => simp [put]
  | cons e rest ih =>
    obtain ⟨he, hrest⟩ := List.forall_mem_cons.mp h
    rw [put]
    split
    · exact List.forall_mem_cons.mpr ⟨List.cons_ne_nil _ _, h⟩
    · split
      · exact List.forall_mem_cons.mpr ⟨List.append_ne_nil_of_right_ne_nil _ (by simp), hrest⟩
      · exact List.forall_mem_cons.mpr ⟨he, ih hrest⟩

/-- Files a message under a weight. -/
def file (f : Filed) (weight : Nat) (msg : Message) : Filed :=
  ⟨⟨put weight msg f.entries, ascending_put f.ascending⟩, nonempty_put f.nonempty⟩

/-- Looking up after filing. -/
theorem under_file (f : Filed) (weight other : Nat) (msg : Message) :
    (f.file weight msg).under other
      = if weight = other then f.under other ++ [msg] else f.under other := by
  obtain ⟨⟨es, ascending⟩, nonempty⟩ := f
  simp only [file, Queues.under]
  clear nonempty
  induction es with
  | nil => by_cases h : weight = other <;> simp [put, h]
  | cons e rest ih =>
    obtain ⟨hfirst, hrest⟩ := List.pairwise_cons.mp ascending
    rw [put]
    by_cases hlt : weight < e.1
    · -- Nothing behind has the weight.
      rw [if_pos hlt]
      by_cases h : weight = other
      · have hnone : (e :: rest).find? (fun e => e.1 = other) = none := by
          refine List.find?_eq_none.mpr (List.forall_mem_cons.mpr ⟨by simp; omega, fun x hx => ?_⟩)
          have := hfirst x.1 (List.mem_map_of_mem hx)
          simp
          omega
        rw [hnone]
        simp [h]
      · simp [h]
    · rw [if_neg hlt]
      by_cases heq : weight = e.1
      · rw [if_pos heq]
        by_cases h : weight = other
        · simp [← heq, h]
        · have hne : ¬ e.1 = other := fun he => h (heq.trans he)
          simp [h, hne]
      · rw [if_neg heq]
        by_cases he : e.1 = other
        · have hne : ¬ weight = other := fun h => heq (h.trans he.symm)
          simp [he, hne]
        · simpa [he] using ih hrest

/-! ## Putting together what was filed -/

/-- Files messages under a weight, one after the other. -/
def fileAll (f : Filed) (weight : Nat) (msgs : List Message) : Filed :=
  msgs.foldl (fun f msg => f.file weight msg) f

/-- Files what another worker has filed, queue by queue. -/
def append (f g : Filed) : Filed := g.entries.foldl (fun f e => f.fileAll e.1 e.2) f

/-- Puts together what the workers have filed. -/
def gather (fs : List Filed) : Filed := fs.foldl append empty

theorem under_fileAll (f : Filed) (weight other : Nat) (msgs : List Message) :
    (f.fileAll weight msgs).under other
      = f.under other ++ if weight = other then msgs else [] := by
  rw [fileAll]
  induction msgs generalizing f with
  | nil => simp
  | cons msg rest ih =>
    rw [List.foldl_cons, ih, under_file]
    split <;> simp

theorem under_append (f g : Filed) (weight : Nat) :
    (f.append g).under weight = f.under weight ++ g.under weight := by
  rw [append, g.toQueues.under_eq_flatMap]
  induction g.entries generalizing f with
  | nil => simp
  | cons e rest ih => rw [List.foldl_cons, ih, under_fileAll, List.append_assoc, List.flatMap_cons]

/-- Under a weight stands what the workers have filed there, one worker after the other. -/
theorem under_gather (fs : List Filed) (weight : Nat) :
    (gather fs).under weight = fs.flatMap fun f => f.under weight := by
  have hfold : ∀ (fs : List Filed) (f : Filed), (fs.foldl append f).under weight
      = f.under weight ++ fs.flatMap fun f => f.under weight := by
    intro fs
    induction fs with
    | nil => simp
    | cons g rest ih =>
      intro f
      rw [List.foldl_cons, ih, under_append, List.append_assoc, List.flatMap_cons]
  exact hfold fs empty

end Filed

end GraphDependency.Validation
