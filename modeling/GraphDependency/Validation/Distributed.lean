import GraphDependency.Balance
import GraphDependency.Capacity
import GraphDependency.Phase
import GraphDependency.Validation.Center
import GraphDependency.Validation.Exhaustive
import GraphDependency.Validation.Stamps

set_option autoImplicit false

/-!
# Distributed validation

The work for a dependency is cut into messages: one for every data vertex to
which the center of its pattern may go.  Workers first weigh their share of the
messages; what they have filed is put into one queue for each weight, and the
messages are shared out by their weights.  Then the workers search around the data
vertices of theirs.  A worker that has found a counterexample leaves out its further
messages for that dependency.

Each of the workers has a list of requests, and later one of messages.  These lists
are kept side by side, and there has to be room for that many of them.  Nothing is
said here about the room that the threads themselves and their results take.

Main statements: `distributed_zero`, there has to be a worker, and
`handOut_of_not_fits`, without room for the lists there is no work to be done.
-/

namespace GraphDependency.Validation

/-! ## Requests -/

/-- The share of one of several parts in a list: the parts are contiguous, and
the first ones are longer by one if the list cannot be cut evenly. -/
def share {α : Type} (xs : List α) (parts i : Nat) : List α :=
  let base := xs.length / parts
  let extra := xs.length % parts
  (xs.drop (i * base + min i extra)).take (if i < extra then base + 1 else base)

theorem lt_size_of_mem_share {data : Graph} {label : String} {threads worker v : Nat}
    (hv : v ∈ share (data.withLabel label) threads worker) : v < data.size :=
  data.lt_size_of_mem_withLabel (List.mem_of_mem_drop (List.mem_of_mem_take hv))

/-- What a worker is to weigh for one dependency, if there is anything. -/
def requestFor (data : Graph) (threads worker rule : Nat) (d : Dependency) :
    Option (Request data) :=
  if d.triviallyHolds data then none
  else
    match center? d.pattern with
    | none => none
    | some (center, radius) =>
      let candidates := share (data.withLabel (d.pattern.label center)) threads worker
      if candidates.isEmpty then none
      else some ⟨rule, center, radius, candidates, fun _ => lt_size_of_mem_share⟩

/-- What a worker is to weigh. -/
def requestsOf (data : Graph) (ds : List Dependency) (threads worker : Nat) :
    List (Request data) :=
  ds.zipIdx.filterMap fun e => requestFor data threads worker e.2 e.1

/-- There is room for a list for each of the workers. -/
def roomFor (threads : Nat) : Except Fault Unit :=
  if Capacity.fits Capacity.listBytes threads then .ok () else .error (.capacity threads)

/-- The requests of each worker. -/
def requests (data : Graph) (ds : List Dependency) (threads : Nat) :
    Except Fault (List (List (Request data))) := do
  roomFor threads
  return (List.range threads).map (requestsOf data ds threads)

/-! ## Messages -/

/-- Takes a message out of the queues for every weight of a bin that has one. -/
def fillBin : List Nat → Queues → List Message × Queues
  | [], queues => ([], queues)
  | w :: bin, queues =>
    match queues.pop? w with
    | none => fillBin bin queues
    | some (msg, queues) =>
      let (msgs, queues) := fillBin bin queues
      (msg :: msgs, queues)

/-- Takes messages out of the queues for every bin in turn. -/
def fillBins : List (List Nat) → Queues → List (List Message)
  | [], _ => []
  | bin :: bins, queues =>
    let (msgs, queues) := fillBin bin queues
    msgs :: fillBins bins queues

/-- The weights that each worker is to be handed a message for. -/
def shareWeights (weights : List Nat) (threads : Nat) : Except Fault (List (List Nat)) := do
  roomFor threads
  return balance weights threads

/-- The messages that each worker is handed. -/
def handOut (data : Graph) (ds : List Dependency) (threads : Nat) :
    Except Fault (List (List Message)) := do
  let requested ← requests data ds threads
  let filed ← Phase.run "message generation"
    (requested.map fun rs => .finished (generateMessages data rs))
  let queues := (Filed.gather filed).toQueues
  let bins ← shareWeights queues.weights threads
  return fillBins bins queues

/-! ## Searches -/

/-- Searches for a counterexample with the center at the candidate. -/
def runMessage (data : Graph) (d : Dependency) (m : Message) : Matching.Run Unit :=
  Matching.forEachEmbedding
    ⟨d.pattern, data, Matching.Query.pinned m.center m.candidate, Matching.Query.equalLabels⟩
    (some m.center) (seekCounterexample d data) ()

/-- What a worker knows: the dependencies that it has refuted, and its work. -/
abbrev Findings : Type := List Nat × Stats

/-- The message of a worker that breaks down at a position behind the dependencies. -/
def outOfRange (count rule : Nat) : String :=
  "index out of bounds: the len is " ++ toString count ++ " but the index is " ++ toString rule

/-- Takes a message into account, unless there is no dependency at its position. -/
def handle (data : Graph) (ds : List Dependency) (found : Findings) (m : Message) :
    Except String Findings :=
  if found.1.contains m.rule then .ok found
  else
    match ds[m.rule]? with
    | none => .error (outOfRange ds.length m.rule)
    | some d =>
      let run := runMessage data d m
      .ok (if run.stopped then m.rule :: found.1 else found.1,
        found.2.add ⟨1, run.embeddings⟩)

/-- How a worker ends over its messages. -/
def handleAll (data : Graph) (ds : List Dependency) (ms : List Message) :
    Phase.Ending Findings :=
  match ms.foldlM (handle data ds) ([], .zero) with
  | .ok found => .finished found
  | .error message => .panicked (some message)

/-- The outcomes that the findings of all workers stand for, and their work. -/
def merge (count : Nat) (findings : List Findings) : List Outcome × Stats :=
  ((List.range count).map fun i =>
      if findings.any fun f => f.1.contains i then .violated else .holds,
    Stats.total (findings.map Prod.snd))

/-- Checks every dependency with a number of workers. -/
def distributed (data : Graph) (ds : List Dependency) (threads : Nat) :
    Except Fault (List Outcome × Stats) :=
  if threads = 0 then .error (.threadCount threads)
  else do
    let lists ← handOut data ds threads
    let findings ← Phase.run "matching" (lists.map (handleAll data ds))
    return merge ds.length findings

/-- There has to be a worker. -/
theorem distributed_zero (data : Graph) (ds : List Dependency) :
    distributed data ds 0 = .error (.threadCount 0) := rfl

/-- Without room for the lists, no worker is handed any. -/
theorem handOut_of_not_fits (data : Graph) (ds : List Dependency) {threads : Nat}
    (h : Capacity.fits Capacity.listBytes threads ≠ true) :
    handOut data ds threads = .error (.capacity threads) := by
  rw [handOut, requests, roomFor, if_neg h]
  rfl

/-- Without room for the lists there is no result. -/
theorem distributed_of_not_fits (data : Graph) (ds : List Dependency) {threads : Nat}
    (h : Capacity.fits Capacity.listBytes threads ≠ true) :
    distributed data ds threads = .error (.capacity threads) := by
  have hpos : threads ≠ 0 := by
    rintro rfl
    exact h (by decide)
  rw [distributed, if_neg hpos, handOut_of_not_fits data ds h]
  rfl

end GraphDependency.Validation
