import Valuation.Execution.Run

/-!
# Execution strategies

Three ways to run a graph. The single-threaded strategy goes through the nodes in topological order.
The other two keep nodes in flight: ready nodes are queued until none is left, then one node in
flight ends, which may make more nodes ready. The node-parallel strategy queues every node, and the
worker that computes a node writes what it yields; the job-dispatch strategy copies the inputs of a
call when it queues the call, reads market data itself while queueing, and writes what a call yields
when the node ends. `Interleaving` says when workers compute and write which nodes, which one ends, and
when the run is cancelled from outside. With a single worker the node that was queued first always ends
first.
-/
namespace Valuation

/-- A strategy as it is configured. -/
inductive Strategy where
  | singleThreaded
  | nodeParallel (workers : Nat)
  | jobDispatch (calcNodes : Nat)
deriving DecidableEq, Inhabited

def Strategy.name : Strategy → String
  | .singleThreaded => "single_threaded"
  | .nodeParallel _ => "node_parallel"
  | .jobDispatch _ => "job_dispatch"

/-- How many nodes the strategy works on side by side, as it is configured. -/
def Strategy.workers : Strategy → Nat
  | .singleThreaded => 1
  | .nodeParallel workers => workers
  | .jobDispatch calcNodes => calcNodes

/-- A node in flight, with its inputs if they were copied when it was queued. -/
structure Job where
  node : Nat
  inputs : Option FunctionInputs := none
  /-- What has come of the node, once a worker has computed it, as far as it is not written yet. -/
  result : Option (Except FailureReason (List ComputedValue)) := none

/-- Which of the nodes in flight ends next, round by round. -/
abbrev Schedule := Nat → Nat

/-- Nodes end in the order in which they were queued. -/
def Schedule.inOrder : Schedule := fun _ => 0

/-- What a run leaves to chance, round by round. -/
structure Interleaving where
  /-- Which of the nodes in flight ends next. -/
  ends : Schedule := .inOrder
  /-- Which of the nodes in flight workers go on with before that one ends, in turn. -/
  early : Nat → List Nat := fun _ => []
  /-- Which of them workers go on with while the round queues others. -/
  meanwhile : Nat → Nat → List Nat := fun _ _ => []
  /-- Whether someone outside raises the flag before it is looked at. -/
  raised : Nat → Bool := fun _ => false

/-- A strategy that has the workers it needs. -/
inductive Executor where
  | singleThreaded
  | nodeParallel
  | jobDispatch
deriving DecidableEq, Inhabited

namespace Executor

/-- The executor of a strategy, unless it has no workers. -/
def ofStrategy : Strategy → Except EngineError Executor
  | .singleThreaded => .ok .singleThreaded
  | .nodeParallel workers =>
    if workers = 0 then .error (.config "node-parallel executor needs at least one worker")
    else .ok .nodeParallel
  | .jobDispatch calcNodes =>
    if calcNodes = 0 then .error (.config "job-dispatch executor needs at least one calculation node")
    else .ok .jobDispatch

def name : Executor → String
  | .singleThreaded => "single_threaded"
  | .nodeParallel => "node_parallel"
  | .jobDispatch => "job_dispatch"

/-! ## One after the other -/

/-- Goes through nodes in order, looking for cancellation before each; failed ones are passed over. -/
def sweep (raised : Nat → Bool) : List Nat → Run → Run × Bool
  | [], r => (r, false)
  | i :: rest, r =>
    let r := r.observe (raised rest.length)
    if r.isCancelled then (r, true)
    else if r.statusOf i = .failed then sweep raised rest r
    else sweep raised rest ((r.setStatus i .running).execute i)

/-! ## Several in flight -/

/-- A worker goes on with a node in flight: it computes the node, and then writes what that yields,
except when the inputs were copied. -/
def work (copyInputs : Bool) (r : Run) (job : Job) : Run × Except FailureReason (List ComputedValue) :=
  match job.result with
  | none => r.compute job.node job.inputs
  | some result => if copyInputs then (r, result) else r.write result

/-- Workers go on with some of the nodes in flight, in turn. -/
def workOn (copyInputs : Bool) : List Nat → Run → List Job → Run × List Job
  | [], r, jobs => (r, jobs)
  | k :: rest, r, jobs =>
    match jobs[k]? with
    | none => workOn copyInputs rest r jobs
    | some job =>
      let (r, result) := work copyInputs r job
      workOn copyInputs rest r (jobs.set k { job with result := some result })

/-- A node in flight ends, once it is computed and written. -/
def finishJob (r : Run) (job : Job) : Run :=
  match job.result with
  | none =>
    let (r, result) := r.compute job.node job.inputs
    r.finish job.node result
  | some result => r.finish job.node result

/-- Queues one node that has just started; reports the jobs in flight. -/
def submit (copyInputs : Bool) (r : Run) (jobs : List Job) (i : Nat) : Run × List Job :=
  if !copyInputs then (r, jobs ++ [⟨i, none, none⟩])
  else
    match r.graph.node? i with
    | none => (r, jobs)
    | some n =>
      match n.kind with
      | .marketData _ => (r.execute i, jobs)
      | .function _ =>
        match n.gatherInputs r.cache with
        | .ok inputs => (r, jobs ++ [⟨i, some inputs, none⟩])
        | .error reason => (r.fail i reason, jobs)

/-- Queues ready nodes until none is left, at most `fuel` of them, while workers go on with those in
flight. -/
def submitReady (copyInputs : Bool) (meanwhile : Nat → List Nat) :
    (fuel : Nat) → Run → List Job → Run × List Job
  | 0, r, jobs => (r, jobs)
  | fuel + 1, r, jobs =>
    match r.nextReady with
    | none => (r, jobs)
    | some (i, r) =>
      let (r, jobs) := submit copyInputs r jobs i
      let (r, jobs) := workOn copyInputs (meanwhile fuel) r jobs
      submitReady copyInputs meanwhile fuel r jobs

/-- Rounds of queueing what is ready, unless the run is cancelled, and of ending one node in flight,
until none is. -/
def rounds (copyInputs : Bool) (x : Interleaving) : (fuel : Nat) → Run → List Job → Run × Bool
  | 0, r, _ => (r, r.isCancelled)
  | fuel + 1, r, jobs =>
    let r := r.observe (x.raised fuel)
    let cancelled := r.isCancelled
    let (r, jobs) := if cancelled then (r, jobs)
      else submitReady copyInputs (x.meanwhile fuel) (r.graph.size + 1) r jobs
    let (r, jobs) := workOn copyInputs (x.early fuel) r jobs
    let next := x.ends fuel % jobs.length
    match jobs[next]? with
    | none => (r, cancelled)
    | some job => rounds copyInputs x fuel (finishJob r job) (jobs.eraseIdx next)

/-! ## Running a graph -/

/-- Drives a run of a graph to its end; reports whether cancellation was seen. Every round but the
last ends a node of its own, so there are at most as many rounds as nodes, and one. -/
def drive (e : Executor) (x : Interleaving) (g : Graph) (s : Snapshot) (c : Control) : Run × Bool :=
  let r := Run.start g s c
  match e with
  | .singleThreaded => sweep x.raised g.order r
  | .nodeParallel => rounds false x (g.size + 1) r []
  | .jobDispatch => rounds true x (g.size + 1) r []

/-- Runs a graph under an interleaving. -/
def runUnder (e : Executor) (x : Interleaving) (g : Graph) (s : Snapshot) (c : Control) :
    ExecutionOutcome :=
  let (r, cancelled) := e.drive x g s c
  r.outcome cancelled

/-- Runs a graph, nodes in flight ending as scheduled. -/
def runWith (e : Executor) (schedule : Schedule) (g : Graph) (s : Snapshot) (c : Control) :
    ExecutionOutcome :=
  e.runUnder { ends := schedule } g s c

/-- Runs a graph, nodes in flight ending in the order in which they were queued. -/
def run (e : Executor) (g : Graph) (s : Snapshot) (c : Control) : ExecutionOutcome :=
  e.runWith Schedule.inOrder g s c

end Executor
end Valuation
