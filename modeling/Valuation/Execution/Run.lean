import Valuation.Execution.Invocation

/-!
# Runs

A run takes the nodes of a graph from `notStarted` over `running` to `executed` or `failed`. It
counts for each node the dependencies that have not executed, and queues a node as ready when none is
left. A node that fails takes everything behind it along. The operations here are the steps of every
strategy; a strategy decides their order.
-/
namespace Valuation

inductive NodeStatus where
  | notStarted
  | running
  | executed
  | failed
deriving DecidableEq, Inhabited

/-- Whether a run is to stop: a flag from outside, and whether calls of the run may raise it. -/
structure Control where
  cancelled : Bool := false
  attached : Bool := true
deriving DecidableEq, Inhabited

/-- How the nodes of a run ended. A node that was left running counts as not started. -/
structure ExecutionStatistics where
  total : Nat
  executed : Nat
  failed : Nat
  notStarted : Nat
  elapsed : Duration := ⟨0, 0⟩
deriving DecidableEq, Inhabited

/-- What a run leaves behind. -/
structure ExecutionOutcome where
  cache : ComputationCache
  failures : Table Specification FailureReason
  statistics : ExecutionStatistics
  /-- Whether cancellation was seen. -/
  cancelled : Bool
  /-- Whether a call asked for cancellation. -/
  cancelRequested : Bool
  /-- The calls in the order in which they were made. -/
  journal : List Invocation

structure Run where
  graph : Graph
  snapshot : Snapshot
  control : Control
  status : List NodeStatus
  /-- For each node the number of dependencies that have not executed. -/
  pending : List Nat
  ready : List Nat
  failures : Table Specification FailureReason := ∅
  cache : ComputationCache := {}
  journal : List Invocation := []
  cancelRequested : Bool := false

namespace Run

/-- Nothing has started; nodes without dependencies are ready, in the order of the graph. -/
def start (g : Graph) (s : Snapshot) (c : Control) : Run :=
  let pending := g.dependencies.map List.length
  { graph := g
    snapshot := s
    control := c
    status := List.replicate g.size .notStarted
    pending
    ready := g.order.filter fun i => pending.getD i 0 = 0 }

def statusOf (r : Run) (i : Nat) : NodeStatus := r.status.getD i .notStarted

def setStatus (r : Run) (i : Nat) (s : NodeStatus) : Run := { r with status := r.status.set i s }

/-- Whether the run is to stop. -/
def isCancelled (r : Run) : Bool := r.control.cancelled || (r.control.attached && r.cancelRequested)

/-- Someone outside may raise the flag before it is looked at. -/
def observe (r : Run) (raised : Bool) : Run :=
  if raised then { r with control := { r.control with cancelled := true } } else r

/-! ## Starting nodes -/

/-- Drops ready nodes that have failed meanwhile, and takes the first other one. -/
def firstReady (status : List NodeStatus) : List Nat → Option (Nat × List Nat)
  | [] => none
  | i :: rest =>
    if status.getD i .notStarted = .notStarted then some (i, rest) else firstReady status rest

/-- Starts the next ready node. -/
def nextReady (r : Run) : Option (Nat × Run) :=
  (firstReady r.status r.ready).map fun (i, rest) => (i, { r with ready := rest }.setStatus i .running)

/-! ## Ending nodes -/

/-- One dependency of a node has executed; the last one makes it ready. -/
def release (r : Run) (i : Nat) : Run :=
  let left := r.pending.getD i 0 - 1
  let r := { r with pending := r.pending.set i left }
  if left = 0 ∧ r.statusOf i = .notStarted then { r with ready := r.ready ++ [i] } else r

/-- A node has executed. -/
def complete (r : Run) (i : Nat) : Run :=
  (r.graph.dependentsOf i).foldl release (r.setStatus i .executed)

/-- A node that has not started fails because of a node before it. -/
def failDependent (dependency : Specification) (r : Run) (i : Nat) : Run :=
  if r.statusOf i = .notStarted then
    { r with
      failures := (r.graph.outputsOf i).foldl
        (fun fs o => fs.insertNew o (.dependencyFailure dependency)) r.failures
    }.setStatus i .failed
  else r

/-- A node has failed, and with it every node behind it that has not started. -/
def fail (r : Run) (i : Nat) (reason : FailureReason) : Run :=
  let outputs := r.graph.outputsOf i
  let r := { r with failures := outputs.foldl (fun fs o => fs.insert o reason) r.failures }.setStatus i .failed
  match outputs with
  | [] => r
  | dependency :: _ => (r.graph.downstream i).foldl (failDependent dependency) r

/-! ## Computing nodes -/

/-- Calls the function of a node. -/
def call (r : Run) (i : Nat) (n : Node) (f : CalculationFunction) (inputs : FunctionInputs) :
    Run × Except FailureReason (List ComputedValue) :=
  let e := f.execute n.target inputs n.outputs
  ({ r with
      journal := r.journal ++ [⟨i, f.id, n.target, inputs, e, r.cache⟩]
      cancelRequested := r.cancelRequested || e.cancels },
    outcomeOf f.id n.outputs e)

/-- Computes a node from the snapshot, or from its inputs: those given, or else those in the cache. -/
def compute (r : Run) (i : Nat) (inputs : Option FunctionInputs) :
    Run × Except FailureReason (List ComputedValue) :=
  match r.graph.node? i with
  | none => (r, .ok [])
  | some n =>
    match n.kind with
    | .marketData key => (r, n.readMarketData key r.snapshot)
    | .function f =>
      match inputs with
      | some inputs => r.call i n f inputs
      | none =>
        match n.gatherInputs r.cache with
        | .error reason => (r, .error reason)
        | .ok inputs => r.call i n f inputs

/-- Writes what a node yields; nothing is left to write then. -/
def write (r : Run) (values : Except FailureReason (List ComputedValue)) :
    Run × Except FailureReason (List ComputedValue) :=
  match values with
  | .error reason => (r, .error reason)
  | .ok values =>
    match writeOutputs r.cache values 0 with
    | (cache, .error reason) => ({ r with cache }, .error reason)
    | (cache, .ok _) => ({ r with cache }, .ok [])

/-- A node ends with what it yields, once that is written, or with a failure. -/
def finish (r : Run) (i : Nat) (values : Except FailureReason (List ComputedValue)) : Run :=
  match r.write values with
  | (r, .error reason) => r.fail i reason
  | (r, .ok _) => r.complete i

/-- Computes a node and ends it. -/
def execute (r : Run) (i : Nat) : Run :=
  let (r, values) := r.compute i none
  r.finish i values

/-! ## The outcome -/

def statistics (r : Run) : ExecutionStatistics :=
  { total := r.graph.size
    executed := r.status.count .executed
    failed := r.status.count .failed
    notStarted := r.status.count .notStarted + r.status.count .running }

def outcome (r : Run) (cancelled : Bool) : ExecutionOutcome :=
  { cache := r.cache
    failures := r.failures
    statistics := r.statistics
    cancelled
    cancelRequested := r.cancelRequested
    journal := r.journal }

end Run
end Valuation
