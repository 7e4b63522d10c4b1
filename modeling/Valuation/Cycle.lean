import Valuation.Execution.Strategy
import Valuation.ResultModel

/-!
# View cycles

A cycle is one run of a graph against one snapshot. It waits, executes, and ends as executed or
failed; the two ends are final. What it records goes with its state: the snapshot, the graph and the
start with executing, a result with having executed, a failure with having failed.
-/
namespace Valuation

/-! ## States and failures -/

inductive CycleState where
  | awaitingExecution
  | executing
  | executed
  | executionFailed
deriving DecidableEq, Inhabited

namespace CycleState

def all : List CycleState := [.awaitingExecution, .executing, .executed, .executionFailed]

def display : CycleState → String
  | .awaitingExecution => "AWAITING_EXECUTION"
  | .executing => "EXECUTING"
  | .executed => "EXECUTED"
  | .executionFailed => "EXECUTION_FAILED"

def isTerminal (s : CycleState) : Bool := s = .executed || s = .executionFailed

/-- The moves that there are: forwards only. -/
def canMoveTo : CycleState → CycleState → Bool
  | .awaitingExecution, .executing => true
  | .awaitingExecution, .executionFailed => true
  | .executing, .executed => true
  | .executing, .executionFailed => true
  | _, _ => false

end CycleState

/-- Why a cycle failed as a whole. -/
inductive CycleFailure where
  | noSnapshot (what : String)
  | compilation (what : String)
  | structural (what : String)
  | cancelled
deriving DecidableEq, Inhabited

def CycleFailure.message : CycleFailure → String
  | .noSnapshot s => "no snapshot: " ++ s
  | .compilation s => "compilation failed: " ++ s
  | .structural s => "structural failure: " ++ s
  | .cancelled => "cancelled"

/-! ## Cycles -/

structure Cycle where
  id : CycleId
  process : ProcessId
  options : CycleOptions
  resultOptions : ResultOptions
  control : Control := {}
  state : CycleState := .awaitingExecution
  failure : Option CycleFailure := none
  startedAt : Option Instant := none
  finishedAt : Option Instant := none
  snapshot : Option Snapshot := none
  graph : Option Graph := none
  cache : Option ComputationCache := none
  result : Option ResultModel := none
  statistics : Option ExecutionStatistics := none

namespace Cycle

/-- How long the cycle has taken, up to its end or until now. -/
def duration? (c : Cycle) (now : Instant) : Option Duration :=
  c.startedAt.map fun start => (c.finishedAt.getD now).since start

/-- The identifier of the snapshot that the cycle has begun with. -/
def snapshotId? (c : Cycle) : Option SnapshotId := c.snapshot.map (·.id)

/-- The cached values on the targets that satisfy a test. -/
def query (c : Cycle) (test : Target → Bool) : List ComputedValue :=
  match c.cache with
  | some cache => cache.query test
  | none => []

/-- The cached values of some specifications. -/
def queryMany (c : Cycle) (specifications : List Specification) : List ComputedValue :=
  match c.cache with
  | some cache => cache.getMany specifications
  | none => []

/-! ## Moves -/

def transition (c : Cycle) (next : CycleState) : Except EngineError Cycle :=
  if c.state.canMoveTo next then .ok { c with state := next }
  else .error (.invalidStateTransition c.state.display next.display)

/-- Raises the flag that a run looks at. -/
def raise (c : Cycle) : Cycle := { c with control := { c.control with cancelled := true } }

/-- Raises the flag; a cycle that has not begun fails at once. -/
def cancel (c : Cycle) : Cycle :=
  let c := c.raise
  if c.state = .awaitingExecution then
    { c with state := .executionFailed, failure := some .cancelled }
  else c

/-- Starts executing a graph against a snapshot. -/
def begin (c : Cycle) (now : Instant) (s : Snapshot) (g : Graph) : Except EngineError Cycle := do
  let c ← c.transition .executing
  return { c with startedAt := some now, snapshot := some s, graph := some g }

/-- Ends with the outcome of a run: as failed if the run was cancelled, else with its result. -/
def complete (c : Cycle) (now : Instant) (o : ExecutionOutcome) : Except EngineError Cycle :=
  match c.graph with
  | none => .error (.internal ("cycle " ++ c.id.text ++ " has no graph"))
  | some g => do
    let c ← c.transition (if o.cancelled then .executionFailed else .executed)
    let c := { c with
      finishedAt := c.startedAt.map fun _ => now
      statistics := some o.statistics
      cache := some o.cache }
    if o.cancelled then return { c with failure := some .cancelled }
    else
      let model := ResultModel.build c.id c.options.valuationTime g o.cache o.failures c.resultOptions
      return { c with result := some model }

/-- Ends as failed. -/
def fail (c : Cycle) (now : Instant) (failure : CycleFailure) : Except EngineError Cycle := do
  let c ← c.transition .executionFailed
  return { c with finishedAt := c.startedAt.map fun _ => now, failure := some failure }

/-- Runs the graph under the cycle's flag, which calls may raise. -/
def run (c : Cycle) (e : Executor) (s : Snapshot) (g : Graph) (x : Interleaving := {}) :
    ExecutionOutcome × Cycle :=
  let o := e.runUnder x g s c.control
  (o, if o.cancelRequested then c.raise else c)

/-- Begins, runs and completes, unless the flag is raised already; reports the calls made. -/
def execute (c : Cycle) (e : Executor) (now : Instant) (s : Snapshot) (g : Graph) (x : Interleaving := {}) :
    Except EngineError (Cycle × List Invocation) :=
  if c.control.cancelled then do
    let c ← c.fail now .cancelled
    return (c, [])
  else do
    let c ← c.begin now s g
    let (o, c) := c.run e s g x
    let c ← c.complete now o
    return (c, o.journal)

end Cycle
end Valuation
