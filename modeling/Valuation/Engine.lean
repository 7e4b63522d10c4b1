import Valuation.Cycle
import Valuation.Graph.Compiler
import Valuation.LiveData

/-!
# The engine

What processes and batches share: the compiler, the executor, the table of retained cycles, the feeds
of live data, and the supply of identifiers. `Engine.perform` takes a cycle from waiting to its end:
it needs a snapshot that is at least complete, a graph compiled against it, and a run. A stop may
come in between; a `StopPoint` is a place where it makes a difference.
-/
namespace Valuation

structure Engine where
  compiler : GraphCompiler
  executor : Executor
  /-- What its runs leave to chance. -/
  interleaving : Interleaving := {}
  /-- The cycles that can be looked up. -/
  cycles : Table CycleId Cycle := ∅
  /-- The feeds, by number. -/
  feeds : List LiveData := []
  /-- How many cycles a process keeps. -/
  cycleRetention : Nat := 5
  /-- How many completion notices a slow subscriber can fall behind. -/
  noticeCapacity : Nat := 64
  /-- The number of identifiers generated so far. -/
  serial : Nat := 0
  now : Instant

/-- Where a stop can come while a cycle is performed. -/
inductive StopPoint where
  /-- While the snapshot is taken. -/
  | takingSnapshot
  /-- Once the cycle is bound to fail, before it does. -/
  | failing
  /-- While the graph is compiled. -/
  | compiling
  /-- Between the look at the flag and the start. -/
  | beginning
  /-- Between the start and the first node. -/
  | executing
deriving DecidableEq, Inhabited

/-- The points at which a cycle is stopped. -/
abbrev Stops := StopPoint → Bool

def Stops.none : Stops := fun _ => false

/-- What performing a cycle has come to. An error leaves the cycle as it was before the move that was
refused. -/
structure Performance where
  cycle : Cycle
  engine : Engine
  error : Option EngineError := none
  journal : List Invocation := []
  /-- Whether a stop came, at a point or from a call. -/
  stopped : Bool := false

namespace Performance

/-- What a move has come to. -/
def ofMove (e : Engine) (c : Cycle) : Except EngineError Cycle → Performance
  | .ok c => { cycle := c, engine := e }
  | .error err => { cycle := c, engine := e, error := some err }

/-- A stop that came before. -/
def orStopped (p : Performance) (stopped : Bool) : Performance :=
  { p with stopped := p.stopped || stopped }

end Performance

/-- A cycle is cancelled if it is stopped at a point. -/
def Cycle.stopAt (c : Cycle) (stops : Stops) (p : StopPoint) : Cycle := if stops p then c.cancel else c

/-- Why a snapshot cannot be used yet. -/
def Snapshot.notReady (s : Snapshot) : String :=
  "snapshot " ++ s.id.display ++ " is " ++ s.state.display

namespace Engine

/-! ## Cycles -/

/-- A waiting cycle with a new identifier. -/
def newCycle (e : Engine) (process : ProcessId) (options : CycleOptions) (result : ResultOptions) :
    Cycle × Engine :=
  ({ id := CycleId.generate e.serial, process, options, resultOptions := result },
    { e with serial := e.serial + 1 })

/-- A cycle fails. -/
def performFailure (e : Engine) (stops : Stops) (c : Cycle) (failure : CycleFailure) : Performance :=
  let c := c.stopAt stops .failing
  (Performance.ofMove e c (c.fail e.now failure)).orStopped (stops .failing)

/-- A cycle begins and runs a graph. -/
def performRun (e : Engine) (stops : Stops) (c : Cycle) (s : Snapshot) (g : Graph) : Performance :=
  let c := c.stopAt stops .beginning
  match c.begin e.now s g with
  | .error err => { cycle := c, engine := e, error := some err, stopped := stops .beginning }
  | .ok c =>
    let (o, c) := (c.stopAt stops .executing).run e.executor s g e.interleaving
    { Performance.ofMove e c (c.complete e.now o) with
      journal := o.journal
      stopped := stops .beginning || stops .executing || o.cancelRequested }

/-- A cycle has a graph; it runs unless the flag is raised. -/
def performGraph (e : Engine) (stops : Stops) (c : Cycle) (s : Snapshot) (g : Graph) : Performance :=
  let c := c.stopAt stops .compiling
  (if c.control.cancelled then Performance.ofMove e c (c.fail e.now .cancelled)
  else e.performRun stops c s g).orStopped (stops .compiling)

/-- A cycle has a snapshot, or there is none for a reason. -/
def performSnapshot (e : Engine) (stops : Stops) (d : ViewDefinition) (c : Cycle) :
    Except EngineError Snapshot → Performance
  | .error err => e.performFailure stops c (.noSnapshot err.message)
  | .ok s =>
    if !s.state.reaches .complete then e.performFailure stops c (.noSnapshot s.notReady)
    else
      let (compiled, compiler) := e.compiler.compile d s.availability
      let e := { e with compiler }
      match compiled with
      | .error err => e.performFailure stops c (.compilation err.message)
      | .ok g => e.performGraph stops c s g.graph

/-- Takes a waiting cycle to its end. -/
def perform (e : Engine) (stops : Stops) (d : ViewDefinition) (c : Cycle)
    (source : Except EngineError Snapshot) : Performance :=
  (e.performSnapshot stops d (c.stopAt stops .takingSnapshot) source).orStopped (stops .takingSnapshot)

/-! ## Feeds -/

def feed? (e : Engine) (n : Nat) : Option LiveData := e.feeds[n]?

/-- Applies an operation to a feed; the answer is that of the operation. -/
def updateFeed {α : Type} (e : Engine) (n : Nat) (f : LiveData → α × LiveData) : Option α × Engine :=
  match e.feed? n with
  | some feed =>
    let (a, feed) := f feed
    (some a, { e with feeds := e.feeds.set n feed })
  | none => (none, e)

/-- Adds a feed; answers its number. -/
def addFeed (e : Engine) (feed : LiveData) : Nat × Engine :=
  (e.feeds.length, { e with feeds := e.feeds ++ [feed] })

def noSource : EngineError := .internal "no snapshot source configured"

/-- Takes a snapshot from a source. -/
def takeSnapshot (e : Engine) : SnapshotSource → Except EngineError Snapshot × Engine
  | .unavailable => (.error noSource, e)
  | .fixed s => (.ok s, e)
  | .live n =>
    let (s, e) := e.updateFeed n fun f => f.snapshot e.now.date
    (s.getD (.error noSource), e)

/-- Where a receiver of the ticks of a source starts, if the source has any. -/
def tickPosition? (e : Engine) : SnapshotSource → Option Nat
  | .live n => (e.feed? n).map fun f => f.ticks.position
  | _ => none

/-! ## The table of cycles -/

/-- Changes a cycle that is still retained. -/
def updateCycle (e : Engine) (c : Cycle) : Engine :=
  { e with cycles := e.cycles.modify c.id fun _ => c }

def cycle (e : Engine) (id : CycleId) : Except EngineError Cycle :=
  match e.cycles.get? id with
  | some c => .ok c
  | none => .error (.cycleNotFound id)

end Engine
end Valuation
