import Valuation.Engine

/-!
# View processes

A process produces cycles for one view. Whoever holds it can run a cycle directly; its loop runs one
for each trigger, for ticks of the live data, and at an interval, until it is told to stop or has run
as many as it may. The latest cycles of a process are retained in the table of the engine, and whoever
listens gets a notice of every cycle. A loop goes forward in turns (`turn`). If several things wake it,
any of them may come first.
-/
namespace Valuation

/-! ## Options and notices -/

/-- What starts a cycle. -/
inductive CycleTrigger where
  | manual
  | liveTick
  | interval
deriving DecidableEq, Inhabited

namespace CycleTrigger

def all : List CycleTrigger := [.manual, .liveTick, .interval]

def display : CycleTrigger → String
  | .manual => "Manual"
  | .liveTick => "LiveTick"
  | .interval => "Interval"

end CycleTrigger

/-- When the loop of a process runs cycles. -/
structure ProcessOptions where
  runOnLiveTicks : Bool := true
  interval : Option Duration := none
  maxCycles : Option Nat := none
deriving DecidableEq, Inhabited

/-- A cycle of a process has ended. -/
structure CycleNotice where
  process : ProcessId
  cycle : CycleId
  state : CycleState
  trigger : CycleTrigger
deriving DecidableEq, Inhabited

/-! ## Processes -/

/-- How far the loop of a process has come. -/
inductive ProcessLoop where
  | unstarted
  /-- The loop waits; `ticks` is its place among the ticks of live data, if it listens to them. -/
  | waiting (ticks : Option Nat)
  | ended
  /-- The loop could not go on; it still counts as running. -/
  | broken
deriving DecidableEq, Inhabited

structure Process where
  id : ProcessId
  definition : ViewDefinition
  source : SnapshotSource
  options : ProcessOptions
  /-- The cycles retained in the table of the engine, the oldest first. -/
  retained : List CycleId := []
  cyclesRun : Nat := 0
  notices : Channel CycleNotice
  /-- The triggers that the loop has not handled. -/
  triggers : List CycleTrigger := []
  loop : ProcessLoop := .unstarted
  /-- Whether the loop has been told to stop. -/
  stopping : Bool := false

/-- What running a cycle has come to. -/
structure CycleRun where
  result : Except EngineError Cycle
  process : Process
  engine : Engine
  journal : List Invocation

namespace Process

def new (id : ProcessId) (definition : ViewDefinition) (source : SnapshotSource)
    (options : ProcessOptions) (noticeCapacity : Nat) : Process :=
  { id, definition, source, options, notices := .ofCapacity noticeCapacity }

/-- Whether the loop has been started and has not ended. -/
def isRunning (p : Process) : Bool :=
  match p.loop with
  | .waiting _ => true
  | .broken => true
  | _ => false

/-- Whether the loop can still take a turn. -/
def isWaiting (p : Process) : Bool :=
  match p.loop with
  | .waiting _ => true
  | _ => false

/-- The latest retained cycle. -/
def latestCycle? (p : Process) (e : Engine) : Option Cycle :=
  p.retained.getLast?.bind fun id => e.cycles.get? id

/-! ## Retaining cycles -/

/-- Files a cycle in the table; the oldest ones of the process leave it if there are too many. -/
def retain (p : Process) (e : Engine) (c : Cycle) : Process × Engine :=
  let retained := p.retained ++ [c.id]
  let surplus := retained.length - e.cycleRetention
  ({ p with retained := retained.drop surplus },
    { e with cycles := (retained.take surplus).foldl Table.erase (e.cycles.insert c.id c) })

/-- Takes all cycles of the process out of the table. -/
def release (p : Process) (e : Engine) : Process × Engine :=
  ({ p with retained := [] }, { e with cycles := p.retained.foldl Table.erase e.cycles })

/-! ## Running cycles -/

/-- A stop reaches a loop that waits; before and after that it is lost. -/
def stop (p : Process) : Process := if p.isWaiting then { p with stopping := true } else p

/-- A new cycle, filed in the table. -/
def beginCycle (p : Process) (e : Engine) : Cycle × Process × Engine :=
  let (c, e) := e.newCycle p.id (CycleOptions.atTime e.now) p.definition.options
  (c, p.retain e c)

/-- Takes a new cycle to its end and gives notice. A move that was refused does no harm if the cycle
has ended, for then it has been cancelled. -/
def finishCycle (p : Process) (e : Engine) (stops : Stops) (trigger : CycleTrigger) (c : Cycle)
    (source : Except EngineError Snapshot) : CycleRun :=
  let r := e.perform stops p.definition c source
  let e := r.engine.updateCycle r.cycle
  let p := if r.stopped then p.stop else p
  let done : CycleRun :=
    { result := .ok r.cycle
      process := { p with
        cyclesRun := p.cyclesRun + 1
        notices := p.notices.send ⟨p.id, r.cycle.id, r.cycle.state, trigger⟩ }
      engine := e
      journal := r.journal }
  match r.error with
  | none => done
  | some err => if r.cycle.state.isTerminal then done else { done with result := .error err, process := p }

/-- Runs a cycle. -/
def runCycle (p : Process) (e : Engine) (stops : Stops) (trigger : CycleTrigger) : CycleRun :=
  let (c, p, e) := p.beginCycle e
  let (source, e) := e.takeSnapshot p.source
  p.finishCycle e stops trigger c source

/-! ## The loop -/

def failed (p : Process) (what : String) : EngineError := .internal ("process " ++ p.id.text ++ " " ++ what)

/-- Asks the loop for a cycle. Before the loop is started the request waits for it. -/
def trigger (p : Process) : Except EngineError Process :=
  match p.loop with
  | .unstarted => .ok { p with triggers := p.triggers ++ [.manual] }
  | .waiting _ => .ok { p with triggers := p.triggers ++ [.manual] }
  | _ => .error (p.failed "trigger closed")

/-- Starts the loop, once and for all. Without a host that can run it nothing happens. -/
def start (p : Process) (e : Engine) (hosted : Bool) : Except EngineError Process :=
  if !hosted then .error (p.failed "needs a runtime: there is none")
  else
    match p.loop with
    | .unstarted =>
      .ok { p with
        loop := .waiting (if p.options.runOnLiveTicks then e.tickPosition? p.source else none) }
    | _ => .error (p.failed "already started")

/-- What wakes a loop. -/
inductive Wakeup where
  | trigger
  | tick
  | shutdown
  | interval
deriving DecidableEq, Inhabited

/-- The ticks that the loop of a process listens to, and its place among them. -/
def ticks? (p : Process) (e : Engine) : Option (Channel Tick × Nat) :=
  match p.loop, p.source with
  | .waiting (some position), .live n => (e.feed? n).map fun f => (f.ticks, position)
  | _, _ => none

/-- Whether something can wake the loop. -/
def isReady (p : Process) (e : Engine) (w : Wakeup) : Bool :=
  p.isWaiting &&
    match w with
    | .trigger => !p.triggers.isEmpty
    | .tick => (p.ticks? e).any fun t => (t.1.receive? t.2).isSome
    | .shutdown => p.stopping
    | .interval => p.options.interval.isSome

/-- Takes in what woke the loop; answers what to run a cycle for, or nothing if the loop ends. All
ticks that have come count as one. -/
def wake (p : Process) (e : Engine) : Wakeup → Option CycleTrigger × Process
  | .trigger => (some (p.triggers.headD .manual), { p with triggers := p.triggers.tail })
  | .tick =>
    (some .liveTick, { p with loop := .waiting ((p.ticks? e).map fun t => t.1.position) })
  | .shutdown => (none, { p with loop := .ended })
  | .interval => (some .interval, p)

/-- The loop ends once enough cycles have been run. -/
def checkLimit (p : Process) : Process :=
  if p.isWaiting && p.options.maxCycles.any fun m => m ≤ p.cyclesRun then { p with loop := .ended } else p

/-- One turn of the loop: it wakes up, and runs a cycle or ends. -/
def turn (p : Process) (e : Engine) (stops : Stops) (w : Wakeup) : Process × Engine × List Invocation :=
  match p.wake e w with
  | (none, p) => (p, e, [])
  | (some t, p) =>
    let r := p.runCycle e stops t
    (r.process.checkLimit, r.engine, r.journal)

/-- Whether the loop is bound to break: it cannot keep an interval of no length. -/
def cannotRun (p : Process) : Bool := p.isWaiting && p.options.interval = some ⟨0, 0⟩

/-- Turns for what is ready, triggers before ticks before a stop before the interval, until a condition
holds or nothing is ready; at most `fuel` turns. -/
def turnsUntil (done : Process → Bool) (stops : Process → Stops) :
    (fuel : Nat) → Process → Engine → Process × Engine × List Invocation
  | 0, p, e => (p, e, [])
  | fuel + 1, p, e =>
    if done p then (p, e, [])
    else if p.cannotRun then ({ p with loop := .broken }, e, [])
    else
      match [Wakeup.trigger, .tick, .shutdown, .interval].find? (p.isReady e) with
      | none => (p, e, [])
      | some w =>
        let (p, e, journal) := p.turn e (stops p) w
        let (p, e, rest) := turnsUntil done stops fuel p e
        (p, e, journal ++ rest)

end Process
end Valuation
