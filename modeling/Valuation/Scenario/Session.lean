import Valuation.Report.Order
import Valuation.Report.Service
import Valuation.Scenario.Service

/-!
# Sessions with processes

A scenario that works with a process calls its cycles by numbers, which it gives them when it first
meets them, and takes the notices of the process one after the other. While it waits for notices, the
loop of the process takes turns.
-/
namespace Valuation

structure Session where
  process : Process
  engine : Engine
  /-- The cycles that have been met. -/
  met : List CycleId := []
  /-- The place of the session among the notices of the process. -/
  taken : Nat := 0
  /-- The calls made so far. -/
  journal : List Invocation := []
  /-- The number of the snapshot, if any, that the process is stopped in. -/
  stopAt : Option Nat := none

/-- The number of a cycle among those that have been met. -/
def cycleNumber (met : List CycleId) (id : CycleId) : Json := .nat (placeIn met id).1

namespace Session

def stops (s : Session) (p : Process) : Stops := fun point =>
  point = .takingSnapshot && s.stopAt = some (p.cyclesRun + 1)

def number (s : Session) : CycleId → Json := cycleNumber s.met

def meet (s : Session) (ids : List CycleId) : Session :=
  { s with met := ids.foldl (fun met id => (placeIn met id).2) s.met }

/-- The cycles that the process retains are met. -/
def look (s : Session) : Session := s.meet s.process.retained

def report (s : Session) : Json := s.process.report s.number

/-- More turns than a scenario waits for. -/
def patience : Nat := 1000

/-- Lets the loop take turns until a condition holds. -/
def await (s : Session) (done : Process → Bool) : Session :=
  let (process, engine, journal) := Process.turnsUntil done s.stops patience s.process s.engine
  { s with process, engine, journal := s.journal ++ journal }

/-- Lets the loop take turns until it ends. -/
def awaitEnd (s : Session) : Session := s.await fun p => !p.isWaiting

/-- Whether the loop will end by itself. -/
def isEnding (s : Session) : Bool :=
  s.process.isWaiting && (s.process.stopping || s.process.options.maxCycles.any (· ≤ s.process.cyclesRun))

/-- Takes so many notices, as the loop gives them. -/
def takeNotices : Nat → Session → List (Received CycleNotice) × Session
  | 0, s => ([], s)
  | n + 1, s =>
    let s := s.await fun p => (p.notices.receive? s.taken).isSome
    match s.process.notices.receive? s.taken with
    | none => ([], s)
    | some (r, taken) =>
      let (rest, s) := takeNotices n { s with taken }
      (r :: rest, s)

/-- Takes the notices that there are. -/
def drainNotices (s : Session) : List (Received CycleNotice) × Session :=
  (s.process.notices.drain s.taken, { s with taken := s.process.notices.position })

/-- Takes so many notices, and waits for the loop if it is about to end. -/
def waitFor (s : Session) (n : Nat) : List (Received CycleNotice) × Session :=
  let (rs, s) := s.takeNotices n
  (rs, if s.isEnding then s.awaitEnd else s)

/-- Notices under a name for the process; their cycles are met. -/
def reportNotices (name : String) (taken : List (Received CycleNotice) × Session) : Json × Session :=
  let (rs, s) := taken
  let s := s.meet (rs.filterMap fun
    | .message n => some n.cycle
    | .lagged _ => none)
  (.each (Received.report (CycleNotice.report s.number name)) rs, s)

/-- Runs a cycle directly. -/
def runCycle (s : Session) (trigger : CycleTrigger) : Except EngineError Cycle × Session :=
  let r := s.process.runCycle s.engine (s.stops s.process) trigger
  let s := { s with process := r.process, engine := r.engine, journal := s.journal ++ r.journal }
  (r.result, s.meet (r.result.toOption.map (·.id)).toList)

end Session
end Valuation
